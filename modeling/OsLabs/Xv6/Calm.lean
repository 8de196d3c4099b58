import OsLabs.Xv6.EstateOps

namespace OsLabs.Xv6
open Command Gather Ownership

/-- No slot is taken or given back, and none is handed another stack or page directory. -/
structure Calm (tab tab' : Table) : Prop where
  unused : ∀ k, (tab'.proc k).state = .unused ↔ (tab.proc k).state = .unused
  embryo : ∀ k, (tab'.proc k).state = .embryo ↔ (tab.proc k).state = .embryo
  pid : ∀ k, (tab'.proc k).pid = (tab.proc k).pid
  pgdir : ∀ k, (tab'.proc k).pgdir = (tab.proc k).pgdir
  kstack : ∀ k, (tab'.proc k).kstack = (tab.proc k).kstack
  nextpid : tab'.nextpid = tab.nextpid
  kernel : tab'.kpgdir = tab.kpgdir

section Calm
variable {tab tab' tab'' : Table} {i : Nat}

theorem Calm.refl (tab : Table) : Calm tab tab :=
  ⟨fun _ => Iff.rfl, fun _ => Iff.rfl, fun _ => rfl, fun _ => rfl, fun _ => rfl, rfl, rfl⟩

theorem Calm.trans (first : Calm tab tab') (second : Calm tab' tab'') : Calm tab tab'' :=
  ⟨fun k => (second.unused k).trans (first.unused k), fun k => (second.embryo k).trans (first.embryo k),
    fun k => (second.pid k).trans (first.pid k), fun k => (second.pgdir k).trans (first.pgdir k),
    fun k => (second.kstack k).trans (first.kstack k), second.nextpid.trans first.nextpid,
      second.kernel.trans first.kernel⟩

theorem calm_set {q : Proc} (unused : q.state = .unused ↔ (tab.proc i).state = .unused)
    (embryo : q.state = .embryo ↔ (tab.proc i).state = .embryo) (pid : q.pid = (tab.proc i).pid)
    (pgdir : q.pgdir = (tab.proc i).pgdir) (kstack : q.kstack = (tab.proc i).kstack) : Calm tab (tab.set i q) := by
  refine ⟨fun k => iff_of_eq ?_, fun k => iff_of_eq ?_, tab.set_kept Proc.pid pid, tab.set_kept Proc.pgdir pgdir,
    tab.set_kept Proc.kstack kstack, rfl, rfl⟩
  · exact tab.set_kept (fun p => p.state = .unused) (propext unused) k
  · exact tab.set_kept (fun p => p.state = .embryo) (propext embryo) k

/-- Processes that exist already move between states. -/
theorem calm_state {st : ProcState} (before : (tab.proc i).state ≠ .unused ∧ (tab.proc i).state ≠ .embryo)
    (after : st ≠ .unused ∧ st ≠ .embryo) : Calm tab (tab.set i { tab.proc i with state := st }) :=
  calm_set ⟨fun now => absurd now after.1, fun was => absurd was before.1⟩
    ⟨fun now => absurd now after.2, fun was => absurd was before.2⟩ rfl rfl rfl

theorem calm_killed {q : Proc} (same : q = tab.proc i ∨ q = { tab.proc i with killed := true }) :
    Calm tab (tab.set i q) := by
  rcases same with rfl | rfl <;> exact calm_set Iff.rfl Iff.rfl rfl rfl rfl

theorem Woken.calm (woken : Woken tab tab') : Calm tab tab' :=
  ⟨woken.state (by decide) (by decide), woken.state (by decide) (by decide), fun k => (woken.slots k).pid,
    fun k => (woken.slots k).pgdir, fun k => (woken.slots k).kstack, woken.nextpid, woken.kernel⟩

theorem kill_calm (tab : Table) (pid : Int) : Calm tab (kill tab pid) := by
  unfold kill
  cases (List.range NPROC).find? fun k => ((tab.proc k).pid : Int) == pid with
  | none => exact Calm.refl tab
  | some k =>
    refine calm_set ?_ ?_ rfl rfl rfl
    all_goals by_cases asleep : (tab.proc k).state = .sleeping <;> simp [asleep]

variable {s : Machine}

theorem exit_calm (before : (tab.proc i).state ≠ .unused ∧ (tab.proc i).state ≠ .embryo) :
    Yields (exit tab i) s (fun tab' t => t = s ∧ Calm tab tab') fun _ _ => True := by
  refine exit_woken.imp fun tab' t post => ?_
  obtain ⟨rfl, awake, woken, rfl⟩ := post
  refine ⟨rfl, woken.calm.trans (calm_state ⟨?_, ?_⟩ (by decide))⟩
  · exact fun unused => before.1 ((woken.calm.unused i).mp unused)
  · exact fun embryo => before.2 ((woken.calm.embryo i).mp embryo)

theorem leave_calm : Yields (leave tab i) s (fun tab' t => t = s ∧ Calm tab tab') fun _ _ => True := by
  unfold leave
  refine yields_ite (fun running => exit_calm ?_) fun _ => yields_pure ⟨rfl, Calm.refl tab⟩
  rw [running.2]
  decide

end Calm

/-- The operations of a time slice but `fork`, which goes on in stages. -/
def ProcOp.Single : ProcOp → Prop
  | .access _ a => a < 2 ^ 32
  | .fault cr2 => cr2 < 2 ^ 32
  | .fork => False
  | _ => True

/-- What such an operation leaves: a calm table, or a table without the child `wait` has found. -/
def Settled (ld : Linker) (tab : Table) (hold : Nat → Holding) (kdir : Nat) (lost total : Multiset Nat) (tab' : Table)
    (t : Machine) : Prop :=
  (∃ lost', Calm tab tab' ∧ Books ld tab' hold t kdir lost' total) ∨
    ∃ k q, k < NPROC ∧ (tab.proc k).state = .zombie ∧ q.state = .unused ∧ q.pid = 0 ∧ q.pgdir = (tab.proc k).pgdir ∧
      Calm (tab.set k q) tab' ∧ Books ld tab' (Function.update hold k .nothing) t kdir lost total

section Operations
variable {ld : Linker} {entries : Entries} {tab tab' : Table} {hold : Nat → Holding} {s t : Machine} {kdir i : Nat}
  {lost total : Multiset Nat}

theorem Books.calm (books : Books ld tab hold s kdir lost total) (calm : Calm tab tab') :
    Books ld tab' hold s kdir lost total :=
  books.relabel calm.pgdir calm.kstack calm.kernel

/-- Returning to user mode is calm. -/
theorem Settled.leave (settled : Settled ld tab hold kdir lost total tab' t) :
    Yields (leave tab' i) t (fun tab'' u => Settled ld tab hold kdir lost total tab'' u) fun _ _ => True := by
  refine leave_calm.imp fun tab'' u post => ?_
  obtain ⟨rfl, after⟩ := post
  rcases settled with ⟨lost', calm, books⟩ | ⟨k, q, low, zombie, unused, pid, pgdir, calm, books⟩
  · exact .inl ⟨lost', calm.trans after, books.calm after⟩
  · exact .inr ⟨k, q, low, zombie, unused, pid, pgdir, calm.trans after, books.calm after⟩

variable (books : Books ld tab hold s kdir lost total) (bound : i < NPROC) (whole : hold i = .whole)
  (state : (tab.proc i).state = .running) (zombies : ∀ k, k < NPROC → (tab.proc k).state = .zombie → hold k = .whole)
include books state zombies

theorem Books.wait : Yields (wait ld tab i) s (fun r t => Settled ld tab hold kdir lost total r.2 t)
    fun _ _ => True := by
  unfold Xv6.wait
  cases found : zombieChild tab i with
  | some k =>
    obtain ⟨low, child⟩ := find_slot found
    have zombie : (tab.proc k).state = .zombie := by
      simp only [Bool.and_eq_true, beq_iff_eq] at child
      exact child.2
    let q : Proc := { tab.proc k with kstack := 0, pid := 0, parent := none, killed := false, state := .unused }
    refine yields_bind₂ (books.reap low (zombies k low zombie) q) fun _ t after => yields_pure (.inr ?_)
    exact ⟨k, q, low, zombie, rfl, rfl, rfl, Calm.refl _, after⟩
  | none =>
    refine yields_ite (fun _ => yields_pure (.inl ⟨lost, Calm.refl tab, books⟩)) fun _ => ?_
    have calm : Calm tab (tab.set i { tab.proc i with state := .sleeping }) :=
      calm_state (by rw [state]; decide) (by decide)
    exact yields_pure (.inl ⟨lost, calm, books.calm calm⟩)

include bound whole

/-- One operation of the running process. -/
theorem Books.runOp {op : ProcOp} (current : s.cr3 = 4096 * (tab.proc i).dir) (single : op.Single) :
    Yields (runOp ld entries tab i op) s (fun r t => Settled ld tab hold kdir lost total r.2 t) fun _ _ => True := by
  cases op with
  | access op a =>
    refine yields_bind (books.access bound whole current op single) fun r t post => ?_
    obtain ⟨same, lost', after⟩ := post
    exact yields_bind (Settled.leave (.inl ⟨lost', calm_killed same, after⟩)) fun _ _ done => yields_pure done
  | fault cr2 =>
    refine yields_bind (books.trap bound whole current single) fun q t post => yields_pure ?_
    obtain ⟨same, lost', after⟩ := post
    exact .inl ⟨lost', calm_killed same, after⟩
  | sbrk n =>
    refine yields_step rfl ?_
    have calm : Calm tab (tab.set i { tab.proc i with sz := addSigned (tab.proc i).sz n }) :=
      calm_set Iff.rfl Iff.rfl rfl rfl rfl
    exact yields_bind (Settled.leave (.inl ⟨lost, calm, books.calm calm⟩)) fun _ _ done => yields_pure done
  | fork => exact single.elim
  | exit =>
    refine yields_bind (exit_calm (by rw [state]; decide)) fun tab' t post => yields_pure ?_
    obtain ⟨rfl, calm⟩ := post
    exact .inl ⟨lost, calm, books.calm calm⟩
  | wait =>
    refine yields_bind (books.wait state zombies) fun r t settled => ?_
    exact yields_bind settled.leave fun _ _ done => yields_pure done

end Operations

end OsLabs.Xv6
