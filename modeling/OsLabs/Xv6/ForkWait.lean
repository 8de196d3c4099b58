import OsLabs.Xv6.Ledger

namespace OsLabs.Xv6
open Command Gather

section Stacks
variable {s : Machine} {E : Panic → Machine → Prop}

/-- Only the contents of the frame `f` have changed. -/
structure OnlyFrame (f : Nat) (s t : Machine) : Prop where
  mem : ∀ g, g ≠ f → t.mem g = s.mem g
  freelist : t.freelist = s.freelist
  cr3 : t.cr3 = s.cr3
  exhausted : t.exhausted = s.exhausted

theorem OnlyFrame.refl (f : Nat) (s : Machine) : OnlyFrame f s s := ⟨fun _ _ => rfl, rfl, rfl, rfl⟩

theorem OnlyFrame.trans {f : Nat} {s t u : Machine} (first : OnlyFrame f s t) (second : OnlyFrame f t u) :
    OnlyFrame f s u :=
  ⟨fun g other => (second.mem g other).trans (first.mem g other), second.freelist.trans first.freelist,
    second.cr3.trans first.cr3, second.exhausted.trans first.exhausted⟩

theorem onlyFrame_write (s : Machine) (f w x : Nat) : OnlyFrame f s (s.write f w x) :=
  ⟨fun _ other => write_other _ _ _ _ other, rfl, rfl, rfl⟩

theorem store_stack {w : Nat} (f x : Nat) (bound : w < 1024) :
    Yields (store (kva f + 4 * w) x) s (fun _ t => OnlyFrame f s t) E :=
  yields_ok (store_kva s f x bound) (onlyFrame_write s f w x)

/-- One more store to the stack frame. -/
theorem store_stack_then {α : Type} {next : Kernel α} {Q : α → Machine → Prop} {f w x : Nat} {s₀ : Machine}
    (before : OnlyFrame f s₀ s) (bound : w < 1024) (rest : ∀ t, OnlyFrame f s₀ t → Yields next t Q E) :
    Yields (do
      store (kva f + 4 * w) x
      next) s Q E :=
  yields_bind (store_stack f x bound) fun _ t after => rest t (before.trans after)

theorem initStack_spec (entries : Entries) (f : Nat) :
    Yields (initStack entries (kva f)) s (fun _ t => OnlyFrame f s t) E := by
  unfold initStack
  refine store_stack_then (OnlyFrame.refl f s) (by decide) fun _ only => ?_
  refine store_stack_then only (by decide) fun _ only => store_stack_then only (by decide) fun _ only => ?_
  refine store_stack_then only (by decide) fun _ only => store_stack_then only (by decide) fun _ only => ?_
  exact (store_stack f _ (by decide)).imp fun _ _ last => only.trans last

theorem copyTrapframe_spec (f g left : Nat) : ∀ s, left ≤ 1024 →
    Yields (copyTrapframe (kva f) (kva g) left) s (fun _ t => OnlyFrame f s t) E := by
  induction left with
  | zero => exact fun s _ => yields_pure (OnlyFrame.refl f s)
  | succ left ih =>
    intro s bound
    refine yields_step (load_kva s g (by omega)) ?_
    refine store_stack_then (OnlyFrame.refl f s) (by omega) fun t only => ?_
    exact (ih t (by omega)).imp fun _ _ last => only.trans last

end Stacks

section Fork
variable {ld : Linker} {tab : Table} {s t : Machine} {kdir i : Nat} {total : Multiset Nat}
    {E : Panic → Machine → Prop}

theorem owned_unused {m : Nat → Nat → Nat} {k : Nat} (bound : k < NPROC) (unused : (tab.proc k).state = .unused) :
    owned m tab kdir = others m tab kdir k := by
  rw [owned_split bound, holds_unused unused, zero_add]

/-- A slot that has become unused accounts for nothing. -/
theorem Table.owned_vacant (tab : Table) {m : Nat → Nat → Nat} {k : Nat} {q : Proc} (bound : k < NPROC)
    (unused : q.state = .unused) : owned m (tab.set k q) kdir = others m tab kdir k := by
  have vacant : ((tab.set k q).proc k).state = .unused := by
    rw [tab.set_self]
    exact unused
  rw [owned_unused bound vacant, others_set]

/-- A slot that stays unused accounts for nothing. -/
theorem Ledger.spare (ledger : Ledger ld tab s kdir total) {k : Nat} (bound : k < NPROC)
    (unused : (tab.proc k).state = .unused) {q : Proc} (still : q.state = .unused)
    (stock : Stock ld t (owned s.mem tab kdir) total) (keeps : Keeps (owned s.mem tab kdir) s t) :
    Ledger ld (tab.set k q) t kdir total ∧ owned t.mem (tab.set k q) kdir = owned s.mem tab kdir := by
  have whole : owned s.mem tab kdir = others s.mem tab kdir k := owned_unused bound unused
  rw [whole] at stock keeps ⊢
  refine ⟨ledger.replace bound ?_ keeps fun used => absurd still used, ?_⟩
  · rwa [holds_unused still, zero_add]
  · rw [tab.owned_vacant bound still, others_congr keeps.mem]

/-- A slot that `find?` reports is in the table. -/
theorem find_slot {f : Nat → Bool} {k : Nat} (found : (List.range NPROC).find? f = some k) : k < NPROC ∧ f k = true :=
  ⟨List.mem_range.mp (List.mem_of_find?_eq_some found), List.find?_some found⟩

/-- What `allocproc` leaves: nothing but a number used up, or an embryo with a kernel stack. -/
theorem allocproc_spec (entries : Entries) (ledger : Ledger ld tab s kdir total) :
    Yields (allocproc entries tab) s (fun r t =>
      (r.1 = none ∧ Ledger ld r.2 t kdir total ∧ owned t.mem r.2 kdir = owned s.mem tab kdir) ∨
      ∃ k f p n, r = (some k, { tab.set k p with nextpid := n }) ∧ k < NPROC ∧ (tab.proc k).state = .unused ∧
        p.kstack = kva f ∧ Stock ld t (f ::ₘ owned s.mem tab kdir) total ∧ Keeps (owned s.mem tab kdir) s t) E := by
  unfold allocproc
  cases found : (List.range NPROC).find? fun k => (tab.proc k).state == .unused with
  | none => exact yields_pure (.inl ⟨rfl, ledger, rfl⟩)
  | some k =>
    obtain ⟨bound, state⟩ := find_slot found
    have unused : (tab.proc k).state = .unused := by simpa using state
    refine yields_bind (kalloc_spec ledger.stock) fun r t post => ?_
    rcases post with ⟨rfl, _, rfl⟩ | ⟨f, rfl, _, stock, mem, cr3, ghost⟩
    · rw [if_pos rfl]
      obtain ⟨after, same⟩ := ledger.spare (t := { s with exhausted := true })
        (q := { tab.proc k with pid := tab.nextpid, kstack := 0 }) bound unused unused
          (ledger.stock.congr rfl fun _ _ => rfl) (Keeps.exhaust _ s)
      exact yields_pure (.inl ⟨rfl, ⟨after.stock, after.slots, after.kernel⟩, same⟩)
    · rw [if_neg (kva_ne_zero f)]
      refine yields_bind (initStack_spec entries f) fun _ u only => yields_pure (.inr ?_)
      refine ⟨k, f, _, _, rfl, bound, unused, rfl, ?_, ?_⟩
      · refine stock.congr only.freelist fun g notHeld => only.mem g ?_
        rintro rfl
        exact notHeld (Multiset.mem_cons_self ..)
      · have foreign := (Multiset.nodup_cons.mp stock.nodup_held).1
        refine ⟨fun g member => ?_, only.cr3.trans cr3, fun was => only.exhausted.trans (ghost.trans was)⟩
        rw [only.mem g fun same => foreign (same ▸ member), mem]

/-- The child of a `fork` moves into the unused slot `k`. -/
theorem Ledger.adopt (ledger : Ledger ld tab s kdir total) {k e f : Nat} (bound : k < NPROC)
    (unused : (tab.proc k).state = .unused) {q : Proc} (pgdir : q.pgdir = kva e) (kstack : q.kstack = kva f)
    (used : q.state ≠ .unused) (low : q.sz ≤ KERNBASE) (dir : Dir ld t e (f ::ₘ owned s.mem tab kdir) total)
    (keeps : Keeps (owned s.mem tab kdir) s t)
    (kernel : ∀ v, v < 2 ^ 20 → userPages ≤ v → ¬ userBit (pteAt t.mem e v)) :
      Ledger ld (tab.set k q) t kdir total := by
  have sameDir : q.dir = e := by rw [Proc.dir, pgdir, kva_frame]
  have sameStack : q.stackFrame = f := by rw [Proc.stackFrame, kstack, kva_frame]
  have stock := dir.stock
  rw [owned_unused bound unused] at keeps stock
  refine ledger.replace bound ?_ keeps fun _ => ⟨?_, ?_, ?_, low, ?_⟩
  · rw [holds_used used, sameDir, sameStack, Multiset.cons_add]
    rwa [Multiset.add_cons] at stock
  · rw [sameDir, pgdir]
  · rw [sameStack, kstack]
  · rw [sameDir]
    exact dir.space
  · rw [sameDir]
    exact kernel

/-- A change of one foreign frame leaves an address space in order. -/
theorem Dir.only {u : Machine} {d f : Nat} {rest : Multiset Nat} (dir : Dir ld t d (f ::ₘ rest) total)
    (only : OnlyFrame f t u) : Dir ld u d (f ::ₘ rest) total ∧ Keeps rest t u ∧
      ∀ v, v < 2 ^ 20 → pteAt u.mem d v = pteAt t.mem d v := by
  have apart := dir.apart (Multiset.mem_add.mpr (.inr (Multiset.mem_cons_self f rest)))
  have nodup := dir.stock.nodup_held
  rw [Multiset.add_cons] at nodup
  have foreign := (Multiset.nodup_cons.mp nodup).1
  have directory : u.mem d = t.mem d := only.mem d apart.1.symm
  have table : ∀ g ∈ tables t.mem d, u.mem g = t.mem g := by
    intro g member
    refine only.mem g ?_
    rintro rfl
    exact apart.2 member
  refine ⟨⟨?_, dir.space.congr directory table⟩,
    ⟨fun g member => only.mem g ?_, only.cr3, fun was => only.exhausted.trans was⟩,
    fun v bound => pteAt_congr bound directory table⟩
  · rw [own_congr directory table]
    refine dir.stock.congr only.freelist fun g notHeld => only.mem g ?_
    rintro rfl
    exact notHeld (Multiset.mem_add.mpr (.inr (Multiset.mem_cons_self ..)))
  · rintro rfl
    exact foreign (Multiset.mem_add.mpr (.inr member))

/-- The parent's address space after `allocproc`, beside the new stack and everything else. -/
theorem Ledger.parent (ledger : Ledger ld tab s kdir total) (bound : i < NPROC) (used : (tab.proc i).state ≠ .unused)
    {f : Nat} (stock : Stock ld t (f ::ₘ owned s.mem tab kdir) total) (keeps : Keeps (owned s.mem tab kdir) s t) :
    Dir ld t (tab.proc i).dir (f ::ₘ ((tab.proc i).stackFrame ::ₘ others s.mem tab kdir i)) total ∧
      own t.mem (tab.proc i).dir + ((tab.proc i).stackFrame ::ₘ others s.mem tab kdir i) = owned s.mem tab kdir := by
  have split : own s.mem (tab.proc i).dir + ((tab.proc i).stackFrame ::ₘ others s.mem tab kdir i) =
      owned s.mem tab kdir := by
    rw [owned_split bound, holds_used used, Multiset.add_cons, Multiset.cons_add]
  have member : ∀ g ∈ own s.mem (tab.proc i).dir, g ∈ owned s.mem tab kdir := fun g inside =>
    split ▸ Multiset.mem_add.mpr (.inl inside)
  have directory := keeps.mem _ (member _ (mem_own.mpr (.inl rfl)))
  have table : ∀ g ∈ tables s.mem (tab.proc i).dir, t.mem g = s.mem g := fun g inside =>
    keeps.mem g (member g (mem_own.mpr (.inr (.inl inside))))
  rw [← own_congr directory table] at split
  refine ⟨⟨?_, (ledger.slots i bound used).space.congr directory table⟩, split⟩
  rwa [Multiset.add_cons, split]

/-- `fork` keeps the ledger; a failed `fork` holds what was held before. -/
theorem fork_spec (entries : Entries) (ledger : Ledger ld tab s kdir total) (bound : i < NPROC)
    (used : (tab.proc i).state ≠ .unused) :
    Yields (fork ld entries tab i) s (fun r t => Ledger ld r.2 t kdir total ∧
      (r.1 = -1 → owned t.mem r.2 kdir = owned s.mem tab kdir)) fun _ _ => True := by
  unfold fork
  refine yields_bind (allocproc_spec entries ledger) fun r t post => ?_
  rcases post with ⟨none, after, same⟩ | ⟨k, f, p, n, rfl, low, unused, kstack, stock, keeps⟩
  · obtain ⟨slot, tab'⟩ := r
    obtain rfl : slot = Option.none := none
    exact yields_pure ⟨after, fun _ => same⟩
  · have other : i ≠ k := by
      rintro rfl
      exact used unused
    have slot := ledger.slots i bound used
    obtain ⟨parent, whole⟩ := ledger.parent bound used stock keeps
    dsimp only
    rw [tab.set_self, tab.set_other p other, slot.directory]
    refine yields_bind ((copyuvm_spec slot.low parent).mono (fun _ _ post => post) fun _ _ _ => trivial)
      fun r u post => ?_
    rcases post with ⟨rfl, _, gaveUp⟩ | ⟨e, last, rfl, _, _, copying⟩
    · rw [Multiset.add_cons, whole] at gaveUp
      rw [if_pos rfl, kstack]
      refine yields_bind (kfree_keeps gaveUp.stock) fun _ v freed => yields_pure ?_
      obtain ⟨stockAfter, rest, _⟩ := freed
      have kept : Keeps (owned s.mem tab kdir) s v :=
        (keeps.trans (gaveUp.keeps.subset fun g member => Multiset.mem_cons_of_mem member)).trans rest
      rw [tab.set_set]
      obtain ⟨after, same⟩ := ledger.spare (q := { p with pgdir := 0, kstack := 0, state := .unused }) low unused rfl
        stockAfter kept
      exact ⟨after.renumber n, fun _ => same⟩
    · rw [if_neg (kva_ne_zero e), kstack, slot.stack]
      have dirChild := copying.dir
      have keptCopy := copying.keeps
      rw [Multiset.add_cons, whole] at dirChild keptCopy
      refine yields_bind (copyTrapframe_spec f _ 19 u (by decide)) fun _ v frame => ?_
      refine yields_bind (store_stack f 0 (by decide)) fun _ w last => yields_pure ?_
      obtain ⟨dirAfter, keptAfter, entries⟩ := dirChild.only (frame.trans last)
      have kept : Keeps (owned s.mem tab kdir) s w :=
        (keeps.trans (keptCopy.subset fun g member => Multiset.mem_cons_of_mem member)).trans keptAfter
      rw [tab.set_set]
      have adopted := ledger.adopt (q := ⟨(tab.proc i).sz, kva e, kva f, .runnable, p.pid, some i, p.killed⟩)
        low unused rfl rfl (by simp) slot.low dirAfter kept fun x bound high => ?_
      refine ⟨adopted.renumber n, fun failed => ?_⟩
      · exact absurd failed (by simp)
      · rw [entries x bound]
        exact copying.kernel x bound high

end Fork

section ExitWait
variable {ld : Linker} {tab tab' tab'' : Table} {s : Machine} {kdir i : Nat} {total : Multiset Nat}
    {E : Panic → Machine → Prop}

/-- A process may be woken up and handed to another parent. -/
structure Proc.Woken (p q : Proc) : Prop where
  sz : q.sz = p.sz
  pgdir : q.pgdir = p.pgdir
  kstack : q.kstack = p.kstack
  pid : q.pid = p.pid
  killed : q.killed = p.killed
  state : q.state = p.state ∨ p.state = .sleeping ∧ q.state = .runnable

/-- What `wakeup1` and the loop of `exit` do to the table. -/
structure Woken (tab tab' : Table) : Prop where
  slots : ∀ k, (tab.proc k).Woken (tab'.proc k)
  nextpid : tab'.nextpid = tab.nextpid
  kernel : tab'.kpgdir = tab.kpgdir

theorem Proc.Woken.refl (p : Proc) : p.Woken p := ⟨rfl, rfl, rfl, rfl, rfl, .inl rfl⟩

theorem Proc.Woken.trans {p q r : Proc} (first : p.Woken q) (second : q.Woken r) : p.Woken r := by
  refine ⟨second.sz.trans first.sz, second.pgdir.trans first.pgdir, second.kstack.trans first.kstack,
    second.pid.trans first.pid, second.killed.trans first.killed, ?_⟩
  rcases second.state with same | ⟨asleep, runnable⟩
  · rw [same]
    exact first.state
  · rcases first.state with same | ⟨_, awake⟩
    · exact .inr ⟨same.symm.trans asleep, runnable⟩
    · rw [awake] at asleep
      cases asleep

theorem Woken.trans (first : Woken tab tab') (second : Woken tab' tab'') : Woken tab tab'' :=
  ⟨fun k => (first.slots k).trans (second.slots k), second.nextpid.trans first.nextpid,
    second.kernel.trans first.kernel⟩

/-- Waking up is a matter of processes that exist already. -/
theorem Woken.state (woken : Woken tab tab') {st : ProcState} (awake : st ≠ .sleeping)
    (waiting : st ≠ .runnable) (k : Nat) :
    (tab'.proc k).state = st ↔ (tab.proc k).state = st := by
  rcases (woken.slots k).state with same | ⟨asleep, runnable⟩
  · rw [same]
  · rw [asleep, runnable]
    exact ⟨fun was => absurd was.symm waiting, fun was => absurd was.symm awake⟩

theorem Woken.same (woken : Woken tab tab') : SameFrames tab tab' :=
  ⟨woken.state (by decide) (by decide), fun k => (woken.slots k).pgdir, fun k => (woken.slots k).kstack,
    fun k => (woken.slots k).sz, woken.kernel⟩

theorem wakeup1_woken (tab : Table) (chan : Option Nat) : Woken tab (wakeup1 tab chan) := by
  refine ⟨fun k => ?_, rfl, rfl⟩
  unfold wakeup1
  dsimp only
  split
  · rename_i woken
    exact ⟨rfl, rfl, rfl, rfl, rfl, .inr ⟨woken.2, rfl⟩⟩
  · exact .refl _

theorem reparent_woken (tab : Table) (i : Nat) : Woken tab (reparent tab i) := by
  refine ⟨fun k => ?_, rfl, rfl⟩
  unfold reparent
  dsimp only
  split
  · exact ⟨rfl, rfl, rfl, rfl, rfl, .inl rfl⟩
  · exact .refl _

/-- `exit` wakes processes up and leaves a zombie. -/
theorem exit_woken : Yields (exit tab i) s (fun tab' t => t = s ∧ ∃ awake, Woken tab awake ∧
    tab' = awake.set i { awake.proc i with state := .zombie }) fun _ _ => True := by
  unfold exit
  refine yields_ite (fun _ => yields_throw trivial) fun _ => yields_pure ⟨rfl, _, ?_, rfl⟩
  have first := (wakeup1_woken tab (tab.proc i).parent).trans (reparent_woken _ i)
  split
  · exact first.trans (wakeup1_woken _ _)
  · exact first

/-- `exit` gives nothing back: the frames wait for the parent. -/
theorem exit_spec (used : (tab.proc i).state ≠ .unused) :
    Yields (exit tab i) s (fun tab' t => t = s ∧ SameFrames tab tab') fun _ _ => True := by
  refine exit_woken.imp fun tab' t post => ?_
  obtain ⟨rfl, awake, woken, rfl⟩ := post
  refine ⟨rfl, woken.same.trans (sameFrames_set ?_ (by simp) rfl rfl rfl)⟩
  exact fun unused => used ((woken.same.unused i).mp unused)

theorem leave_spec : Yields (leave tab i) s (fun tab' t => t = s ∧ SameFrames tab tab') fun _ _ => True := by
  unfold leave
  exact yields_ite (fun running => exit_spec (by rw [running.2]; decide)) fun _ =>
    yields_pure ⟨rfl, SameFrames.refl tab⟩

/-- Reaping the child in slot `k` frees all its frames. -/
theorem Ledger.reap (ledger : Ledger ld tab s kdir total) {k : Nat} (bound : k < NPROC)
    (used : (tab.proc k).state ≠ .unused) {q : Proc} (unused : q.state = .unused) :
    Yields (do
      kfree ld (tab.proc k).kstack
      freevm ld (tab.proc k).pgdir) s (fun _ t => Ledger ld (tab.set k q) t kdir total ∧
        ∀ f ∈ holds s.mem (tab.proc k), f ∉ owned t.mem (tab.set k q) kdir) E := by
  have slot := ledger.slots k bound used
  have stock := ledger.stock
  rw [owned_split bound] at stock
  have apart : ∀ f ∈ holds s.mem (tab.proc k), f ∉ others s.mem tab kdir k := fun f member =>
    Multiset.disjoint_left.mp (Multiset.nodup_add.mp stock.nodup_held).2.2 member
  rw [holds_used used, Multiset.cons_add, ← Multiset.add_cons] at stock
  rw [slot.directory, slot.stack]
  refine (Dir.reap ⟨stock, slot.space⟩).imp fun _ u post => ?_
  obtain ⟨stockAfter, keeps⟩ := post
  refine ⟨ledger.replace bound ?_ keeps fun also => absurd unused also, fun f member inside => apart f member ?_⟩
  · rwa [holds_unused unused, zero_add]
  · rwa [tab.owned_vacant bound unused, others_congr keeps.mem] at inside

/-- `wait` keeps the ledger, and all frames of a reaped process are free. -/
theorem wait_spec (ledger : Ledger ld tab s kdir total) (used : (tab.proc i).state ≠ .unused) :
    Yields (wait ld tab i) s (fun r t => Ledger ld r.2 t kdir total ∧ ∀ k, k < NPROC → (tab.proc k).state ≠ .unused →
      (r.2.proc k).state = .unused → ∀ f ∈ holds s.mem (tab.proc k), f ∉ owned t.mem r.2 kdir) E := by
  unfold wait
  cases found : zombieChild tab i with
  | some k =>
    obtain ⟨bound, child⟩ := find_slot found
    have zombie : (tab.proc k).state = .zombie := by
      simp only [Bool.and_eq_true, beq_iff_eq] at child
      exact child.2
    refine yields_bind₂ (ledger.reap bound (by rw [zombie]; decide) rfl) fun _ t post => yields_pure ⟨post.1, ?_⟩
    intro j low usedBefore unusedAfter
    by_cases here : j = k
    · subst here
      exact post.2
    · change ((tab.set k _).proc j).state = .unused at unusedAfter
      rw [tab.set_other _ here] at unusedAfter
      exact absurd unusedAfter usedBefore
  | none =>
    refine yields_ite (fun _ => ?_) fun _ => ?_
    · exact yields_pure ⟨ledger, fun k _ before after => absurd after before⟩
    · have same := sameFrames_set (q := { tab.proc i with state := .sleeping }) used (by simp) rfl rfl rfl
      exact yields_pure ⟨ledger.relabel same, fun k _ before after => absurd ((same.unused k).mp after) before⟩

end ExitWait

end OsLabs.Xv6
