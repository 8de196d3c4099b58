import OsLabs.Xv6.Calm
import OsLabs.Xv6.ExecBuild

namespace OsLabs.Xv6
open Command Gather Ownership

/-- How far a `fork` has come with the slot it has claimed: an embryo, an embryo with a
kernel stack, one whose address space could not be copied, one whose `pgdir` is set, and one
that is filled in but not yet runnable. -/
inductive Stage
  | claimed
  | stacked
  | refused
  | copied
  | filled
  deriving DecidableEq, Repr

def Stage.holding : Stage → Holding
  | .claimed => .nothing
  | .stacked => .stack
  | .refused => .stack
  | .copied => .whole
  | .filled => .whole

/-- The kernel between two steps of its processes. `birth` is the `fork` that is filling a slot
and the process that executes it. `freed` is a ghost: the page directory that the `pgdir` of a
slot names has been freed. -/
structure Sys where
  tab : Table
  machine : Machine
  birth : Nat → Option (Stage × Nat)
  freed : Nat → Bool

def holding (state : ProcState) : Option (Stage × Nat) → Holding
  | some (stage, _) => stage.holding
  | none => if state = .unused then .nothing else .whole

/-- What the slot `k` has. -/
def Sys.hold (x : Sys) (k : Nat) : Holding := holding (x.tab.proc k).state (x.birth k)

/-- A process the scheduler deals with. -/
def Alive (st : ProcState) : Prop := st = .sleeping ∨ st = .runnable ∨ st = .running

/-- The process is not in the middle of a `fork`. -/
def Sys.Idle (x : Sys) (i : Nat) : Prop := ∀ k stage, x.birth k ≠ some (stage, i)

/-- A processor executes the process `i`; `s` is the machine with the page directory that
`switchuvm` has loaded there. -/
structure Sys.Executes (x : Sys) (i : Nat) (s : Machine) : Prop where
  bound : i < NPROC
  state : (x.tab.proc i).state = .running
  switched : switchuvm (x.tab.proc i) x.machine = .ok () s

/-- One step: processes execute the kernel and their programs in any interleaving, on any
number of processors, and each step is a piece of code between two accesses to the table. -/
inductive Step (ld : Linker) (entries : Entries) (x : Sys) : Sys → Prop
  /-- The scheduler, `yield`, `sleep` and `wakeup` move a process between states. -/
  | schedule {i : Nat} {st : ProcState} : Alive (x.tab.proc i).state → Alive st →
      Step ld entries x { x with tab := x.tab.set i { x.tab.proc i with state := st } }
  | kill (pid : Int) : Step ld entries x { x with tab := kill x.tab pid }
  /-- An operation of a process; `wait` frees the directory of the slot it empties. -/
  | operate {i : Nat} {s t : Machine} {op : ProcOp} {r : Option Int} {tab : Table} : x.Executes i s → x.Idle i → op.Single →
      runOp ld entries x.tab i op s = .ok (r, tab) t →
      Step ld entries x { x with
        tab := tab, machine := t
        freed := fun k => x.freed k || ((x.tab.proc k).state != .unused && (tab.proc k).state == .unused) }
  /-- A system call stores to user memory. -/
  | copyout {i a w : Nat} {s t : Machine} : x.Executes i s → a < KERNBASE → store a w s = .ok () t →
      Step ld entries x { x with machine := t }
  /-- `exec` of any file. Longer arguments than these do not fit on the stack page: `exec` fails, or follows
  a null pointer in `uva2ka` where they reach below address 0. -/
  | exec {i : Nat} {s t : Machine} {file : Option File} {argv : List (List UInt8)} {r : Int} {tab : Table} :
      x.Executes i s → x.Idle i → argBytes argv ≤ 2 * 4096 → exec ld file argv x.tab i s = .ok (r, tab) t →
      Step ld entries x { x with tab := tab, machine := t }
  | claim {i k : Nat} {s : Machine} {tab : Table} : x.Executes i s → x.Idle i → claimSlot x.tab = some (k, tab) →
      Step ld entries x { x with tab := tab, birth := Function.update x.birth k (some (.claimed, i)) }
  | stack {i k : Nat} {s t : Machine} {done : Bool} {tab : Table} : x.Executes i s → x.birth k = some (.claimed, i) →
      giveStack entries x.tab k s = .ok (done, tab) t →
      Step ld entries x { x with
        tab := tab, machine := t
        birth := Function.update x.birth k (if done then some (.stacked, i) else none) }
  | copy {i k : Nat} {s t : Machine} {done : Bool} {tab : Table} : x.Executes i s → x.birth k = some (.stacked, i) →
      copySpace ld x.tab i k s = .ok (done, tab) t →
      Step ld entries x { x with
        tab := tab, machine := t, freed := Function.update x.freed k false
        birth := Function.update x.birth k (some (if done then .copied else .refused, i)) }
  | abandon {i k : Nat} {s t : Machine} {tab : Table} : x.Executes i s → x.birth k = some (.refused, i) →
      abandonSlot ld x.tab k s = .ok tab t →
      Step ld entries x { x with tab := tab, machine := t, birth := Function.update x.birth k none }
  | fill {i k : Nat} {s t : Machine} {tab : Table} : x.Executes i s → x.birth k = some (.copied, i) →
      fillChild x.tab i k s = .ok tab t →
      Step ld entries x { x with tab := tab, machine := t, birth := Function.update x.birth k (some (.filled, i)) }
  | publish {i k : Nat} {s : Machine} : x.Executes i s → x.birth k = some (.filled, i) →
      Step ld entries x { x with tab := publish x.tab k, birth := Function.update x.birth k none }

/-- Pids are given out once; only processes have one that is not 0. -/
structure Pids (tab : Table) : Prop where
  positive : 0 < tab.nextpid
  below : ∀ k, k < NPROC → (tab.proc k).pid < tab.nextpid
  distinct : ∀ j k, j < NPROC → k < NPROC → (tab.proc j).pid = (tab.proc k).pid → (tab.proc j).pid ≠ 0 → j = k
  used : ∀ k, k < NPROC → (tab.proc k).state ≠ .unused → (tab.proc k).pid ≠ 0

/-- A system in order. -/
structure Orderly (ld : Linker) (x : Sys) (kdir : Nat) (lost total : Multiset Nat) : Prop where
  books : Books ld x.tab x.hold x.machine kdir lost total
  embryos : ∀ k, k < NPROC → ((x.tab.proc k).state = .embryo ↔ x.birth k ≠ none)
  births : ∀ k, NPROC ≤ k → x.birth k = none
  owned : ∀ k, k < NPROC → x.hold k = .whole → x.freed k = false
  dead : ∀ k, k < NPROC → x.hold k ≠ .whole → (x.tab.proc k).pgdir = 0 ∨ x.freed k = true
  pids : Pids x.tab

section Pids
variable {tab tab' : Table} {k : Nat} {q : Proc}

theorem Pids.calm (pids : Pids tab) (calm : Calm tab tab') : Pids tab' := by
  refine ⟨?_, fun j low => ?_, fun j l low low' same some => ?_, fun j low used => ?_⟩
  · rw [calm.nextpid]
    exact pids.positive
  · rw [calm.pid, calm.nextpid]
    exact pids.below j low
  · rw [calm.pid, calm.pid] at same
    rw [calm.pid] at some
    exact pids.distinct j l low low' same some
  · rw [calm.pid]
    exact pids.used j low fun unused => used ((calm.unused j).mpr unused)

/-- A slot gets a pid that no slot has had. -/
theorem Pids.assign (pids : Pids tab) {n : Nat} (more : tab.nextpid ≤ n) (below : q.pid < n)
    (fresh : q.pid ≠ 0 → ∀ j, j < NPROC → j ≠ k → (tab.proc j).pid ≠ q.pid) (used : q.state ≠ .unused → q.pid ≠ 0) :
    Pids { tab.set k q with nextpid := n } := by
  have here : ({ tab.set k q with nextpid := n } : Table).proc k = q := tab.set_self k q
  have there : ∀ j, j ≠ k → ({ tab.set k q with nextpid := n } : Table).proc j = tab.proc j := fun j other =>
    tab.set_other q other
  refine ⟨pids.positive.trans_le more, fun j low => ?_, fun j l low low' same some => ?_, fun j low inUse => ?_⟩
  · by_cases self : j = k
    · rw [self, here]
      exact below
    · rw [there j self]
      exact (pids.below j low).trans_le more
  · by_cases left : j = k
    · by_cases right : l = k
      · rw [left, right]
      · rw [left, here, there l right] at same
        rw [left, here] at some
        exact absurd same.symm (fresh some l low' right)
    · by_cases right : l = k
      · rw [right, here, there j left] at same
        rw [there j left, same] at some
        exact absurd same (fresh some j low left)
      · rw [there j left, there l right] at same
        rw [there j left] at some
        exact pids.distinct j l low low' same some
  · by_cases self : j = k
    · rw [self, here] at inUse ⊢
      exact used inUse
    · rw [there j self] at inUse ⊢
      exact pids.used j low inUse

/-- A slot keeps its pid. -/
theorem Pids.keep (pids : Pids tab) (low : k < NPROC) (pid : q.pid = (tab.proc k).pid)
    (used : q.state ≠ .unused → (tab.proc k).state ≠ .unused) : Pids (tab.set k q) := by
  refine pids.assign le_rfl ?_ (fun some j low' other same => ?_) fun inUse => ?_
  · rw [pid]
    exact pids.below k low
  · rw [pid] at some same
    exact other (pids.distinct j k low' low same (same ▸ some))
  · rw [pid]
    exact pids.used k low (used inUse)

end Pids

section Order
variable {ld : Linker} {entries : Entries} {x y : Sys} {t : Machine} {kdir k : Nat} {lost lost' total : Multiset Nat}

theorem hold_set (x : Sys) (k n : Nat) (q : Proc) (b : Option (Stage × Nat)) (t : Machine) (freed : Nat → Bool) :
    Sys.hold ⟨{ x.tab.set k q with nextpid := n }, t, Function.update x.birth k b, freed⟩ =
      Function.update x.hold k (holding q.state b) := by
  funext j
  unfold Sys.hold
  dsimp only
  by_cases here : j = k
  · rw [here, Function.update_self, Function.update_self, x.tab.set_self]
  · rw [Function.update_of_ne here, Function.update_of_ne here, x.tab.set_other q here]

/-- One slot goes on to the next stage of its life. -/
theorem Orderly.advance (order : Orderly ld x kdir lost total) (low : k < NPROC) {q : Proc} {b : Option (Stage × Nat)}
    {n : Nat} {f : Bool}
    (books : Books ld (x.tab.set k q) (Function.update x.hold k (holding q.state b)) t kdir lost' total)
    (embryo : q.state = .embryo ↔ b ≠ none) (owned : holding q.state b = .whole → f = false)
    (dead : holding q.state b ≠ .whole → q.pgdir = 0 ∨ f = true) (pids : Pids { x.tab.set k q with nextpid := n }) :
    Orderly ld ⟨{ x.tab.set k q with nextpid := n }, t, Function.update x.birth k b, Function.update x.freed k f⟩
      kdir lost' total := by
  have here : ({ x.tab.set k q with nextpid := n } : Table).proc k = q := x.tab.set_self k q
  have there : ∀ j, j ≠ k → ({ x.tab.set k q with nextpid := n } : Table).proc j = x.tab.proc j := fun j other =>
    x.tab.set_other q other
  have hold := hold_set x k n q b t (Function.update x.freed k f)
  refine ⟨?_, fun j inside => ?_, fun j outside => ?_, fun j inside whole => ?_, fun j inside notWhole => ?_, pids⟩
  · rw [hold]
    exact books.relabel (fun _ => rfl) (fun _ => rfl) rfl
  · dsimp only
    by_cases self : j = k
    · rw [self, here, Function.update_self]
      exact embryo
    · rw [there j self, Function.update_of_ne self]
      exact order.embryos j inside
  · dsimp only
    rw [Function.update_of_ne (by omega)]
    exact order.births j outside
  · rw [hold] at whole
    dsimp only
    by_cases self : j = k
    · rw [self, Function.update_self] at whole ⊢
      exact owned whole
    · rw [Function.update_of_ne self] at whole ⊢
      exact order.owned j inside whole
  · rw [hold] at notWhole
    dsimp only
    by_cases self : j = k
    · rw [self, Function.update_self] at notWhole ⊢
      rw [here]
      exact dead notWhole
    · rw [Function.update_of_ne self] at notWhole ⊢
      rw [there j self]
      exact order.dead j inside notWhole

/-- A slot goes on with the page directory it has or has not. -/
theorem Orderly.proceed (order : Orderly ld x kdir lost total) (low : k < NPROC) {q : Proc}
    {b : Option (Stage × Nat)} {n : Nat}
    (books : Books ld (x.tab.set k q) (Function.update x.hold k (holding q.state b)) t kdir lost' total)
    (embryo : q.state = .embryo ↔ b ≠ none) (pgdir : q.pgdir = (x.tab.proc k).pgdir)
    (whole : holding q.state b = .whole ↔ x.hold k = .whole) (pids : Pids { x.tab.set k q with nextpid := n }) :
    Orderly ld ⟨{ x.tab.set k q with nextpid := n }, t, Function.update x.birth k b, x.freed⟩ kdir lost' total := by
  have next := order.advance (f := x.freed k) low books embryo (fun now => order.owned k low (whole.mp now))
    (fun notNow => by rw [pgdir]; exact order.dead k low fun was => notNow (whole.mpr was)) pids
  rwa [Function.update_eq_self] at next

/-- Nothing happens to the slots. -/
theorem Orderly.calm (order : Orderly ld x kdir lost total) {tab : Table} (calm : Calm x.tab tab)
    (books : Books ld tab x.hold t kdir lost' total) :
      Orderly ld { x with tab := tab, machine := t } kdir lost' total := by
  have hold : Sys.hold { x with tab := tab, machine := t } = x.hold := by
    funext j
    unfold Sys.hold holding
    dsimp only
    cases x.birth j with
    | some _ => rfl
    | none => exact if_congr (calm.unused j) rfl rfl
  refine ⟨?_, fun j inside => (calm.embryo j).trans (order.embryos j inside), order.births, fun j inside whole => ?_,
    fun j inside notWhole => ?_, order.pids.calm calm⟩
  · rw [hold]
    exact books
  · rw [hold] at whole
    exact order.owned j inside whole
  · rw [hold] at notWhole
    change (tab.proc j).pgdir = 0 ∨ _
    rw [calm.pgdir]
    exact order.dead j inside notWhole

section Steps
variable (order : Orderly ld x kdir lost total)
include order

theorem Orderly.unborn {st : ProcState} (low : k < NPROC) (state : (x.tab.proc k).state = st) (other : st ≠ .embryo) :
    x.birth k = none := by
  by_contra some
  exact other (state.symm.trans ((order.embryos k low).mpr some))

/-- A process has its address space until its parent has waited for it. -/
theorem Orderly.whole {st : ProcState} (low : k < NPROC) (state : (x.tab.proc k).state = st) (born : st ≠ .embryo)
    (used : st ≠ .unused) : x.hold k = .whole := by
  unfold Sys.hold
  rw [order.unborn low state born, state]
  exact if_neg used

/-- A slot in the making. -/
theorem Orderly.birth {i : Nat} {stage : Stage} (birth : x.birth k = some (stage, i)) :
    k < NPROC ∧ (x.tab.proc k).state = .embryo ∧ x.hold k = stage.holding := by
  have low : k < NPROC := by
    by_contra outside
    rw [order.births k (not_lt.mp outside)] at birth
    cases birth
  refine ⟨low, (order.embryos k low).mpr (by rw [birth]; exact Option.some_ne_none _), ?_⟩
  unfold Sys.hold
  rw [birth]
  rfl

/-- A process that is executed has its address space, and its processor uses it. -/
theorem Orderly.executes {i : Nat} {s : Machine} (on : x.Executes i s) :
    x.hold i = .whole ∧ s.cr3 = 4096 * (x.tab.proc i).dir ∧ Books ld x.tab x.hold s kdir lost total := by
  have whole := order.whole on.bound on.state (by decide) (by decide)
  have fits := order.books.slots i on.bound
  have switched := on.switched
  rw [switchuvm_kva x.machine (fits.stack_ne_zero whole) (fits.directory whole)] at switched
  obtain rfl := (EStateM.Result.ok.inj switched).2
  exact ⟨whole, rfl, order.books.congr rfl rfl⟩

theorem Orderly.schedule {i : Nat} {st : ProcState} (before : Alive (x.tab.proc i).state) (after : Alive st) :
    Orderly ld { x with tab := x.tab.set i { x.tab.proc i with state := st } } kdir lost total := by
  have used : ∀ st, Alive st → st ≠ .unused ∧ st ≠ .embryo := by
    rintro st (rfl | rfl | rfl) <;> decide
  have calm : Calm x.tab (x.tab.set i { x.tab.proc i with state := st }) := calm_state (used _ before) (used _ after)
  exact order.calm (t := x.machine) calm (order.books.calm calm)

theorem Orderly.operate {i : Nat} {s : Machine} {op : ProcOp} {r : Option Int} {tab : Table} (on : x.Executes i s)
    (single : op.Single) (run : runOp ld entries x.tab i op s = .ok (r, tab) t) :
    ∃ lost', Orderly ld { x with
      tab := tab, machine := t
      freed := fun k => x.freed k || ((x.tab.proc k).state != .unused && (tab.proc k).state == .unused) }
        kdir lost' total := by
  obtain ⟨whole, current, books⟩ := order.executes on
  have zombies : ∀ k, k < NPROC → (x.tab.proc k).state = .zombie → x.hold k = .whole := fun k low zombie =>
    order.whole low zombie (by decide) (by decide)
  have settled : Settled ld x.tab x.hold kdir lost total tab t :=
    (books.runOp on.bound whole on.state zombies current single).of_ok run
  rcases settled with ⟨lost', calm, books⟩ | ⟨k, q, low, zombie, unused, pid, pgdir, calm, books⟩
  · have freed : (fun k => x.freed k ||
      ((x.tab.proc k).state != .unused && (tab.proc k).state == .unused)) = x.freed := by
      funext k
      by_cases gone : (x.tab.proc k).state = .unused
      · simp [gone]
      · have still : (tab.proc k).state ≠ .unused := fun now => gone ((calm.unused k).mp now)
        simp [still]
    rw [freed]
    exact ⟨lost', order.calm calm books⟩
  · have unborn := order.unborn low zombie (by decide)
    have emptied : holding q.state none = .nothing := by
      rw [unused]
      rfl
    have between := order.advance (t := t) (q := q) (b := none) (n := x.tab.nextpid) (f := true) low
      (by rw [emptied]; exact books.relabel (fun j => (calm.pgdir j).symm) (fun j => (calm.kstack j).symm) calm.kernel.symm)
      (by rw [unused]; decide) (by rw [emptied]; decide) (fun _ => .inr rfl)
      (order.pids.assign le_rfl (by rw [pid]; exact order.pids.positive) (fun some => absurd pid some)
        fun used => absurd unused used)
    have freed : (fun j => x.freed j || ((x.tab.proc j).state != .unused && (tab.proc j).state == .unused)) =
        Function.update x.freed k true := by
      funext j
      by_cases here : j = k
      · have now : (tab.proc k).state = .unused := (calm.unused k).mpr (by rw [x.tab.set_self]; exact unused)
        rw [here, Function.update_self]
        simp [zombie, now]
      · have same := calm.unused j
        rw [x.tab.set_other q here] at same
        rw [Function.update_of_ne here]
        by_cases gone : (x.tab.proc j).state = .unused
        · simp [gone]
        · have still : (tab.proc j).state ≠ .unused := fun now => gone (same.mp now)
          simp [still]
    rw [freed]
    refine ⟨lost, ?_⟩
    have done := between.calm calm (by rw [hold_set, emptied]; exact books)
    rwa [← unborn, Function.update_eq_self] at done

/-- `exec` exchanges one address space for another. -/
theorem Orderly.exec {i : Nat} {s : Machine} {file : Option File} {argv : List (List UInt8)} {r : Int} {tab : Table}
    (on : x.Executes i s) (room : argBytes argv ≤ 2 * 4096) (run : exec ld file argv x.tab i s = .ok (r, tab) t) :
    Orderly ld { x with tab := tab, machine := t } kdir lost total := by
  obtain ⟨whole, _, books⟩ := order.executes on
  obtain ⟨same, after⟩ := (books.exec on.bound whole file room).of_ok run
  rcases same with rfl | ⟨e, sz, rfl⟩
  · exact order.calm (Calm.refl x.tab) after
  · have unborn := order.unborn on.bound on.state (by decide)
    have owned := order.owned i on.bound whole
    have running : holding (x.tab.proc i).state none = .whole := if_neg (by rw [on.state]; decide)
    have next := order.advance (t := t) (b := none) (n := x.tab.nextpid) (f := false) on.bound
      (q := { x.tab.proc i with pgdir := kva e, sz := sz }) (by rw [running]; exact after.stays whole)
      (by simp [on.state]) (fun _ => rfl) (fun notWhole => absurd running notWhole)
      (order.pids.keep on.bound rfl id)
    rwa [← unborn, ← owned, Function.update_eq_self, Function.update_eq_self] at next

theorem Orderly.claim {i : Nat} {tab : Table} (claimed : claimSlot x.tab = some (k, tab)) :
    Orderly ld { x with tab := tab, birth := Function.update x.birth k (some (.claimed, i)) } kdir lost total := by
  unfold claimSlot at claimed
  obtain ⟨j, found, same⟩ := Option.map_eq_some_iff.mp claimed
  obtain ⟨rfl, rfl⟩ := Prod.mk.inj same
  obtain ⟨low, state⟩ := find_slot found
  have unused : (x.tab.proc j).state = .unused := by simpa using state
  have nothing : x.hold j = .nothing := by
    unfold Sys.hold
    rw [order.unborn low unused (by decide), unused]
    rfl
  have books := order.books.rewrite (k := j)
      (q := { x.tab.proc j with state := .embryo, pid := x.tab.nextpid }) rfl rfl
  refine order.proceed (t := x.machine) (b := some (.claimed, i)) low (books.stays nothing) (by simp) rfl ?_ ?_
  · rw [nothing]
    exact Iff.rfl
  · refine order.pids.assign (Nat.le_succ _) (Nat.lt_succ_self _) (fun _ l low' _ same => ?_) fun _ => ?_
    · exact absurd (order.pids.below l low') (same ▸ lt_irrefl _)
    · exact Nat.pos_iff_ne_zero.mp order.pids.positive

theorem Orderly.stack {i : Nat} {s : Machine} {done : Bool} {tab : Table} (on : x.Executes i s)
    (birth : x.birth k = some (.claimed, i)) (run : giveStack entries x.tab k s = .ok (done, tab) t) :
    Orderly ld { x with
      tab := tab, machine := t
      birth := Function.update x.birth k (if done then some (.stacked, i) else none) } kdir lost total := by
  obtain ⟨_, _, books⟩ := order.executes on
  obtain ⟨low, embryo, nothing⟩ := order.birth birth
  have never : x.hold k ≠ .whole := by
    rw [nothing]
    decide
  rcases (books.stack (E := fun _ _ => True) low nothing).of_ok run with ⟨result, after⟩ | ⟨f, result, after⟩
  · obtain ⟨rfl, rfl⟩ := Prod.mk.inj result
    exact order.proceed (t := t) (b := none) low (after.stays nothing) (by simp) rfl
      ⟨fun now => (nomatch now), fun was => absurd was never⟩ (order.pids.keep low rfl fun some => absurd rfl some)
  · obtain ⟨rfl, rfl⟩ := Prod.mk.inj result
    exact order.proceed (t := t) (b := some (.stacked, i)) low after (by simp [embryo]) rfl
      ⟨fun now => (nomatch now), fun was => absurd was never⟩
      (order.pids.keep low rfl fun _ => by rw [embryo]; decide)

theorem Orderly.copy {i : Nat} {s : Machine} {done : Bool} {tab : Table} (on : x.Executes i s)
    (birth : x.birth k = some (.stacked, i)) (run : copySpace ld x.tab i k s = .ok (done, tab) t) :
    ∃ lost', Orderly ld { x with
      tab := tab, machine := t, freed := Function.update x.freed k false
      birth := Function.update x.birth k (some (if done then .copied else .refused, i)) } kdir lost' total := by
  obtain ⟨whole, _, books⟩ := order.executes on
  obtain ⟨low, embryo, stack⟩ := order.birth birth
  obtain ⟨lost', post⟩ := (books.copy on.bound whole low stack).of_ok run
  refine ⟨lost', ?_⟩
  rcases post with ⟨result, after⟩ | ⟨e, result, after⟩
  · obtain ⟨rfl, rfl⟩ := Prod.mk.inj result
    exact order.advance (t := t) (b := some (.refused, i)) low (after.stays stack) (by simp [embryo])
      (fun now => (nomatch now)) (fun _ => .inl rfl) (order.pids.keep low rfl fun _ => by rw [embryo]; decide)
  · obtain ⟨rfl, rfl⟩ := Prod.mk.inj result
    exact order.advance (t := t) (b := some (.copied, i)) low after (by simp [embryo]) (fun _ => rfl)
      (fun notWhole => absurd rfl notWhole) (order.pids.keep low rfl fun _ => by rw [embryo]; decide)

theorem Orderly.abandon {i : Nat} {s : Machine} {tab : Table} (on : x.Executes i s)
    (birth : x.birth k = some (.refused, i))
    (run : abandonSlot ld x.tab k s = .ok tab t) :
    Orderly ld { x with tab := tab, machine := t, birth := Function.update x.birth k none } kdir lost total := by
  obtain ⟨_, _, books⟩ := order.executes on
  obtain ⟨low, _, stack⟩ := order.birth birth
  have never : x.hold k ≠ .whole := by
    rw [stack]
    decide
  obtain ⟨rfl, after⟩ := (books.abandon (E := fun _ _ => True) low stack).of_ok run
  exact order.proceed (t := t) (b := none) low after
    (by simp) rfl ⟨fun now => (nomatch now), fun was => absurd was never⟩
    (order.pids.keep low rfl fun some => absurd rfl some)

theorem Orderly.fill {i : Nat} {s : Machine} {tab : Table} (on : x.Executes i s)
    (birth : x.birth k = some (.copied, i))
    (run : fillChild x.tab i k s = .ok tab t) :
    Orderly ld { x with tab := tab, machine := t, birth := Function.update x.birth k (some (.filled, i)) }
      kdir lost total := by
  obtain ⟨whole, _, books⟩ := order.executes on
  obtain ⟨low, embryo, child⟩ := order.birth birth
  obtain ⟨rfl, after⟩ := (books.fill (E := fun _ _ => True) on.bound whole low child).of_ok run
  exact order.proceed (t := t) (b := some (.filled, i)) low (after.stays child) (by simp [embryo]) rfl
    ⟨fun _ => child, fun _ => rfl⟩ (order.pids.keep low rfl fun _ => by rw [embryo]; decide)

theorem Orderly.publish {i : Nat} (birth : x.birth k = some (.filled, i)) :
    Orderly ld { x with tab := publish x.tab k, birth := Function.update x.birth k none } kdir lost total := by
  obtain ⟨low, embryo, child⟩ := order.birth birth
  have books := order.books.rewrite (k := k) (q := { x.tab.proc k with state := .runnable }) rfl rfl
  exact order.proceed (t := x.machine) (b := none) low (books.stays child)
    (by simp) rfl ⟨fun _ => child, fun _ => rfl⟩
    (order.pids.keep low rfl fun _ => by rw [embryo]; decide)

/-- Each step keeps the order; frames may get lost. -/
theorem Orderly.step (step : Step ld entries x y) : ∃ lost', Orderly ld y kdir lost' total := by
  cases step with
  | schedule before after => exact ⟨lost, order.schedule before after⟩
  | kill pid => exact ⟨lost, order.calm (t := x.machine) (kill_calm x.tab pid) (order.books.calm (kill_calm x.tab pid))⟩
  | operate on idle single run => exact order.operate on single run
  | copyout on user run =>
    obtain ⟨whole, current, books⟩ := order.executes on
    exact ⟨lost, order.calm (Calm.refl x.tab) ((books.copyout on.bound whole current user).of_ok run)⟩
  | exec on idle room run => exact ⟨lost, order.exec on room run⟩
  | claim on idle claimed => exact ⟨lost, order.claim claimed⟩
  | stack on birth run => exact ⟨lost, order.stack on birth run⟩
  | copy on birth run => exact order.copy on birth run
  | abandon on birth run => exact ⟨lost, order.abandon on birth run⟩
  | fill on birth run => exact ⟨lost, order.fill on birth run⟩
  | publish on birth => exact ⟨lost, order.publish birth⟩

end Steps

end Order

end OsLabs.Xv6
