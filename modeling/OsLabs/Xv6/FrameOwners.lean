import OsLabs.Xv6.ExecSpace
import OsLabs.Xv6.ForkWait

namespace OsLabs.Xv6
open Command Gather

/-- Operations a process can come to do, with `sbrk` keeping the break in user space. A
killed process never gets back to its program. -/
def ProcOp.Allowed (p : Proc) : ProcOp → Prop
  | .access _ a => p.killed = false ∧ a < 2 ^ 32
  | .fault cr2 => cr2 < 2 ^ 32
  | .sbrk n => p.killed = false ∧ addSigned p.sz n ≤ KERNBASE
  | .fork => p.killed = false
  | .exit => True
  | .wait => p.killed = false

section Slices
variable {ld : Linker} {entries : Entries} {tab : Table} {s t : Machine} {kdir i : Nat} {total : Multiset Nat}
  {E : Panic → Machine → Prop}

theorem Ledger.load_cr3 (ledger : Ledger ld tab s kdir total) (x : Nat) :
    Ledger ld tab { s with cr3 := x } kdir total :=
  ⟨ledger.stock.congr rfl fun _ _ => rfl, ledger.slots, ledger.kernel⟩

/-- Foreign frames are not pages of the address space. -/
theorem Dir.foreign {d f g : Nat} {rest : Multiset Nat} (dir : Dir ld s d rest total) (page : f ∈ pages s.mem d)
    (other : g ∈ rest) : g ≠ f := by
  rintro rfl
  have nodup := (Multiset.nodup_add.mp dir.stock.nodup_held).2.2
  exact Multiset.disjoint_left.mp nodup (mem_own.mpr (.inr (.inr page))) other

variable (ledger : Ledger ld tab s kdir total) (bound : i < NPROC) (used : (tab.proc i).state ≠ .unused)
include ledger bound used

/-- A process the scheduler has switched to is in order. -/
theorem Ledger.inOrder (current : s.cr3 = 4096 * (tab.proc i).dir) (alive : (tab.proc i).killed = false) :
    InOrder ld s (tab.proc i) (tab.proc i).dir ((tab.proc i).stackFrame ::ₘ others s.mem tab kdir i) total := by
  have slot := ledger.slots i bound used
  refine ⟨ledger.focus bound used, slot.directory, ?_, current, slot.low, alive, slot.kernel⟩
  rw [slot.stack]
  exact kva_ne_zero _

/-- A page fault keeps the ledger. -/
theorem Ledger.fault {q : Proc} {v : Nat} (small : v < 2 ^ 20)
    (done : FaultDone ld s (tab.proc i).dir v (tab.proc i)
      ((tab.proc i).stackFrame ::ₘ others s.mem tab kdir i) total q t) :
    Ledger ld (tab.set i q) t kdir total := by
  have slot := ledger.slots i bound used
  rcases done with ⟨rfl, refused⟩ | ⟨rfl, paged⟩
  · refine ledger.refocus bound used refused.dir (refused.keeps.subset fun g member => ?_) rfl rfl used slot.low
      fun u below _ => refused.same u below
    exact Multiset.mem_add.mpr (.inr (Multiset.mem_cons_of_mem member))
  · refine ledger.refocus bound used paged.dir (paged.keeps.subset fun g member => ?_) rfl rfl used slot.low
      fun u below high => paged.others u below ?_
    · exact Multiset.mem_add.mpr (.inr (Multiset.mem_cons_of_mem member))
    · rintro rfl
      exact absurd (heap_page paged.inside slot.low) (not_lt.mpr high)

/-- An allowed access keeps the ledger. -/
theorem Ledger.hit {a : Nat} {op : Access} {seen : Seen} (current : s.cr3 = 4096 * (tab.proc i).dir)
    (alive : (tab.proc i).killed = false) (small : a < 2 ^ 32) (hit : Hit s t (tab.proc i).dir op a seen) :
    Ledger ld tab t kdir total := by
  have order := ledger.inOrder bound used current alive
  have touched := hit.touched order small
  have page : pteAt s.mem (tab.proc i).dir (a / 4096) / 4096 ∈ pages s.mem (tab.proc i).dir :=
    mem_pages.mpr ⟨_, order.user (by omega) hit.may, hit.may.1, rfl⟩
  rw [← tab.set_proc i]
  refine ledger.refocus bound used touched.dir ⟨fun g member => touched.others g ?_, touched.cr3,
    fun was => touched.exhausted.trans was⟩ rfl rfl used order.low fun u below _ => touched.same u below
  exact order.dir.foreign page (Multiset.mem_cons_of_mem member)

theorem Ledger.access {a : Nat} (op : Access) (current : s.cr3 = 4096 * (tab.proc i).dir)
    (alive : (tab.proc i).killed = false) (small : a < 2 ^ 32) :
    Yields (userAccess (lazyPaging ld) op a 2 (tab.proc i)) s
      (fun r t => r.2.state = (tab.proc i).state ∧ Ledger ld (tab.set i r.2) t kdir total) fun _ _ => True := by
  have order := ledger.inOrder bound used current alive
  refine (lazyAccess_spec order small).mono (fun r t post => ?_) fun _ _ _ => trivial
  rcases post with ⟨same, hit⟩ | ⟨same, u, paged, hit⟩ | ⟨rfl, _, refused⟩
  · rw [same, tab.set_proc]
    exact ⟨rfl, ledger.hit bound used current alive small hit⟩
  · have between := ledger.fault bound used (by omega) (.inr ⟨rfl, paged⟩)
    rw [tab.set_proc] at between
    rw [same, tab.set_proc]
    exact ⟨rfl, between.hit bound used (paged.keeps.cr3.trans current) alive small hit⟩
  · exact ⟨rfl, ledger.fault bound used (by omega) (.inl ⟨rfl, refused⟩)⟩

theorem Ledger.trap {cr2 : Nat} (current : s.cr3 = 4096 * (tab.proc i).dir) (small : cr2 < 2 ^ 32) :
    Yields (trapLazy ld (tab.proc i) cr2) s (fun q t => Ledger ld (tab.set i q) t kdir total) fun _ _ => True := by
  have slot := ledger.slots i bound used
  exact (trapLazy_spec (ledger.focus bound used) slot.stack_ne_zero slot.directory current slot.low small).mono
    (fun q t done => ledger.fault bound used (by omega) done) fun _ _ _ => trivial

/-- What one operation keeps and gives back. -/
structure OpDone (ld : Linker) (tab tab' : Table) (s t : Machine) (kdir : Nat) (total : Multiset Nat) (op : ProcOp)
    (r : Option Int) : Prop where
  ledger : Ledger ld tab' t kdir total
  failed : op = .fork → r = some (-1) → owned t.mem tab' kdir = owned s.mem tab kdir
  reaped : op = .wait → ∀ k, k < NPROC → (tab.proc k).state ≠ .unused → (tab'.proc k).state = .unused →
    ∀ f ∈ holds s.mem (tab.proc k), f ∉ owned t.mem tab' kdir

omit ledger bound used in
/-- Returning to user mode changes nothing more. -/
theorem OpDone.leave {tab' tab'' : Table} {op : ProcOp} {r : Option Int}
    (done : OpDone ld tab tab' s t kdir total op r)
    (same : SameFrames tab' tab'') : OpDone ld tab tab'' s t kdir total op r := by
  refine ⟨done.ledger.relabel same, fun fork result => ?_, fun wait k low before after => ?_⟩
  · rw [same.owned]
    exact done.failed fork result
  · rw [same.owned]
    exact done.reaped wait k low before ((same.unused k).mp after)

omit ledger bound used in
theorem OpDone.of_ledger {tab' : Table} {op : ProcOp} {r : Option Int} (ledger : Ledger ld tab' t kdir total)
    (notFork : op ≠ .fork) (notWait : op ≠ .wait) : OpDone ld tab tab' s t kdir total op r :=
  ⟨ledger, fun fork => absurd fork notFork, fun wait => absurd wait notWait⟩

theorem runOp_spec {op : ProcOp} (current : s.cr3 = 4096 * (tab.proc i).dir) (allowed : op.Allowed (tab.proc i)) :
    Yields (runOp ld entries tab i op) s (fun r t => OpDone ld tab r.2 s t kdir total op r.1) fun _ _ => True := by
  cases op with
  | access op a =>
    refine yields_bind (ledger.access bound used op current allowed.1 allowed.2) fun r t post => ?_
    refine yields_bind leave_spec fun tab' u left => yields_pure ?_
    obtain ⟨rfl, same⟩ := left
    exact (OpDone.of_ledger post.2 (by simp) (by simp)).leave same
  | fault cr2 =>
    refine yields_bind (ledger.trap bound used current allowed) fun q t after => yields_pure ?_
    exact OpDone.of_ledger after (by simp) (by simp)
  | sbrk n =>
    have slot := ledger.slots i bound used
    refine yields_step rfl (yields_bind leave_spec fun tab' u left => yields_pure ?_)
    obtain ⟨rfl, same⟩ := left
    refine (OpDone.of_ledger ?_ (by simp) (by simp)).leave same
    exact ledger.refocus bound used (ledger.focus bound used) (Keeps.refl _ _) rfl rfl used allowed.2 fun _ _ _ => rfl
  | fork =>
    refine yields_bind (fork_spec entries ledger bound used) fun r t post => ?_
    refine yields_bind leave_spec fun tab' u left => yields_pure ?_
    obtain ⟨rfl, same⟩ := left
    have done : OpDone ld tab r.2 s u kdir total .fork (some r.1) :=
      ⟨post.1, fun _ failed => post.2 (Option.some.inj failed), by simp⟩
    exact done.leave same
  | exit =>
    refine yields_bind (exit_spec used) fun tab' t post => yields_pure ?_
    obtain ⟨rfl, same⟩ := post
    exact OpDone.of_ledger (ledger.relabel same) (by simp) (by simp)
  | wait =>
    refine yields_bind (wait_spec ledger used) fun r t post => ?_
    refine yields_bind leave_spec fun tab' u left => yields_pure ?_
    obtain ⟨rfl, same⟩ := left
    have done : OpDone ld tab r.2 s u kdir total .wait r.1 := ⟨post.1, by simp, fun _ => post.2⟩
    exact done.leave same

omit ledger bound used in
/-- Switching to the process beforehand changes nothing either. -/
theorem OpDone.after {tab₁ tab' : Table} {s₁ : Machine} {op : ProcOp} {r : Option Int} (same : SameFrames tab tab₁)
    (mem : s₁.mem = s.mem) (done : OpDone ld tab₁ tab' s₁ t kdir total op r) :
      OpDone ld tab tab' s t kdir total op r := by
  refine ⟨done.ledger, fun fork result => ?_, fun wait k low before after f member => ?_⟩
  · rw [done.failed fork result, mem, same.owned]
  · refine done.reaped wait k low (fun unused => before ((same.unused k).mp unused)) after f ?_
    rwa [mem, same.holds]

omit ledger bound used in
theorem OpDone.load_cr3 {tab' : Table} {op : ProcOp} {r : Option Int} (done : OpDone ld tab tab' s t kdir total op r)
    (x : Nat) : OpDone ld tab tab' s { t with cr3 := x } kdir total op r :=
  ⟨done.ledger.load_cr3 x, done.failed, done.reaped⟩

omit used in
/-- A time slice of a runnable process. -/
theorem timeSlice_spec {op : ProcOp} (runnable : (tab.proc i).state = .runnable) (allowed : op.Allowed (tab.proc i)) :
    Yields (timeSlice ld entries tab i op) s (fun r t => OpDone ld tab r.2 s t kdir total op r.1) fun _ _ =>
      True := by
  have used : (tab.proc i).state ≠ .unused := by
    rw [runnable]
    decide
  have slot := ledger.slots i bound used
  have same := sameFrames_set (q := { tab.proc i with state := .running }) used (by simp) rfl rfl rfl
  have switched := (ledger.load_cr3 (4096 * (tab.proc i).dir)).relabel same
  have here := tab.set_self i { tab.proc i with state := .running }
  have running : ((tab.set i { tab.proc i with state := .running }).proc i).state ≠ .unused := by
    rw [here]
    simp
  have after : op.Allowed ((tab.set i { tab.proc i with state := .running }).proc i) := by
    rw [here]
    cases op <;> exact allowed
  have current : 4096 * (tab.proc i).dir = 4096 * ((tab.set i { tab.proc i with state := .running }).proc i).dir := by
    rw [here]
    rfl
  unfold timeSlice
  refine yields_step (switchuvm_kva s slot.stack_ne_zero slot.directory) ?_
  refine yields_bind (runOp_spec switched bound running current after) fun ⟨r, tab'⟩ t done => ?_
  have kernel : tab'.kpgdir = kva kdir := done.ledger.kernel
  have mem : ({ s with cr3 := 4096 * (tab.proc i).dir } : Machine).mem = s.mem := rfl
  dsimp only
  rw [kernel]
  refine yields_step (V2P_kva t kdir) (yields_step rfl (yields_pure ?_))
  refine ((OpDone.after same mem done).load_cr3 _).leave ?_
  by_cases running : (tab'.proc i).state = .running
  · rw [if_pos running]
    exact sameFrames_set (by rw [running]; decide) (by simp) rfl rfl rfl
  · rw [if_neg running]
    exact SameFrames.refl tab'

end Slices

/-- The runs of the system, one time slice after the other, up to a panic. -/
inductive SysRuns (ld : Linker) (entries : Entries) (tab₀ : Table) (s₀ : Machine) : Table → Machine → Prop
  | start : SysRuns ld entries tab₀ s₀ tab₀ s₀
  | slice {tab tab' : Table} {s t : Machine} {i : Nat} {op : ProcOp} {r : Option Int} : SysRuns ld entries tab₀ s₀ tab s →
      i < NPROC → (tab.proc i).state = .runnable → op.Allowed (tab.proc i) →
      timeSlice ld entries tab i op s = .ok (r, tab') t → SysRuns ld entries tab₀ s₀ tab' t

section Runs
variable {ld : Linker} {entries : Entries} {tab tab₀ : Table} {s s₀ t : Machine} {kdir : Nat} {total : Multiset Nat}

theorem SysRuns.ledger (run : SysRuns ld entries tab₀ s₀ tab s) (start : Ledger ld tab₀ s₀ kdir total) :
    Ledger ld tab s kdir total := by
  induction run with
  | start => exact start
  | slice before bound runnable allowed step ih => exact ((timeSlice_spec ih bound runnable allowed).of_ok step).ledger

/-- Every frame is free once or held once: no two pages share a frame and no page is on the free list. -/
structure OneOwner (tab : Table) (s : Machine) (kdir : Nat) (total : Multiset Nat) : Prop where
  account : total.Nodup ∧
    ∃ free : List Nat, Chain s.mem s.freelist free ∧ (free : Multiset Nat) + owned s.mem tab kdir = total
  apart : ∀ i j u v, i < NPROC → j < NPROC → (tab.proc i).state ≠ .unused → (tab.proc j).state ≠ .unused →
    u < userPages → v < userPages → present (pteAt s.mem (tab.proc i).dir u) → present (pteAt s.mem (tab.proc j).dir v) →
    pteAt s.mem (tab.proc i).dir u / 4096 = pteAt s.mem (tab.proc j).dir v / 4096 → i = j ∧ u = v
  mapped : ∀ i u free, i < NPROC → (tab.proc i).state ≠ .unused → u < userPages →
    present (pteAt s.mem (tab.proc i).dir u) → Chain s.mem s.freelist free →
    pteAt s.mem (tab.proc i).dir u / 4096 ∉ free

theorem Ledger.free (ledger : Ledger ld tab s kdir total) {free : List Nat} (chain : Chain s.mem s.freelist free) :
    (free : Multiset Nat) + owned s.mem tab kdir = total := by
  obtain ⟨⟨free', chain', account⟩, _, _⟩ := ledger.stock
  rw [chain.unique chain', account]

theorem page_holds {m : Nat → Nat → Nat} {p : Proc} {u : Nat} (used : p.state ≠ .unused) (user : u < userPages)
    (here : present (pteAt m p.dir u)) : pteAt m p.dir u / 4096 ∈ holds m p := by
  rw [holds_used used]
  exact Multiset.mem_cons_of_mem (mem_own.mpr (.inr (.inr (mem_pages.mpr ⟨u, user, here, rfl⟩))))

theorem Ledger.oneOwner (ledger : Ledger ld tab s kdir total) : OneOwner tab s kdir total := by
  refine ⟨⟨ledger.stock.nodup, ledger.stock.chain⟩, fun i j u v low low' used used' user user' here here' same => ?_,
    fun i u free low used user here chain inFree => ?_⟩
  · have equal : i = j := by
      by_contra different
      have nodup := ledger.stock.nodup_held
      rw [owned_split low] at nodup
      refine Multiset.disjoint_left.mp (Multiset.nodup_add.mp nodup).2.2 (page_holds used user here) ?_
      rw [same]
      exact mem_others.mpr (.inr ⟨j, Ne.symm different, low', page_holds used' user' here'⟩)
    subst equal
    exact ⟨rfl, (ledger.focus low used).page_injective user user' here here' same⟩
  · have account := ledger.free chain
    have nodup := ledger.stock.nodup
    rw [← account] at nodup
    refine Multiset.disjoint_left.mp (Multiset.nodup_add.mp nodup).2.2 (Multiset.mem_coe.mpr inFree) ?_
    rw [owned_split low]
    exact Multiset.mem_add.mpr (.inl (page_holds used user here))

/-- In every run each frame has exactly one owner; a failed `fork` leaves the free frames as
they were, and `wait` frees all frames of the process it reaps. -/
theorem sysRuns_oneOwner (start : Ledger ld tab₀ s₀ kdir total) (run : SysRuns ld entries tab₀ s₀ tab s) :
    OneOwner tab s kdir total ∧ ∀ i op r tab' t, i < NPROC → (tab.proc i).state = .runnable →
      op.Allowed (tab.proc i) → timeSlice ld entries tab i op s = .ok (r, tab') t →
      (op = .fork → r = some (-1) → ∀ free free', Chain s.mem s.freelist free → Chain t.mem t.freelist free' →
        (free : Multiset Nat) = free') ∧
      (op = .wait → ∀ k, k < NPROC → (tab.proc k).state ≠ .unused → (tab'.proc k).state = .unused →
        ∀ free', Chain t.mem t.freelist free' → ∀ f ∈ holds s.mem (tab.proc k), f ∈ free') := by
  have ledger := run.ledger start
  refine ⟨ledger.oneOwner, fun i op r tab' t bound runnable allowed step => ?_⟩
  have done := (timeSlice_spec ledger bound runnable allowed).of_ok step
  refine ⟨fun isFork failed free free' before after => ?_, fun isWait k low used unused free' after f member => ?_⟩
  · have left := ledger.free before
    have right := done.ledger.free after
    rw [done.failed isFork failed, ← left] at right
    exact (add_right_cancel right).symm
  · have account := done.ledger.free after
    have inTotal : f ∈ total := by
      obtain ⟨⟨free, _, whole⟩, _, _⟩ := ledger.stock
      rw [← whole, owned_split low]
      exact Multiset.mem_add.mpr (.inr (Multiset.mem_add.mpr (.inl member)))
    rw [← account] at inTotal
    exact Multiset.mem_coe.mp ((Multiset.mem_add.mp inTotal).resolve_right (done.reaped isWait k low used unused f member))

end Runs

section Tiny

/-- The tiny process alone in the table; the kernel's own directory is frame 520. -/
def tinyTable : Table where
  proc := fun j => if j = 0 then { tinyProc with state := .runnable } else ⟨0, 0, 0, .unused, 0, none, false⟩
  nextpid := 2
  initproc := 0
  kpgdir := kva 520

theorem tiny_ledger : Ledger tinyLinker tinyTable tinyMachine 520 (520 ::ₘ tinyFrames) := by
  have order := tiny_execSpace.order
  have alone : ∀ j, j ≠ 0 → (tinyTable.proc j).state = .unused := fun j other => by
    unfold tinyTable
    dsimp only
    rw [if_neg other]
  have kernelOwn : own tinyMachine.mem 520 = {520} := by
    have zero : ∀ i, tinyMachine.mem 520 i = 0 := fun i => by simp [tinyMachine]
    have noTables : tables tinyMachine.mem 520 = 0 := gather_eq_zero fun i _ => by
      rw [zero]
      exact frameOf_absent (by decide)
    have noPages : pages tinyMachine.mem 520 = 0 := gather_eq_zero fun v _ => by
      rw [pteAt, zero, if_neg (by decide)]
      exact frameOf_absent (by decide)
    rw [own, noTables, noPages]
    rfl
  have held : owned tinyMachine.mem tinyTable 520 = 520 ::ₘ (519 ::ₘ own tinyMachine.mem 512) := by
    rw [owned, Finset.sum_eq_single 0 (fun j _ other => holds_unused (alone j other)) fun absent =>
      absurd (Finset.mem_range.mpr (by decide)) absent, kernelOwn, Multiset.singleton_add]
    rfl
  refine ⟨?_, fun j _ used => ?_, rfl⟩
  · obtain ⟨⟨free, chain, account⟩, _, _⟩ := order.dir.stock
    refine ⟨⟨free, chain, ?_⟩, by decide, by unfold Linker.Valid; decide⟩
    rw [add_comm _ {519}, Multiset.singleton_add] at account
    rw [held, Multiset.add_cons, account]
  · have here : j = 0 := by
      by_contra other
      exact used (alone j other)
    subst here
    exact ⟨rfl, rfl, order.dir.space, order.low, order.kernel⟩

/-- Two free frames are not enough for a `fork`, which takes and gives back both. -/
theorem sysRuns_oneOwner_tiny : ∃ tab t, timeSlice tinyLinker ⟨0, 0⟩ tinyTable 0 .fork tinyMachine = .ok (some (-1), tab) t ∧
    OneOwner tab t 520 (520 ::ₘ tinyFrames) := by
  have failed : (match timeSlice tinyLinker ⟨0, 0⟩ tinyTable 0 .fork tinyMachine with
    | .ok r _ => r.1 == some (-1)
    | .error _ _ => false) = true := by decide +kernel
  cases step : timeSlice tinyLinker ⟨0, 0⟩ tinyTable 0 .fork tinyMachine with
  | error e t =>
    rw [step] at failed
    cases failed
  | ok r t =>
    rw [step] at failed
    obtain ⟨r, tab⟩ := r
    obtain rfl : r = some (-1) := by simpa using failed
    have allowed : ProcOp.fork.Allowed (tinyTable.proc 0) := rfl
    have run : SysRuns tinyLinker ⟨0, 0⟩ tinyTable tinyMachine tab t := .slice .start (by decide) rfl allowed step
    exact ⟨tab, t, rfl, (sysRuns_oneOwner tiny_ledger run).1⟩

end Tiny

end OsLabs.Xv6
