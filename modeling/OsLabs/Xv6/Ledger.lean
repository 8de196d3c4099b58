import Mathlib.Algebra.BigOperators.Group.Finset.Basic
import OsLabs.Xv6.CopyUvm
import OsLabs.Xv6.Fault
import OsLabs.Xv6.ProcTable
import OsLabs.Xv6.UserSpace

namespace OsLabs.Xv6
open Command Gather

/-- The frames of a process' page directory and of its kernel stack. -/
def Proc.dir (p : Proc) : Nat := (p.pgdir - KERNBASE) / 4096
def Proc.stackFrame (p : Proc) : Nat := (p.kstack - KERNBASE) / 4096

/-- The frames a slot of the process table accounts for. -/
def holds (m : Nat → Nat → Nat) (p : Proc) : Multiset Nat :=
  if p.state = .unused then 0 else p.stackFrame ::ₘ own m p.dir

/-- A slot in use names frames as the kernel does, and its break is in user space. -/
structure InSlot (m : Nat → Nat → Nat) (p : Proc) : Prop where
  directory : p.pgdir = kva p.dir
  stack : p.kstack = kva p.stackFrame
  space : Space m p.dir
  low : p.sz ≤ KERNBASE
  kernel : ∀ v, v < 2 ^ 20 → userPages ≤ v → ¬ userBit (pteAt m p.dir v)

theorem InSlot.stack_ne_zero {m : Nat → Nat → Nat} {p : Proc} (slot : InSlot m p) : p.kstack ≠ 0 := by
  rw [slot.stack]
  exact kva_ne_zero _

/-- The frames held besides those of slot `i`; `kdir` is the kernel's own page directory. -/
def others (m : Nat → Nat → Nat) (tab : Table) (kdir i : Nat) : Multiset Nat :=
  own m kdir + ((Finset.range NPROC).erase i).sum fun j => holds m (tab.proc j)

/-- All frames that are held. -/
def owned (m : Nat → Nat → Nat) (tab : Table) (kdir : Nat) : Multiset Nat :=
  own m kdir + (Finset.range NPROC).sum fun j => holds m (tab.proc j)

/-- Every frame handed to the allocator is on the free list once or held once. -/
structure Ledger (ld : Linker) (tab : Table) (s : Machine) (kdir : Nat) (total : Multiset Nat) : Prop where
  stock : Stock ld s (owned s.mem tab kdir) total
  slots : ∀ j, j < NPROC → (tab.proc j).state ≠ .unused → InSlot s.mem (tab.proc j)
  kernel : tab.kpgdir = kva kdir

section Frames
variable {m m' : Nat → Nat → Nat} {tab : Table} {kdir i : Nat}

theorem owned_split (bound : i < NPROC) : owned m tab kdir = holds m (tab.proc i) + others m tab kdir i := by
  unfold owned others
  rw [← Finset.add_sum_erase _ _ (Finset.mem_range.mpr bound), add_left_comm]

theorem mem_others {f : Nat} : f ∈ others m tab kdir i ↔
    f ∈ own m kdir ∨ ∃ j, j ≠ i ∧ j < NPROC ∧ f ∈ holds m (tab.proc j) := by
  unfold others
  rw [Multiset.mem_add, Multiset.mem_sum]
  simp only [Finset.mem_erase, Finset.mem_range, and_assoc]

theorem holds_used {p : Proc} (used : p.state ≠ .unused) : holds m p = p.stackFrame ::ₘ own m p.dir := if_neg used

theorem holds_unused {p : Proc} (unused : p.state = .unused) : holds m p = 0 := if_pos unused

/-- A slot accounts for the same frames while its directory and tables are left alone. -/
theorem holds_congr {p : Proc} (same : ∀ f ∈ holds m p, m' f = m f) : holds m' p = holds m p := by
  by_cases unused : p.state = .unused
  · rw [holds_unused unused, holds_unused unused]
  · rw [holds_used unused] at same ⊢
    rw [holds_used unused, own_congr (same _ (Multiset.mem_cons_of_mem (mem_own.mpr (.inl rfl)))) fun f member =>
      same f (Multiset.mem_cons_of_mem (mem_own.mpr (.inr (.inl member))))]

theorem others_congr (same : ∀ f ∈ others m tab kdir i, m' f = m f) : others m' tab kdir i = others m tab kdir i := by
  unfold others
  rw [own_congr (same kdir (mem_others.mpr (.inl (mem_own.mpr (.inl rfl))))) fun f member =>
    same f (mem_others.mpr (.inl (mem_own.mpr (.inr (.inl member)))))]
  refine congrArg (own m kdir + ·) (Finset.sum_congr rfl fun j member => holds_congr fun f inside => ?_)
  obtain ⟨other, bound⟩ := Finset.mem_erase.mp member
  exact same f (mem_others.mpr (.inr ⟨j, other, Finset.mem_range.mp bound, inside⟩))

theorem others_set (p : Proc) : others m (tab.set i p) kdir i = others m tab kdir i := by
  unfold others
  refine congrArg (own m kdir + ·) (Finset.sum_congr rfl fun j member => ?_)
  rw [tab.set_other p (Finset.mem_erase.mp member).1]

theorem InSlot.congr {p : Proc} (slot : InSlot m p) (directory : m' p.dir = m p.dir)
    (table : ∀ f ∈ tables m p.dir, m' f = m f) : InSlot m' p :=
  ⟨slot.directory, slot.stack, slot.space.congr directory table, slot.low, fun v bound high => by
    rw [pteAt_congr bound directory table]
    exact slot.kernel v bound high⟩

theorem kva_frame (f : Nat) : (kva f - KERNBASE) / 4096 = f := by
  simp only [kva, KERNBASE]
  omega

end Frames

section Ledgers
variable {ld : Linker} {tab : Table} {s t : Machine} {kdir i : Nat} {total : Multiset Nat}
    {E : Panic → Machine → Prop}

/-- One slot is replaced while all other frames are left alone. -/
theorem Ledger.replace (ledger : Ledger ld tab s kdir total) (bound : i < NPROC) {q : Proc}
    (stock : Stock ld t (holds t.mem q + others s.mem tab kdir i) total) (keeps : Keeps (others s.mem tab kdir i) s t)
    (slot : q.state ≠ .unused → InSlot t.mem q) : Ledger ld (tab.set i q) t kdir total := by
  have same : others t.mem tab kdir i = others s.mem tab kdir i := others_congr keeps.mem
  have here : (tab.set i q).proc i = q := tab.set_self i q
  refine ⟨?_, fun j low used => ?_, ledger.kernel⟩
  · rw [owned_split bound, here, others_set, same]
    exact stock
  · by_cases self : j = i
    · subst self
      rw [here] at used ⊢
      exact slot used
    · have there : (tab.set i q).proc j = tab.proc j := tab.set_other q self
      rw [there] at used ⊢
      have member : ∀ f ∈ own s.mem (tab.proc j).dir, f ∈ others s.mem tab kdir i := fun f inside =>
        mem_others.mpr (.inr ⟨j, self, low, by rw [holds_used used]; exact Multiset.mem_cons_of_mem inside⟩)
      exact (ledger.slots j low used).congr (keeps.mem _ (member _ (mem_own.mpr (.inl rfl)))) fun f table =>
        keeps.mem f (member f (mem_own.mpr (.inr (.inl table))))

/-- The address space of a slot in use, beside everything else. -/
theorem Ledger.focus (ledger : Ledger ld tab s kdir total) (bound : i < NPROC) (used : (tab.proc i).state ≠ .unused) :
    Dir ld s (tab.proc i).dir ((tab.proc i).stackFrame ::ₘ others s.mem tab kdir i) total := by
  refine ⟨?_, (ledger.slots i bound used).space⟩
  have stock := ledger.stock
  rw [owned_split bound, holds_used used, Multiset.cons_add] at stock
  rwa [Multiset.add_cons]

/-- A slot whose address space has changed. -/
theorem Ledger.refocus (ledger : Ledger ld tab s kdir total) (bound : i < NPROC) (used : (tab.proc i).state ≠ .unused)
    {q : Proc} (dir : Dir ld t (tab.proc i).dir ((tab.proc i).stackFrame ::ₘ others s.mem tab kdir i) total)
    (keeps : Keeps (others s.mem tab kdir i) s t) (pgdir : q.pgdir = (tab.proc i).pgdir)
    (kstack : q.kstack = (tab.proc i).kstack)
    (usedAfter : q.state ≠ .unused) (low : q.sz ≤ KERNBASE)
    (kernel : ∀ v, v < 2 ^ 20 → userPages ≤ v → pteAt t.mem (tab.proc i).dir v = pteAt s.mem (tab.proc i).dir v) :
    Ledger ld (tab.set i q) t kdir total := by
  have slot := ledger.slots i bound used
  have sameDir : q.dir = (tab.proc i).dir := by rw [Proc.dir, pgdir, Proc.dir]
  have sameStack : q.stackFrame = (tab.proc i).stackFrame := by rw [Proc.stackFrame, kstack, Proc.stackFrame]
  refine ledger.replace bound ?_ keeps fun _ => ⟨?_, ?_, ?_, low, fun v small high => ?_⟩
  · have stock := dir.stock
    rw [Multiset.add_cons] at stock
    rwa [holds_used usedAfter, sameDir, sameStack, Multiset.cons_add]
  · rw [sameDir, pgdir, ← slot.directory]
  · rw [sameStack, kstack, ← slot.stack]
  · rw [sameDir]
    exact dir.space
  · rw [sameDir, kernel v small high]
    exact slot.kernel v small high

theorem Ledger.renumber (ledger : Ledger ld tab s kdir total) (n : Nat) :
    Ledger ld { tab with nextpid := n } s kdir total := ⟨ledger.stock, ledger.slots, ledger.kernel⟩

/-- The table `tab'` differs from `tab` in nothing that matters to the frames. -/
structure SameFrames (tab tab' : Table) : Prop where
  unused : ∀ j, (tab'.proc j).state = .unused ↔ (tab.proc j).state = .unused
  pgdir : ∀ j, (tab'.proc j).pgdir = (tab.proc j).pgdir
  kstack : ∀ j, (tab'.proc j).kstack = (tab.proc j).kstack
  sz : ∀ j, (tab'.proc j).sz = (tab.proc j).sz
  kernel : tab'.kpgdir = tab.kpgdir

theorem SameFrames.refl (tab : Table) : SameFrames tab tab :=
  ⟨fun _ => Iff.rfl, fun _ => rfl, fun _ => rfl, fun _ => rfl, rfl⟩

theorem SameFrames.trans {tab' tab'' : Table} (first : SameFrames tab tab') (second : SameFrames tab' tab'') :
    SameFrames tab tab'' :=
  ⟨fun j => (second.unused j).trans (first.unused j), fun j => (second.pgdir j).trans (first.pgdir j),
    fun j => (second.kstack j).trans (first.kstack j), fun j => (second.sz j).trans (first.sz j),
    second.kernel.trans first.kernel⟩

/-- A process that stays in use may change all its other fields. -/
theorem sameFrames_set {q : Proc} (before : (tab.proc i).state ≠ .unused) (after : q.state ≠ .unused)
    (pgdir : q.pgdir = (tab.proc i).pgdir) (kstack : q.kstack = (tab.proc i).kstack) (sz : q.sz = (tab.proc i).sz) :
    SameFrames tab (tab.set i q) := by
  refine ⟨fun j => iff_of_eq ?_, tab.set_kept Proc.pgdir pgdir, tab.set_kept Proc.kstack kstack,
    tab.set_kept Proc.sz sz, rfl⟩
  exact tab.set_kept (fun p => p.state = .unused) (by rw [eq_false before, eq_false after]) j

theorem SameFrames.holds {tab' : Table} (same : SameFrames tab tab') (m : Nat → Nat → Nat) (j : Nat) :
    holds m (tab'.proc j) = holds m (tab.proc j) := by
  unfold Xv6.holds Proc.dir Proc.stackFrame
  rw [same.pgdir, same.kstack]
  exact if_congr (same.unused j) rfl rfl

theorem SameFrames.owned {tab' : Table} (same : SameFrames tab tab') (m : Nat → Nat → Nat) (kdir : Nat) :
    owned m tab' kdir = owned m tab kdir :=
  congrArg (own m kdir + ·) (Finset.sum_congr rfl fun j _ => same.holds m j)

theorem Ledger.relabel {tab' : Table} (ledger : Ledger ld tab s kdir total) (same : SameFrames tab tab') :
    Ledger ld tab' s kdir total := by
  have dir : ∀ j, (tab'.proc j).dir = (tab.proc j).dir := fun j => by rw [Proc.dir, same.pgdir, Proc.dir]
  have stack : ∀ j, (tab'.proc j).stackFrame = (tab.proc j).stackFrame := fun j => by
    rw [Proc.stackFrame, same.kstack, Proc.stackFrame]
  refine ⟨?_, fun j bound used => ?_, same.kernel.trans ledger.kernel⟩
  · rw [same.owned]
    exact ledger.stock
  · have slot := ledger.slots j bound fun unused => used ((same.unused j).mpr unused)
    refine ⟨?_, ?_, ?_, ?_, ?_⟩
    · rw [same.pgdir, dir, ← slot.directory]
    · rw [same.kstack, stack, ← slot.stack]
    · rw [dir]
      exact slot.space
    · rw [same.sz]
      exact slot.low
    · rw [dir]
      exact slot.kernel

end Ledgers

end OsLabs.Xv6
