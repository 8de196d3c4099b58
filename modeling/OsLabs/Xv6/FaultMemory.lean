import OsLabs.Xv6.ExecSpace

namespace OsLabs.Xv6
open Command Gather

/-- The handler reads an entry through the null pointer it got from `walkpgdir`; the test
of the break comes first. -/
def ReadsNull (s : Machine) (p : Proc) (cr2 : Nat) : Prop :=
  PGROUNDDOWN cr2 < p.sz ∧ ∃ t, walkpgdir p.pgdir (PGROUNDDOWN cr2) true s = .ok 0 t

/-- What the page-fault branch is to do when memory runs out: it comes to its end, reads
through no null pointer, changes no mapping and no byte of a page in use, takes from the
free list at most a page table, and marks the process as killed. -/
structure Survives (ld : Linker) (s : Machine) (p : Proc) (d cr2 : Nat) (rest : Multiset Nat) : Prop where
  readsNull : ¬ ReadsNull s p cr2
  killed : ∃ t, trapLazy ld p cr2 s = .ok { p with killed := true } t ∧
    (∀ v, v < 2 ^ 20 → pteAt t.mem d v = pteAt s.mem d v) ∧ (∀ f ∈ pages s.mem d + rest, t.mem f = s.mem f) ∧
    ∀ free free', Chain s.mem s.freelist free → Chain t.mem t.freelist free' →
      ∀ f ∈ free, f ∉ free' → f ∈ tables t.mem d

section Fault
variable {ld : Linker} {s t : Machine} {d v f : Nat} {p : Proc} {rest total : Multiset Nat}
    {E : Panic → Machine → Prop}

/-- Mapping a page under an existing table allocates nothing. -/
theorem Taken.mapped {perm : Nat} {page : Nat → Nat} (taken : Taken ld s t d f page rest total) (bound : v < 2 ^ 20)
    (flags : perm < 4096) (empty : pteAt s.mem d v = 0) (here : present (s.mem d (v / 1024))) :
    Yields (mappages (kva d) (v * 4096) 4096 (4096 * f) perm) t
      (fun r u => r = 0 ∧ u.exhausted = s.exhausted) E := by
  obtain ⟨others, held⟩ : ∃ others, Dir ld t d ((charge v (mapEntry f perm) : Multiset Nat) + others) total := by
    by_cases user : v < userPages
    · exact ⟨rest, by rw [charge_user user f flags]; exact taken.dir⟩
    · exact ⟨f ::ₘ rest, by rw [charge, if_neg user, Multiset.coe_nil, Multiset.zero_add]; exact taken.dir⟩
  have gone : ¬ present (pteAt t.mem d v) := by
    rw [taken.same v bound, empty]
    decide
  refine (mappages_single_spec bound flags held gone).imp fun r u post => ?_
  rcases post with ⟨_, _, missing, _⟩ | ⟨rfl, mapped⟩
  · rw [taken.directory] at missing
    exact absurd here missing
  · exact ⟨rfl, mapped.exhausted.trans taken.exhausted⟩

/-- A handler that has a page and its table does not run out of memory. -/
theorem faultPage_memory (dir : Dir ld s d rest total) (directory : p.pgdir = kva d) (bound : v < 2 ^ 20)
    (here : present (s.mem d (v / 1024))) (empty : pteAt s.mem d v = 0) :
    Yields (faultPage ld p (v * 4096)) s (fun _ t => t.exhausted = s.exhausted) fun _ _ => True := by
  unfold faultPage
  refine yields_bind (kalloc_spec dir.stock) fun r t post => ?_
  rcases post with ⟨rfl, _, rfl⟩ | ⟨f, rfl, _, stock, mem, cr3, ghost⟩
  · exact (null_page rfl).mono (fun _ _ post => post) fun _ _ _ => trivial
  · have taken := dir.take mem cr3 ghost stock fun _ => 0
    refine yields_step (memset_zero t f) (yields_step (V2P_kva _ f) ?_)
    rw [directory]
    refine yields_bind (taken.mapped bound (by decide) empty here) fun r u post => ?_
    obtain ⟨rfl, same⟩ := post
    rw [if_neg (by decide)]
    unfold switchuvm
    rw [directory]
    refine yields_bind (P := fun _ w => w.exhausted = s.exhausted) ?_ fun _ w kept => yields_pure kept
    refine yields_ite (fun _ => yields_throw trivial) fun _ => yields_step (V2P_kva u d) (yields_ok rfl same)

/-- Below the break the handler either comes to its end with memory left, or reads
through a null pointer, or panics. -/
theorem trapLazy_below {cr2 : Nat} (dir : Dir ld s d rest total) (directory : p.pgdir = kva d)
    (address : cr2 < 2 ^ 32)
    (inside : PGROUNDDOWN cr2 < p.sz) :
    Yields (trapLazy ld p cr2) s (fun _ t => t.exhausted = s.exhausted ∨ ReadsNull s p cr2) fun _ _ => True := by
  have small : cr2 / 4096 * 4096 < 2 ^ 32 := lt_of_le_of_lt (Nat.div_mul_le_self cr2 4096) address
  have page : cr2 / 4096 * 4096 / 4096 = cr2 / 4096 := Nat.mul_div_cancel _ (by decide)
  have bound : cr2 / 4096 < 2 ^ 20 := by omega
  obtain ⟨pte, t, walk, post⟩ := (walkpgdir_spec (E := fun _ _ => False) dir small).returns
  rw [page] at post
  rw [← directory] at walk
  unfold trapLazy
  refine yields_step walk ?_
  rcases post with ⟨rfl, _, _, _⟩ | ⟨rfl, ghost, walked⟩
  · have readsNull : ReadsNull s p cr2 := ⟨inside, t, walk⟩
    exact yields_all (fun _ _ => .inr readsNull) fun _ _ => trivial
  · refine yields_step (untouched_spec (walked.word bound))
      (yields_ite (fun untouched => ?_) fun _ => yields_pure (.inl ghost))
    have empty : pteAt s.mem d (cr2 / 4096) = 0 := (of_decide_eq_true untouched).2
    have done := faultPage_memory walked.dir directory bound walked.here (by rw [walked.same _ bound, empty])
    exact done.imp fun _ u same => .inl (same.trans ghost)

/-- At or above the break the handler survives when `walkpgdir` finds no memory. -/
theorem trapLazy_above {cr2 : Nat} (dir : Dir ld s d rest total) (directory : p.pgdir = kva d)
    (address : cr2 < 2 ^ 32)
    (fresh : s.exhausted = false) (out : (final (trapLazy ld p cr2 s)).exhausted = true)
    (above : p.sz ≤ PGROUNDDOWN cr2) : Survives ld s p d cr2 rest := by
  have small : cr2 / 4096 * 4096 < 2 ^ 32 := lt_of_le_of_lt (Nat.div_mul_le_self cr2 4096) address
  refine ⟨fun reads => absurd reads.1 (not_lt.mpr above), ?_⟩
  obtain ⟨pte, t, walk, post⟩ := (walkpgdir_spec (E := fun _ _ => False) dir small).returns
  rw [← directory] at walk
  have refused : untouched p (PGROUNDDOWN cr2) pte t = .ok false t := by
    unfold untouched
    rw [if_neg (not_lt.mpr above)]
    rfl
  have run : trapLazy ld p cr2 s = .ok { p with killed := true } t := by
    have spec : Yields (trapLazy ld p cr2) s (fun q u => q = { p with killed := true } ∧ u = t) fun _ _ => False := by
      unfold trapLazy
      exact yields_step walk (yields_step refused (yields_pure ⟨rfl, rfl⟩))
    obtain ⟨q, u, run, rfl, rfl⟩ := spec.returns
    exact run
  rw [run] at out
  rcases post with ⟨_, _, _, rfl⟩ | ⟨_, ghost, _⟩
  · refine ⟨_, run, fun _ _ => rfl, fun _ _ => rfl, fun free free' before after f member gone => ?_⟩
    rw [before.unique after] at member
    exact absurd member gone
  · exact absurd (out.symm.trans (ghost.trans fresh)) (by decide)

/-- When the allocator returns 0 during a page fault, the kernel survives it exactly if the
page lies at or above the break. -/
theorem trapLazy_outOfMemory {cr2 : Nat} (dir : Dir ld s d rest total) (directory : p.pgdir = kva d)
    (address : cr2 < 2 ^ 32) (fresh : s.exhausted = false) (out : (final (trapLazy ld p cr2 s)).exhausted = true) :
    Survives ld s p d cr2 rest ↔ p.sz ≤ PGROUNDDOWN cr2 := by
  refine ⟨fun survives => ?_, trapLazy_above dir directory address fresh out⟩
  by_contra inside
  obtain ⟨readsNull, t, run, _⟩ := survives
  rcases (trapLazy_below dir directory address (not_le.mp inside)).of_ok run with same | reads
  · rw [run] at out
    exact absurd (out.symm.trans (same.trans fresh)) (by decide)
  · exact readsNull reads

end Fault

section Empty

/-- The program of one page when no frame is free. -/
def emptyMachine : Machine := { tinyMachine with freelist := 0 }

/-- The break is one page above what is mapped. -/
def grownProc : Proc := { tinyProc with sz := 4 * 4096 }

def emptyFrames : Multiset Nat := {512, 513, 514, 515, 516, 519}

theorem empty_dir : Dir tinyLinker emptyMachine 512 {519} emptyFrames := by
  refine ⟨⟨⟨[], rfl, ?_⟩, by decide, by unfold Linker.Valid; decide⟩, tiny_execSpace.order.dir.space⟩
  have held : own emptyMachine.mem 512 = {512, 513, 514, 515, 516} := tiny_own
  rw [held]
  decide

/-- A fault above the break, under a page table that does not exist. -/
theorem trapLazy_outOfMemory_empty : Survives tinyLinker emptyMachine grownProc 512 8388608 {519} ↔
    grownProc.sz ≤ PGROUNDDOWN 8388608 :=
  trapLazy_outOfMemory empty_dir rfl (by decide) rfl (by decide +kernel)

/-- The program touches its untouched heap page when no frame is free: `trap` clears page 0
of the program and panics. -/
theorem trapLazy_null_page : ¬ ∀ (ld : Linker) (s : Machine) (d cr2 : Nat) (p : Proc) (rest total : Multiset Nat),
    Dir ld s d rest total → p.pgdir = kva d → cr2 < 2 ^ 32 → s.exhausted = false →
    (final (trapLazy ld p cr2 s)).exhausted = true → Survives ld s p d cr2 rest := by
  intro promise
  obtain ⟨_, t, run, _⟩ := promise tinyLinker emptyMachine 512 12288 grownProc {519} emptyFrames empty_dir rfl
    (by decide) rfl (by decide +kernel)
  have panics : (match trapLazy tinyLinker grownProc 12288 emptyMachine with
    | .ok _ _ => true
    | .error _ _ => false) = false := by decide +kernel
  rw [run] at panics
  cases panics

end Empty

end OsLabs.Xv6
