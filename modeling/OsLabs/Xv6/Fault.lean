import OsLabs.Xv6.Process
import OsLabs.Xv6.UserMap

namespace OsLabs.Xv6
open Command Gather

section Fault
variable {ld : Linker} {s : Machine} {d v : Nat} {p : Proc} {rest total : Multiset Nat} {E : Panic → Machine → Prop}

theorem switchuvm_kva (s : Machine) (stack : p.kstack ≠ 0) (directory : p.pgdir = kva d) :
    switchuvm p s = .ok () { s with cr3 := 4096 * d } := by
  unfold switchuvm
  rw [if_neg (by rw [directory, not_or]; exact ⟨stack, kva_ne_zero d⟩), directory]
  change EStateM.bind _ _ s = _
  unfold EStateM.bind
  rw [V2P_kva]
  rfl

/-- The page directory of the running process stays in use. -/
theorem switchuvm_same (stack : p.kstack ≠ 0) (directory : p.pgdir = kva d) (current : s.cr3 = 4096 * d) :
    switchuvm p s = .ok () s := by
  rw [switchuvm_kva s stack directory, ← current]

/-- The fault handler has killed the process: memory has run out, or the page
lies beyond the break, or its entry is in use. -/
structure Refused (ld : Linker) (s t : Machine) (d v sz : Nat) (rest total : Multiset Nat) : Prop where
  dir : Dir ld t d rest total
  same : ∀ u, u < 2 ^ 20 → pteAt t.mem d u = pteAt s.mem d u
  keeps : Keeps (pages s.mem d + rest) s t
  reason : t.exhausted = true ∨ sz ≤ v * 4096 ∨ pteAt s.mem d v ≠ 0

/-- The fault handler has mapped a page of zeros. -/
structure Paged (ld : Linker) (s t : Machine) (d v sz : Nat) (rest total : Multiset Nat) : Prop where
  dir : Dir ld t d rest total
  inside : v * 4096 < sz
  empty : pteAt s.mem d v = 0
  fresh : ∃ f, pteAt t.mem d v = heapEntry f ∧ ∀ w, t.mem f w = 0
  others : ∀ u, u < 2 ^ 20 → u ≠ v → pteAt t.mem d u = pteAt s.mem d u
  keeps : Keeps (pages s.mem d + rest) s t
  exhausted : t.exhausted = s.exhausted

/-- A page table made before does not matter. -/
theorem Paged.after {s t u : Machine} {sz : Nat} (paged : Paged ld t u d v sz rest total)
    (walked : Walked ld s t d v rest total) (ghost : t.exhausted = s.exhausted) (bound : v < 2 ^ 20) :
    Paged ld s u d v sz rest total := by
  have keeps := paged.keeps
  rw [pages_congr walked.same] at keeps
  exact ⟨paged.dir, paged.inside, (walked.same v bound).symm.trans paged.empty, paged.fresh,
    fun w low other => (paged.others w low other).trans (walked.same w low), walked.keeps.trans keeps,
    paged.exhausted.trans ghost⟩

/-- The outcomes of a page fault. -/
def FaultDone (ld : Linker) (s : Machine) (d v : Nat) (p : Proc) (rest total : Multiset Nat) (q : Proc) (t : Machine) : Prop :=
  (q = { p with killed := true } ∧ Refused ld s t d v p.sz rest total) ∨
    (q = p ∧ Paged ld s t d v p.sz rest total)

/-- Reading the entry decides between an untouched page and a bad access. -/
theorem untouched_spec {t : Machine} {address pte entry : Nat} (word : load pte t = .ok entry t) :
    untouched p address pte t = .ok (decide (address < p.sz ∧ entry = 0)) t := by
  unfold untouched
  by_cases inside : address < p.sz
  · rw [if_pos inside]
    change EStateM.bind _ _ t = _
    unfold EStateM.bind
    rw [word]
    by_cases zero : entry = 0
    · subst zero
      simp [inside, pure, EStateM.pure]
    · simp [inside, zero, pure, EStateM.pure]
  · rw [if_neg inside]
    simp [inside, pure, EStateM.pure]

theorem page_before (v : Nat) : v * 4096 < (v + 1) * 4096 := by
  omega

/-- The handler does not test the result of `kalloc`: the null page ends in a panic. -/
theorem null_page {α : Type} {f : Nat → Kernel α} {Q : α → Machine → Prop} {t : Machine}
    (ghost : t.exhausted = true) :
    Yields (do
      memset 0 0
      let pa ← V2P 0
      f pa) t Q fun _ u => u.exhausted = true := by
  refine yields_bind (P := fun _ u => u.exhausted = true) ?_ fun _ u still => ?_
  · unfold Yields memset
    cases frameAt t 0 <;> exact ghost
  · refine yields_bind (P := fun _ _ => False) ?_ fun _ _ never => never.elim
    unfold V2P
    rw [if_pos (by decide)]
    exact yields_throw still

theorem faultPage_exhausted {t : Machine} {address : Nat} {Q : Proc → Machine → Prop}
    (stock : Stock ld t total total) :
    Yields (faultPage ld p address) t Q fun _ u => u.exhausted = true := by
  unfold faultPage
  refine yields_bind (kalloc_spec stock) fun r u post => ?_
  rcases post with ⟨rfl, _, rfl⟩ | ⟨f, _, _, more, _⟩
  · exact null_page rfl
  · obtain ⟨free, _, account⟩ := more.chain
    have count := congrArg Multiset.card account
    rw [Multiset.card_add, Multiset.card_cons] at count
    omega

theorem faultPage_spec (dir : Dir ld s d rest total) (stack : p.kstack ≠ 0) (directory : p.pgdir = kva d)
    (current : s.cr3 = 4096 * d) (user : v < userPages) (here : present (s.mem d (v / 1024)))
    (empty : pteAt s.mem d v = 0) (inside : v * 4096 < p.sz) :
    Yields (faultPage ld p (v * 4096)) s (fun q t => q = p ∧ Paged ld s t d v p.sz rest total) fun _ t =>
      t.exhausted = true := by
  unfold faultPage
  refine yields_bind (kalloc_spec dir.stock) fun r t post => ?_
  rcases post with ⟨rfl, _, rfl⟩ | ⟨f, rfl, _, stock, mem, cr3, ghost⟩
  · exact null_page rfl
  · have taken := dir.take mem cr3 ghost stock fun _ => 0
    refine yields_step (memset_zero t f) (yields_step (V2P_kva _ f) ?_)
    rw [directory]
    refine yields_bind (taken.map user (by decide) empty) fun r u post => ?_
    rcases post with ⟨rfl, _, gone, _⟩ | ⟨rfl, mapped⟩
    · exact absurd here gone
    · rw [if_neg (by decide)]
      have done := Allocated.cons user (page_before v) taken empty mapped (Allocated.none mapped.dir le_rfl)
      refine yields_step (switchuvm_same stack directory (done.keeps.cr3.trans current)) (yields_pure ⟨rfl, ?_⟩)
      have bound := lt_of_lt_of_le user userPages_le
      refine ⟨done.dir, inside, empty, done.fresh v bound le_rfl (page_before v), fun u low other => ?_, done.keeps,
        done.exhausted⟩
      refine done.entries u low fun range => other ?_
      omega

theorem untouched_reads {t : Machine} {address pte : Nat} (ghost : t.exhausted = true) :
    Yields (untouched p address pte) t (fun _ u => u = t) fun _ u => u.exhausted = true := by
  unfold untouched
  refine yields_ite (fun _ => ?_) fun _ => yields_pure rfl
  refine yields_bind (P := fun _ u => u = t) ?_ fun _ _ same => yields_pure same
  unfold Yields load
  cases frameAt t pte with
  | some f => exact rfl
  | none => exact ghost

/-- The page-fault branch of `trap` for the running process. -/
theorem trapLazy_spec {cr2 : Nat} (dir : Dir ld s d rest total) (stack : p.kstack ≠ 0) (directory : p.pgdir = kva d)
    (current : s.cr3 = 4096 * d) (low : p.sz ≤ KERNBASE) (address : cr2 < 2 ^ 32) :
    Yields (trapLazy ld p cr2) s (fun q t => FaultDone ld s d (cr2 / 4096) p rest total q t)
      fun _ t => t.exhausted = true := by
  have page : cr2 / 4096 * 4096 / 4096 = cr2 / 4096 := Nat.mul_div_cancel _ (by decide)
  have small : cr2 / 4096 * 4096 < 2 ^ 32 := lt_of_le_of_lt (Nat.div_mul_le_self cr2 4096) address
  have bound : cr2 / 4096 < 2 ^ 20 := by omega
  have spec := walkpgdir_spec (E := fun _ t => t.exhausted = true) dir small
  rw [page, ← directory] at spec
  unfold trapLazy PGROUNDDOWN
  refine yields_bind spec fun r t post => ?_
  rcases post with ⟨rfl, _, none, rfl⟩ | ⟨rfl, ghost, walked⟩
  · have refused : Refused ld s { s with exhausted := true } d (cr2 / 4096) p.sz rest total :=
      ⟨dir.exhaust, fun _ _ => rfl, Keeps.exhaust _ s, .inl rfl⟩
    have stock : Stock ld { s with exhausted := true } total total := by
      have stock := dir.exhaust.stock
      change Stock ld _ (own s.mem d + rest) total at stock
      rwa [none] at stock
    refine yields_bind (untouched_reads rfl) fun allocate u same => ?_
    subst same
    exact yields_ite (fun _ => faultPage_exhausted stock) fun _ => yields_pure (.inl ⟨rfl, refused⟩)
  · refine yields_step (untouched_spec (walked.word bound)) ?_
    by_cases untouched : cr2 / 4096 * 4096 < p.sz ∧ pteAt s.mem d (cr2 / 4096) = 0
    · obtain ⟨inside, empty⟩ := untouched
      rw [if_pos (by simp [inside, empty])]
      have user := heap_page inside low
      have done := faultPage_spec (v := cr2 / 4096) walked.dir stack directory (walked.keeps.cr3.trans current) user
        walked.here (by rw [walked.same _ bound, empty]) inside
      exact done.imp fun q u post => .inr ⟨post.1, post.2.after walked ghost bound⟩
    · rw [if_neg (by simpa using fun inside => not_and.mp untouched inside)]
      refine yields_pure (.inl ⟨rfl, walked.dir, walked.same, walked.keeps, .inr ?_⟩)
      by_cases inside : cr2 / 4096 * 4096 < p.sz
      · exact .inr (not_and.mp untouched inside)
      · exact .inl (not_lt.mp inside)

/-- A page fault beyond the break kills the process whatever happens to memory. -/
theorem trapLazy_beyond {cr2 : Nat} (dir : Dir ld s d rest total) (directory : p.pgdir = kva d)
    (address : cr2 < 2 ^ 32) (beyond : p.sz ≤ cr2 / 4096 * 4096) :
    Yields (trapLazy ld p cr2) s (fun q _ => q = { p with killed := true }) E := by
  have small : cr2 / 4096 * 4096 < 2 ^ 32 := lt_of_le_of_lt (Nat.div_mul_le_self cr2 4096) address
  unfold trapLazy PGROUNDDOWN
  rw [directory]
  refine yields_bind (walkpgdir_spec dir small) fun pte t _ => ?_
  have refused : untouched p (cr2 / 4096 * 4096) pte t = .ok false t := by
    unfold untouched
    rw [if_neg (not_lt.mpr beyond)]
    rfl
  refine yields_step refused (yields_pure ?_)
  rw [← directory]

end Fault

end OsLabs.Xv6
