import OsLabs.Xv6.FreeTable

namespace OsLabs.Xv6
open Command

section Code
variable (ld : Linker)

/-- The loop of `freerange`; there are no more than 2^20 pages. -/
def freerangeLoop (vend : Nat) : Nat → Nat → Kernel Unit
  | 0, p => if (p + 4096) % 2 ^ 32 ≤ vend then throw .stuck else pure ()
  | fuel + 1, p =>
    if (p + 4096) % 2 ^ 32 ≤ vend then do
      kfree ld p
      freerangeLoop vend fuel ((p + 4096) % 2 ^ 32)
    else pure ()

/-- `freerange`, and with it `kinit1` and `kinit2`. -/
def freerange (vstart vend : Nat) : Kernel Unit :=
  if vend < vstart then throw .freerange else freerangeLoop ld vend (2 ^ 20) (PGROUNDUP vstart)

end Code

/-- The states of the allocator that has been given `pages`, with the pages that are allocated: from the
empty list at boot through any `kfree` of a new page by `freerange`, any `kalloc`, any `kfree` of an
allocated page, and any writes except to free pages. -/
inductive History (ld : Linker) : Finset Nat → Machine → Finset Nat → Prop
  | boot {s : Machine} : s.freelist = 0 → History ld ∅ s ∅
  | kinit {pages allocated : Finset Nat} {s t : Machine} {v : Nat} : History ld pages s allocated → v ∉ pages →
      kfree ld v s = .ok () t → History ld (insert v pages) t allocated
  | kalloc {pages allocated : Finset Nat} {s t : Machine} {v : Nat} : History ld pages s allocated →
      kalloc s = .ok v t → History ld pages t (if v = 0 then allocated else insert v allocated)
  | kfree {pages allocated : Finset Nat} {s t : Machine} {v : Nat} : History ld pages s allocated → v ∈ allocated →
      kfree ld v s = .ok () t → History ld pages t (allocated.erase v)
  | write {pages allocated : Finset Nat} {s t : Machine} : History ld pages s allocated → t.freelist = s.freelist →
      (∀ f, kva f ∈ pages → kva f ∉ allocated → t.mem f = s.mem f) → History ld pages t allocated

/-- The free list consists of the pages that are not allocated. -/
structure Tracked (ld : Linker) (pages : Finset Nat) (s : Machine) (allocated : Finset Nat) (free : List Nat) : Prop
    extends FreePages ld s free where
  listed : ∀ v, v ∈ free.map kva ↔ v ∈ pages ∧ v ∉ allocated
  within : allocated ⊆ pages
  accepted : ∀ v ∈ pages, ∃ f, v = kva f ∧ ld.Valid f

section Calls
variable {ld : Linker} {s t : Machine} {f v : Nat} {free : List Nat}

theorem kfree_accepts (ran : kfree ld v s = .ok () t) : ∃ f, v = kva f ∧ ld.Valid f := by
  unfold kfree at ran
  split at ran
  · cases ran
  · rename_i aligned
    obtain ⟨pa, u, converted, rest⟩ := bind_ok ran
    unfold V2P at converted
    split at converted
    · cases converted
    · rename_i kernel
      obtain ⟨rfl, rfl⟩ : v - KERNBASE = pa ∧ s = u := by
        injection converted with value state
        exact ⟨value, state⟩
      split at rest
      · cases rest
      · rename_i below
        have address : v = kva ((v - KERNBASE) / 4096) := by
          simp only [kva, KERNBASE] at *
          omega
        refine ⟨(v - KERNBASE) / 4096, address, ?_, ?_⟩
        · rw [← address]
          omega
        · simp only [KERNBASE, PHYSTOP] at *
          omega

theorem FreePages.freed (pages : FreePages ld s free) (valid : ld.Valid f) (apart : f ∉ free) :
    FreePages ld (freed s f) (f :: free) where
  chain := pages.chain.freed apart
  valid := by
    intro g member
    rcases List.mem_cons.mp member with rfl | old
    · exact valid
    · exact pages.valid g old

theorem kalloc_empty (empty : s.freelist = 0) : kalloc s = .ok 0 { s with exhausted := true } := by
  unfold kalloc
  change EStateM.bind get _ s = _
  change (if s.freelist = 0 then _ else _ : Kernel Nat) s = _
  rw [if_pos empty]
  rfl

theorem kalloc_head (head : s.freelist = kva f) : kalloc s = .ok (kva f) { s with freelist := s.mem f 0 } := by
  unfold kalloc
  change (if s.freelist = 0 then _ else _ : Kernel Nat) s = _
  rw [head, if_neg (kva_ne_zero f)]
  change EStateM.bind (load (kva f)) _ s = _
  rw [EStateM.bind, load_page]
  rfl

end Calls

section Runs
variable {ld : Linker} {pages allocated : Finset Nat} {s t : Machine} {v : Nat} {free : List Nat}

theorem Tracked.kinit (tracked : Tracked ld pages s allocated free) (fresh : v ∉ pages)
    (ran : kfree ld v s = .ok () t) : ∃ f, Tracked ld (insert v pages) t allocated (f :: free) := by
  obtain ⟨f, rfl, valid⟩ := kfree_accepts ran
  rw [kfree_frame valid] at ran
  injection ran with _ state
  subst state
  have apart : f ∉ free := fun member =>
    fresh ((tracked.listed (kva f)).mp (List.mem_map_of_mem member)).1
  refine ⟨f, tracked.toFreePages.freed valid apart, ?_, ?_, ?_⟩
  · intro w
    have old := tracked.listed w
    have outside : kva f ∉ allocated := fun member => fresh (tracked.within member)
    rw [List.map_cons, List.mem_cons, old, Finset.mem_insert]
    constructor
    · rintro (rfl | ⟨given, notTaken⟩)
      · exact ⟨.inl rfl, outside⟩
      · exact ⟨.inr given, notTaken⟩
    · rintro ⟨rfl | given, notTaken⟩
      · exact .inl rfl
      · exact .inr ⟨given, notTaken⟩
  · exact tracked.within.trans (Finset.subset_insert _ _)
  · intro w member
    rcases Finset.mem_insert.mp member with rfl | old
    · exact ⟨f, rfl, valid⟩
    · exact tracked.accepted w old

theorem Tracked.kfree (tracked : Tracked ld pages s allocated free) (member : v ∈ allocated)
    (ran : kfree ld v s = .ok () t) : ∃ f, Tracked ld pages t (allocated.erase v) (f :: free) := by
  obtain ⟨f, rfl, valid⟩ := tracked.accepted v (tracked.within member)
  rw [kfree_frame valid] at ran
  injection ran with _ state
  subst state
  have apart : f ∉ free := fun inFree => ((tracked.listed (kva f)).mp (List.mem_map_of_mem inFree)).2 member
  refine ⟨f, tracked.toFreePages.freed valid apart, ?_, (Finset.erase_subset _ _).trans tracked.within,
    tracked.accepted⟩
  intro w
  have old := tracked.listed w
  rw [List.map_cons, List.mem_cons, old, Finset.mem_erase]
  constructor
  · rintro (rfl | ⟨given, notTaken⟩)
    · exact ⟨tracked.within member, fun taken => taken.1 rfl⟩
    · exact ⟨given, fun taken => notTaken taken.2⟩
  · rintro ⟨given, notTaken⟩
    by_cases same : w = kva f
    · exact .inl same
    · exact .inr ⟨given, fun taken => notTaken ⟨same, taken⟩⟩

/-- `kalloc` takes the first free page, or returns 0 when all pages are allocated. -/
theorem Tracked.kalloc (tracked : Tracked ld pages s allocated free) :
    (free = [] ∧ kalloc s = .ok 0 { s with exhausted := true }) ∨
      ∃ f rest, free = f :: rest ∧ kalloc s = .ok (kva f) { s with freelist := s.mem f 0 } ∧
        Tracked ld pages { s with freelist := s.mem f 0 } (insert (kva f) allocated) rest := by
  cases free with
  | nil => exact .inl ⟨rfl, kalloc_empty tracked.chain⟩
  | cons f rest =>
    obtain ⟨head, tail⟩ := tracked.chain
    refine .inr ⟨f, rest, rfl, kalloc_head head,
      ⟨⟨tail, fun g member => tracked.valid g (List.mem_cons_of_mem f member)⟩,
      ?_, ?_, tracked.accepted⟩⟩
    · intro w
      have old := tracked.listed w
      have once : f ∉ rest := (List.nodup_cons.mp tracked.chain.nodup).1
      have gone : kva f ∉ rest.map kva := by
        intro again
        obtain ⟨g, member, same⟩ := List.mem_map.mp again
        exact once (kva_injective same ▸ member)
      rw [List.map_cons, List.mem_cons] at old
      rw [Finset.mem_insert, not_or, ← and_assoc, and_right_comm, ← old]
      constructor
      · exact fun member => ⟨.inr member, fun same => gone (same ▸ member)⟩
      · rintro ⟨rfl | member, different⟩
        · exact absurd rfl different
        · exact member
    · intro w member
      rcases Finset.mem_insert.mp member with rfl | old
      · exact ((tracked.listed (kva f)).mp (List.mem_map_of_mem List.mem_cons_self)).1
      · exact tracked.within old

theorem Tracked.write (tracked : Tracked ld pages s allocated free) (head : t.freelist = s.freelist)
    (same : ∀ f, kva f ∈ pages → kva f ∉ allocated → t.mem f = s.mem f) : Tracked ld pages t allocated free := by
  refine ⟨⟨?_, tracked.valid⟩, tracked.listed, tracked.within, tracked.accepted⟩
  rw [head]
  refine tracked.chain.congr fun f member => ?_
  obtain ⟨given, notTaken⟩ := (tracked.listed (kva f)).mp (List.mem_map_of_mem member)
  exact same f given notTaken

theorem History.tracked (history : History ld pages s allocated) : ∃ free, Tracked ld pages s allocated free := by
  induction history with
  | boot empty =>
    refine ⟨[], ⟨empty, fun _ member => by cases member⟩, fun v => ?_, Finset.Subset.refl _, fun v member => ?_⟩
    · simp
    · cases member
  | kinit before fresh ran ih =>
    obtain ⟨free, tracked⟩ := ih
    obtain ⟨f, later⟩ := tracked.kinit fresh ran
    exact ⟨f :: free, later⟩
  | kfree before member ran ih =>
    obtain ⟨free, tracked⟩ := ih
    obtain ⟨f, later⟩ := tracked.kfree member ran
    exact ⟨f :: free, later⟩
  | write before head same ih =>
    obtain ⟨free, tracked⟩ := ih
    exact ⟨free, tracked.write head same⟩
  | kalloc before ran ih =>
    obtain ⟨free, tracked⟩ := ih
    rcases tracked.kalloc with ⟨-, empty⟩ | ⟨f, rest, -, taken, later⟩
    · rw [empty] at ran
      injection ran with value state
      subst value state
      exact ⟨free, tracked.write rfl fun _ _ _ => rfl⟩
    · rw [taken] at ran
      injection ran with value state
      subst value state
      exact ⟨rest, by rwa [if_neg (kva_ne_zero f)]⟩

end Runs

section Ranges
variable {ld : Linker} {pages allocated : Finset Nat} {s t : Machine} {p vstart vend fuel : Nat}

theorem History.union_none {P : Nat → Prop} (history : History ld pages s allocated) (none : ∀ v, ¬ P v) :
    ∃ more : Finset Nat, (∀ v, v ∈ more ↔ P v) ∧ History ld (pages ∪ more) s allocated :=
  ⟨∅, fun v => iff_of_false (Finset.notMem_empty v) (none v), by rwa [Finset.union_empty]⟩

theorem freerangeLoop_history (history : History ld pages s allocated) (aligned : p % 4096 = 0) (bound : p < 2 ^ 32)
    (fresh : ∀ v ∈ pages, v < p ∨ vend < v + 4096) (ran : freerangeLoop ld vend fuel p s = .ok () t) :
    ∃ more : Finset Nat, (∀ v, v ∈ more ↔ v % 4096 = 0 ∧ p ≤ v ∧ v + 4096 ≤ vend) ∧
      History ld (pages ∪ more) t allocated := by
  induction fuel generalizing p s pages with
  | zero =>
    unfold freerangeLoop at ran
    split at ran
    · cases ran
    · rename_i past
      injection ran with _ state
      exact state ▸ history.union_none fun v => by omega
  | succ fuel ih =>
    unfold freerangeLoop at ran
    split at ran
    · obtain ⟨_, u, given, rest⟩ := bind_ok ran
      obtain ⟨f, address, valid⟩ := kfree_accepts given
      obtain ⟨-, small⟩ := valid.range
      have next : (p + 4096) % 2 ^ 32 = p + 4096 := by
        simp only [kva, KERNBASE] at address
        omega
      rw [next] at rest
      by_cases room : p + 4096 ≤ vend
      · have new : p ∉ pages := fun member => by
          rcases fresh p member with below | above
          · omega
          · omega
        have later : ∀ v ∈ insert p pages, v < p + 4096 ∨ vend < v + 4096 := by
          intro v member
          rcases Finset.mem_insert.mp member with rfl | old
          · omega
          · rcases fresh v old with below | above
            · omega
            · exact .inr above
        obtain ⟨more, listed, whole⟩ := ih (history.kinit new given) (by omega) (by omega) later rest
        refine ⟨insert p more, fun v => ?_, ?_⟩
        · rw [Finset.mem_insert, listed]
          omega
        · rwa [Finset.union_insert, ← Finset.insert_union]
      · omega
    · rename_i past
      injection ran with _ state
      exact state ▸ history.union_none fun v => by omega

/-- `freerange` gives the allocator the pages that lie in the range, as steps of the history. -/
theorem freerange_history (history : History ld pages s allocated) (bound : vstart + 4096 ≤ 2 ^ 32)
    (fresh : ∀ v ∈ pages, v < vstart ∨ vend < v + 4096) (ran : freerange ld vstart vend s = .ok () t) :
    ∃ more : Finset Nat, (∀ v, v ∈ more ↔ v % 4096 = 0 ∧ vstart ≤ v ∧ v + 4096 ≤ vend) ∧
      History ld (pages ∪ more) t allocated := by
  unfold freerange at ran
  split at ran
  · cases ran
  · have start : PGROUNDUP vstart = (vstart + 4095) / 4096 * 4096 := by unfold PGROUNDUP; omega
    obtain ⟨more, listed, whole⟩ := freerangeLoop_history history (by omega) (by omega)
      (fun v member => (fresh v member).imp (by omega) id) ran
    refine ⟨more, fun v => (listed v).trans ?_, whole⟩
    omega

end Ranges

section Agreement
variable {ld : Linker} {pages allocated : Finset Nat} {s : Machine}

/-- What the allocator promises in a state of its history. -/
structure Agrees (ld : Linker) (pages : Finset Nat) (s : Machine) (allocated : Finset Nat) : Prop where
  acyclic : ∃ free : List Nat, Chain s.mem s.freelist free ∧ free.Nodup
  fresh : ∃ v t, kalloc s = .ok v t ∧ v ∉ allocated ∧ (v ≠ 0 → v ∈ pages)
  frees : ∀ v ∈ allocated, ∃ t, kfree ld v s = .ok () t
  table : ∀ v, inFreeTable v s = .ok (if v ∈ pages ∧ v ∉ allocated then 1 else 0) s

theorem Tracked.agrees {free : List Nat} (tracked : Tracked ld pages s allocated free) :
    Agrees ld pages s allocated where
  acyclic := ⟨free, tracked.chain, tracked.chain.nodup⟩
  fresh := by
    rcases tracked.kalloc with ⟨-, empty⟩ | ⟨f, rest, rfl, taken, -⟩
    · refine ⟨_, _, empty, fun zero => ?_, fun nonzero => absurd rfl nonzero⟩
      obtain ⟨f, same, -⟩ := tracked.accepted 0 (tracked.within zero)
      exact kva_ne_zero f same.symm
    · obtain ⟨given, notTaken⟩ := (tracked.listed (kva f)).mp (List.mem_map_of_mem List.mem_cons_self)
      exact ⟨_, _, taken, notTaken, fun _ => given⟩
  frees := by
    intro v member
    obtain ⟨f, rfl, valid⟩ := tracked.accepted v (tracked.within member)
    exact ⟨_, kfree_frame valid⟩
  table := by
    intro v
    rw [inFreeTable_chain v tracked.chain tracked.valid]
    simp only [tracked.listed]

/-- After every history the free list is exactly what is not allocated, and `in_free_table` says so. -/
theorem history_agrees (history : History ld pages s allocated) : Agrees ld pages s allocated := by
  obtain ⟨free, tracked⟩ := history.tracked
  exact tracked.agrees

/-- The frames 517, 518 and 519 are given to the allocator. -/
def threePages : Machine := freed (freed (freed ⟨fun _ _ => 0, 0, 0, false⟩ 517) 518) 519

/-- The frames 519 and 518 are allocated, and the first word of 519 is written. -/
def twoAllocated : Machine := { threePages with freelist := threePages.mem 518 0 }.write 519 0 7

theorem history_threePages : History tinyLinker {kva 519, kva 518, kva 517} threePages ∅ := by
  have first : tinyLinker.Valid 517 := ⟨by decide, by decide⟩
  have second : tinyLinker.Valid 518 := ⟨by decide, by decide⟩
  have third : tinyLinker.Valid 519 := ⟨by decide, by decide⟩
  have start : History tinyLinker ∅ ⟨fun _ _ => 0, 0, 0, false⟩ ∅ := .boot rfl
  exact ((start.kinit (by decide) (kfree_frame first)).kinit (by decide) (kfree_frame second)).kinit (by decide)
    (kfree_frame third)

theorem history_twoAllocated :
    History tinyLinker {kva 519, kva 518, kva 517} twoAllocated {kva 518, kva 519} := by
  have taken : History tinyLinker {kva 519, kva 518, kva 517}
      { threePages with freelist := threePages.mem 518 0 } {kva 518, kva 519} :=
    (history_threePages.kalloc (kalloc_head rfl)).kalloc (kalloc_head rfl)
  refine taken.write rfl fun f given free => write_other _ _ _ _ ?_
  rintro rfl
  exact free (by decide)

/-- Of three pages two are allocated, one of these is written, and the other is freed again. -/
theorem history_agrees_three : Agrees tinyLinker {kva 519, kva 518, kva 517} (freed twoAllocated 518) {kva 519} := by
  have valid : tinyLinker.Valid 518 := ⟨by decide, by decide⟩
  have later := history_twoAllocated.kfree (by decide) (kfree_frame valid)
  have left : ({kva 518, kva 519} : Finset Nat).erase (kva 518) = {kva 519} := by decide
  rw [left] at later
  exact history_agrees later

end Agreement

end OsLabs.Xv6
