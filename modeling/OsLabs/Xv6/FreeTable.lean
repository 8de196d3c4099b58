import Mathlib.Data.Finset.Card
import Mathlib.Data.List.Nodup
import OsLabs.Xv6.ExecSpace

namespace OsLabs.Xv6
open Command

section Code

/-- The loop of `in_free_table`; a walk of more steps than there are addresses never ends. -/
def findRun (r : Nat) : Nat → Nat → Kernel Nat
  | 0, temp => if temp = 0 then pure 0 else throw .stuck
  | fuel + 1, temp =>
    if temp = 0 then pure 0
    else if temp = r then pure 1
    else do
      let next ← load temp
      findRun r fuel next

def inFreeTable (v : Nat) : Kernel Nat := do
  let s ← get
  findRun v (2 ^ 32) s.freelist

/-- `sys_isphysicalpagefree`; no argument is one that `argint` cannot fetch. -/
def sysIsphysicalpagefree : Option Int → Kernel Int
  | none => pure (-1)
  | some ppn => do
    let v ← P2V (ppn * 2 ^ 12 % 2 ^ 32).toNat
    let found ← inFreeTable v
    pure found

end Code

section Walks
variable {mem : Nat → Nat → Nat} {p f r fuel : Nat} {fs gs : List Nat} {ld : Linker} {s : Machine}

theorem Chain.drop (chain : Chain mem p (fs ++ f :: gs)) : Chain mem (kva f) (f :: gs) := by
  induction fs generalizing p with
  | nil => exact ⟨rfl, chain.2⟩
  | cons g fs ih => exact ih chain.2

/-- A list that ends has no frame twice. -/
theorem Chain.nodup (chain : Chain mem p fs) : fs.Nodup := by
  induction fs generalizing p with
  | nil => exact List.nodup_nil
  | cons f fs ih =>
    refine List.nodup_cons.mpr ⟨fun again => ?_, ih chain.2⟩
    obtain ⟨before, after, rfl⟩ := List.append_of_mem again
    have same : f :: (before ++ f :: after) = f :: after :=
      @Chain.unique mem (kva f) _ _ ⟨rfl, chain.2⟩ chain.2.drop
    have length := congrArg List.length same
    simp only [List.length_cons, List.length_append] at length
    omega

theorem Chain.length_le (chain : Chain mem p fs) (valid : ∀ f ∈ fs, ld.Valid f) : fs.length ≤ 2 ^ 16 := by
  rw [← List.toFinset_card_of_nodup chain.nodup, ← Finset.card_range (2 ^ 16)]
  refine Finset.card_le_card fun f member => ?_
  exact Finset.mem_range.mpr (valid f (List.mem_toFinset.mp member)).range.2

/-- The walk finds what is linked and changes nothing. -/
theorem findRun_chain (chain : Chain s.mem p fs) (enough : fs.length ≤ fuel) :
    findRun r fuel p s = .ok (if r ∈ fs.map kva then 1 else 0) s := by
  induction fs generalizing p fuel with
  | nil =>
    obtain rfl : p = 0 := chain
    cases fuel with
    | zero => rfl
    | succ fuel => rfl
  | cons f fs ih =>
    obtain ⟨rfl, tail⟩ := chain
    cases fuel with
    | zero => cases enough
    | succ fuel =>
      rw [findRun, if_neg (kva_ne_zero f)]
      by_cases here : kva f = r
      · rw [if_pos here, if_pos (by simp [here])]
        rfl
      · rw [if_neg here]
        have rest := ih tail (Nat.le_of_succ_le_succ enough)
        have elsewhere : r ∈ (f :: fs).map kva ↔ r ∈ fs.map kva := by
          rw [List.map_cons, List.mem_cons, or_iff_right (Ne.symm here)]
        change EStateM.bind (load (kva f)) _ s = _
        rw [EStateM.bind, load_page]
        simp only [rest, elsewhere]

theorem inFreeTable_chain (v : Nat) (chain : Chain s.mem s.freelist fs) (valid : ∀ f ∈ fs, ld.Valid f) :
    inFreeTable v s = .ok (if v ∈ fs.map kva then 1 else 0) s := by
  have length := chain.length_le valid
  exact findRun_chain chain (Nat.le_trans length (by decide))

end Walks

section SystemCall
variable {ld : Linker} {s : Machine} {free : List Nat} {ppn : Int}

/-- The free list holds the pages `free`, which `kfree` has accepted. -/
structure FreePages (ld : Linker) (s : Machine) (free : List Nat) : Prop where
  chain : Chain s.mem s.freelist free
  valid : ∀ f ∈ free, ld.Valid f

/-- `isphysicalpagefree` returns 1 for the frame numbers of free pages and 0 for all others. -/
def Answers (s : Machine) (free : List Nat) (ppn : Int) : Prop :=
  ∃ r t, sysIsphysicalpagefree (some ppn) s = .ok r t ∧ (r = 1 ∨ r = 0) ∧ (r = 1 ↔ ∃ f ∈ free, ppn = (f : Nat))

/-- Only the last 20 bits of the argument count. -/
theorem shifted (ppn : Int) : (ppn * 2 ^ 12 % 2 ^ 32).toNat = (ppn % 2 ^ 20).toNat * 4096 := by omega

theorem sysIsphysicalpagefree_high (high : 0x80000 < ppn % 2 ^ 20) :
    sysIsphysicalpagefree (some ppn) s = .error .p2v s := by
  have beyond : KERNBASE < (ppn * 2 ^ 12 % 2 ^ 32).toNat := by
    rw [shifted]
    simp only [KERNBASE]
    omega
  have stops : P2V (ppn * 2 ^ 12 % 2 ^ 32).toNat s = .error .p2v s := by
    unfold P2V
    rw [if_pos beyond]
    rfl
  change EStateM.bind (P2V _) _ s = _
  rw [EStateM.bind, stops]

theorem sysIsphysicalpagefree_low (pages : FreePages ld s free) (low : ppn % 2 ^ 20 ≤ 0x80000) :
    sysIsphysicalpagefree (some ppn) s = .ok (if (ppn % 2 ^ 20).toNat ∈ free then 1 else 0) s := by
  have within : ¬ KERNBASE < (ppn * 2 ^ 12 % 2 ^ 32).toNat := by
    rw [shifted]
    simp only [KERNBASE]
    omega
  have converts : P2V (ppn * 2 ^ 12 % 2 ^ 32).toNat s =
      .ok (((ppn % 2 ^ 20).toNat * 4096 + KERNBASE) % 2 ^ 32) s := by
    unfold P2V
    rw [if_neg within, shifted]
    rfl
  have listed : ((ppn % 2 ^ 20).toNat * 4096 + KERNBASE) % 2 ^ 32 ∈ free.map kva ↔ (ppn % 2 ^ 20).toNat ∈ free := by
    rw [List.mem_map]
    constructor
    · rintro ⟨f, member, same⟩
      obtain ⟨-, bound⟩ := (pages.valid f member).range
      simp only [kva, KERNBASE] at same
      obtain rfl : f = (ppn % 2 ^ 20).toNat := by omega
      exact member
    · intro member
      obtain ⟨-, bound⟩ := (pages.valid _ member).range
      exact ⟨_, member, by simp only [kva, KERNBASE]; omega⟩
  change EStateM.bind (P2V _) _ s = _
  rw [EStateM.bind, converts]
  change EStateM.bind (inFreeTable _) _ s = _
  rw [EStateM.bind, inFreeTable_chain _ pages.chain pages.valid]
  simp only [listed]
  split <;> rfl

/-- The call is right except for numbers that `P2V` does not convert, where the kernel panics, and for
numbers that the shift takes to a free page. -/
theorem answers_iff (pages : FreePages ld s free) (ppn : Int) : Answers s free ppn ↔
    ppn % 2 ^ 20 ≤ 0x80000 ∧ (0 ≤ ppn ∧ ppn < 2 ^ 20 ∨ (ppn % 2 ^ 20).toNat ∉ free) := by
  by_cases low : ppn % 2 ^ 20 ≤ 0x80000
  · have call := sysIsphysicalpagefree_low pages low
    rw [and_iff_right low]
    constructor
    · rintro ⟨r, t, returned, -, right⟩
      rw [call] at returned
      injection returned with value
      by_cases member : (ppn % 2 ^ 20).toNat ∈ free
      · obtain ⟨f, inFree, rfl⟩ := right.mp (by rw [← value, if_pos member])
        obtain ⟨-, bound⟩ := (pages.valid f inFree).range
        exact .inl (by omega)
      · exact .inr member
    · intro condition
      refine ⟨_, _, call, ?_, ?_⟩
      · split
        · exact .inl rfl
        · exact .inr rfl
      · constructor
        · intro one
          by_cases member : (ppn % 2 ^ 20).toNat ∈ free
          · rcases condition with range | away
            · exact ⟨_, member, by omega⟩
            · exact absurd member away
          · rw [if_neg member] at one
            cases one
        · rintro ⟨f, member, rfl⟩
          obtain ⟨-, bound⟩ := (pages.valid f member).range
          have same : ((f : Int) % 2 ^ 20).toNat = f := by omega
          rw [same, if_pos member]
  · constructor
    · rintro ⟨r, t, returned, -⟩
      rw [sysIsphysicalpagefree_high (by omega)] at returned
      cases returned
    · exact fun condition => absurd condition.1 low

theorem tiny_free : FreePages tinyLinker tinyMachine [517, 518] where
  chain := ⟨rfl, rfl, rfl⟩
  valid := by
    intro f member
    have few : f = 517 ∨ f = 518 := by simpa using member
    rcases few with rfl | rfl
    · exact ⟨by decide, by decide⟩
    · exact ⟨by decide, by decide⟩

theorem answers_iff_tiny : Answers tinyMachine [517, 518] 517 ↔
    (517 : Int) % 2 ^ 20 ≤ 0x80000 ∧ ((0 : Int) ≤ 517 ∧ (517 : Int) < 2 ^ 20 ∨ ((517 : Int) % 2 ^ 20).toNat ∉ [517, 518]) :=
  answers_iff tiny_free 517

/-- The frame number 0x90000 panics the kernel, and 2^20 + 517 is taken for the free frame 517. -/
theorem answers_not : FreePages tinyLinker tinyMachine [517, 518] ∧
    sysIsphysicalpagefree (some 0x90000) tinyMachine = .error .p2v tinyMachine ∧
    ¬ Answers tinyMachine [517, 518] 0x90000 ∧ ¬ Answers tinyMachine [517, 518] (2 ^ 20 + 517) := by
  have high : sysIsphysicalpagefree (some 0x90000) tinyMachine = .error .p2v tinyMachine :=
    sysIsphysicalpagefree_high (by decide)
  refine ⟨tiny_free, high, ?_, ?_⟩
  · rintro ⟨r, t, returned, -⟩
    rw [high] at returned
    cases returned
  · rintro ⟨r, t, returned, -, right⟩
    rw [sysIsphysicalpagefree_low tiny_free (by decide), if_pos (by decide)] at returned
    injection returned with one
    obtain ⟨f, member, same⟩ := right.mp one.symm
    obtain ⟨-, bound⟩ := (tiny_free.valid f member).range
    omega

end SystemCall

end OsLabs.Xv6
