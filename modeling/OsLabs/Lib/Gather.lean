import Mathlib.Algebra.Order.Group.Multiset

namespace Gather

variable {α : Type} {f g : Nat → List α} {n k : Nat} {x : α}

/-- What the slots `0..n-1` of a table contribute, with multiplicity. -/
def gather (n : Nat) (f : Nat → List α) : Multiset α := ((List.range n).flatMap f : List α)

theorem mem_gather : x ∈ gather n f ↔ ∃ i, i < n ∧ x ∈ f i := by
  simp [gather]

theorem gather_congr (same : ∀ i, i < n → f i = g i) : gather n f = gather n g := by
  unfold gather
  rw [List.flatMap_congr fun i member => same i (List.mem_range.mp member)]

theorem gather_eq_zero (empty : ∀ i, i < n → f i = []) : gather n f = 0 := by
  rw [gather_congr (g := fun _ => []) empty]
  simp [gather]

theorem gather_succ (n : Nat) (f : Nat → List α) : gather (n + 1) f = gather n f + (f n : Multiset α) := by
  simp [gather, List.range_succ]

/-- Empty slots at the end do not matter. -/
theorem gather_prefix {m : Nat} (empty : ∀ i, n ≤ i → i < n + m → f i = []) : gather (n + m) f = gather n f := by
  induction m with
  | zero => rfl
  | succ m ih =>
    rw [← Nat.add_assoc, gather_succ, empty (n + m) (Nat.le_add_right n m) (by omega),
      ih fun i lower upper => empty i lower (by omega)]
    exact add_zero _

/-- Changing one slot exchanges its contribution. -/
theorem gather_update (inside : k < n) (same : ∀ i, i < n → i ≠ k → g i = f i) :
    gather n g + (f k : Multiset α) = gather n f + (g k : Multiset α) := by
  induction n with
  | zero => exact absurd inside (Nat.not_lt_zero k)
  | succ n ih =>
    rw [gather_succ, gather_succ]
    by_cases last : k = n
    · subst last
      rw [gather_congr fun i bound => same i (Nat.lt_succ_of_lt bound) (Nat.ne_of_lt bound), add_right_comm]
    · rw [same n (Nat.lt_succ_self n) (Ne.symm last), add_right_comm,
        ih (by omega) fun i bound => same i (Nat.lt_succ_of_lt bound), add_right_comm]

/-- The size of a gathering grows with the sizes of its slots. -/
theorem card_gather_le (shorter : ∀ i, i < n → (f i).length ≤ (g i).length) :
    Multiset.card (gather n f) ≤ Multiset.card (gather n g) := by
  induction n with
  | zero => exact le_rfl
  | succ n ih =>
    have before := ih fun i bound => shorter i (Nat.lt_succ_of_lt bound)
    have last := shorter n (Nat.lt_succ_self n)
    rw [gather_succ, gather_succ, Multiset.card_add, Multiset.card_add, Multiset.coe_card, Multiset.coe_card]
    omega

theorem card_gather_le_count (short : ∀ i, i < n → (f i).length ≤ 1) : Multiset.card (gather n f) ≤ n := by
  induction n with
  | zero => exact le_rfl
  | succ n ih =>
    have before := ih fun i bound => short i (Nat.lt_succ_of_lt bound)
    have last := short n (Nat.lt_succ_self n)
    rw [gather_succ, Multiset.card_add, Multiset.coe_card]
    omega

/-- In a gathering without duplicates two slots contribute different elements. -/
theorem gather_apart {i j : Nat} (nodup : (gather n f).Nodup) (left : i < n) (right : j < n) (different : i ≠ j)
    (member : x ∈ f i) : x ∉ f j := by
  induction n with
  | zero => exact absurd left (Nat.not_lt_zero i)
  | succ n ih =>
    rw [gather_succ, Multiset.nodup_add] at nodup
    obtain ⟨before, _, apart⟩ := nodup
    have disjoint : ∀ a, (∃ i, i < n ∧ a ∈ f i) → a ∉ f n := fun a inside also =>
      Multiset.disjoint_left.mp apart (mem_gather.mpr inside) (Multiset.mem_coe.mpr also)
    intro also
    by_cases lastLeft : i = n
    · subst lastLeft
      exact disjoint x ⟨j, by omega, also⟩ member
    · by_cases lastRight : j = n
      · subst lastRight
        exact disjoint x ⟨i, by omega, member⟩ also
      · exact ih before (by omega) (by omega) also

end Gather
