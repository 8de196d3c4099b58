import Mathlib.Order.Lattice

namespace Slices

variable {α : Type} [LinearOrder α] {cut : Nat → α}

/-- The elements from `cut 0` on before `cut n` are those of the first `n` slices. -/
theorem mem_iff (monotone : Monotone cut) (n : Nat) (c : α) :
    (∃ k, k < n ∧ cut k ≤ c ∧ c < cut (k + 1)) ↔ cut 0 ≤ c ∧ c < cut n := by
  constructor
  · rintro ⟨k, member, lower, upper⟩
    exact ⟨(monotone (Nat.zero_le k)).trans lower, upper.trans_le (monotone member)⟩
  · rintro ⟨lower, upper⟩
    induction n with
    | zero => exact absurd upper lower.not_gt
    | succ n ih =>
      by_cases earlier : c < cut n
      · obtain ⟨k, member, inside⟩ := ih earlier
        exact ⟨k, Nat.lt_succ_of_lt member, inside⟩
      · exact ⟨n, Nat.lt_succ_self n, not_lt.mp earlier, upper⟩

/-- No element lies in two slices. -/
theorem disjoint (monotone : Monotone cut) {j k : Nat} {c : α} (apart : j ≠ k) (left : cut j ≤ c ∧ c < cut (j + 1))
    (right : cut k ≤ c ∧ c < cut (k + 1)) : False := by
  rcases Nat.lt_or_gt_of_ne apart with earlier | later
  · exact absurd (left.2.trans_le (monotone earlier)) right.1.not_gt
  · exact absurd (right.2.trans_le (monotone later)) left.1.not_gt

end Slices
