import Mathlib.Algebra.Order.Ring.Nat
import Mathlib.Tactic.Ring

namespace PointerTree

/-- How many blocks `q` data blocks take up with `k` levels of pointer blocks of `w` entries above
them: on each level one pointer block for every started `w` blocks of the level below. -/
def cost (w : Nat) : Nat → Nat → Nat
  | 0, q => q
  | k + 1, q => cost w k q + (q + (w ^ (k + 1) - 1)) / w ^ (k + 1)

variable {w k : Nat}

theorem cost_zero (positive : 0 < w) (k : Nat) : cost w k 0 = 0 := by
  induction k with
  | zero => rfl
  | succ k ih =>
    have width := Nat.pow_pos (n := k + 1) positive
    rw [cost, ih, Nat.zero_add, Nat.zero_add, Nat.div_eq_of_lt (by omega)]

/-- Rounding up is additive where the first part needs no rounding. -/
theorem roundUp_add {v d : Nat} (positive : 0 < v) (whole : v ∣ d) (q : Nat) :
    (d + q + (v - 1)) / v = (d + (v - 1)) / v + (q + (v - 1)) / v := by
  obtain ⟨c, rfl⟩ := whole
  rw [Nat.add_assoc, Nat.mul_add_div positive, Nat.mul_add_div positive,
    Nat.div_eq_of_lt (Nat.sub_one_lt (Nat.pos_iff_ne_zero.mp positive)), Nat.add_zero]

/-- Behind full trees the next data blocks start new pointer blocks on every level. -/
theorem cost_add (positive : 0 < w) {d : Nat} (full : w ^ k ∣ d) (q : Nat) :
    cost w k (d + q) = cost w k d + cost w k q := by
  induction k with
  | zero => rfl
  | succ k ih =>
    rw [cost, cost, cost, ih (dvd_trans (pow_dvd_pow w (Nat.le_succ k)) full),
      roundUp_add (Nat.pow_pos positive) full]
    ring

/-- One tree suffices for as many data blocks as it has leaves. -/
theorem cost_tree {q : Nat} (some : 0 < q) (fits : q ≤ w ^ (k + 1)) : cost w (k + 1) q = 1 + cost w k q := by
  have started : (q + (w ^ (k + 1) - 1)) / w ^ (k + 1) = 1 := Nat.div_eq_of_lt_le (by omega) (by omega)
  rw [cost, started, Nat.add_comm]

/-- One tree after another: the first takes what it has leaves for. -/
theorem cost_trees (positive : 0 < w) (k q left : Nat) :
    cost w k (min q ((left + 1) * w ^ k)) = cost w k (min q (w ^ k)) + cost w k (min (q - w ^ k) (left * w ^ k)) := by
  rw [Nat.succ_mul]
  by_cases last : q ≤ w ^ k
  · rw [min_eq_left (by omega), min_eq_left last, Nat.sub_eq_zero_of_le last, Nat.zero_min, cost_zero positive,
      Nat.add_zero]
  · have whole : min q (left * w ^ k + w ^ k) = w ^ k + min (q - w ^ k) (left * w ^ k) := by omega
    rw [whole, min_eq_right (show w ^ k ≤ q by omega), cost_add positive (dvd_refl _)]

end PointerTree
