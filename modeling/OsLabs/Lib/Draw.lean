import Mathlib.Algebra.Order.BigOperators.Group.List
import Mathlib.Algebra.Order.Group.Basic

namespace Draw

variable {α : Type}

/-- The index of the first weight that takes `r` below 0. -/
def pick [AddCommGroup α] [LinearOrder α] : List α → α → Option ℕ
  | [], _ => none
  | w :: ws, r => if r - w < 0 then some 0 else (pick ws (r - w)).map (· + 1)

/-- The weights before index `i`. -/
def before [AddMonoid α] (ws : List α) (i : ℕ) : α := (ws.take i).sum

@[simp] theorem before_zero [AddMonoid α] {ws : List α} : before ws 0 = 0 := by simp [before]

@[simp] theorem before_cons [AddMonoid α] {ws : List α} {w : α} {i : ℕ} :
    before (w :: ws) (i + 1) = w + before ws i := by simp [before]

variable [AddCommGroup α] [LinearOrder α] [IsOrderedAddMonoid α] {ws : List α} {w r : α} {i : ℕ}

theorem before_le_sum (positive : ∀ w ∈ ws, 0 ≤ w) (i : ℕ) : 0 ≤ before ws i ∧ before ws i ≤ ws.sum := by
  have split : before ws i + (ws.drop i).sum = ws.sum := List.sum_take_add_sum_drop ws i
  have rest : 0 ≤ (ws.drop i).sum := List.sum_nonneg fun w member => positive w (List.mem_of_mem_drop member)
  have first : 0 ≤ before ws i := List.sum_nonneg fun w member => positive w (List.mem_of_mem_take member)
  exact ⟨first, split ▸ le_add_of_nonneg_right rest⟩

/-- An index wins on the interval of its weight. -/
theorem pick_eq_some_iff (positive : ∀ w ∈ ws, 0 ≤ w) (nonneg : 0 ≤ r) :
    pick ws r = some i ↔ i < ws.length ∧ before ws i ≤ r ∧ r < before ws (i + 1) := by
  induction ws generalizing r i with
  | nil => simp [pick]
  | cons w ws ih =>
    have later : ∀ v ∈ ws, 0 ≤ v := fun v member => positive v (List.mem_cons_of_mem _ member)
    simp only [pick, sub_lt_zero]
    split
    · rename_i wins
      cases i with
      | zero => simp [nonneg, wins]
      | succ i =>
        have beyond : r < w + before ws i := lt_of_lt_of_le wins (le_add_of_nonneg_right (before_le_sum later i).1)
        simp [beyond]
    · rename_i loses
      have rest : 0 ≤ r - w := sub_nonneg.mpr (not_lt.mp loses)
      cases i with
      | zero => simp [loses]
      | succ i => simp [ih later rest, le_sub_iff_add_le, sub_lt_iff_lt_add', add_comm w]

/-- Somebody wins with every number below the sum. -/
theorem pick_eq_none_iff (positive : ∀ w ∈ ws, 0 ≤ w) (nonneg : 0 ≤ r) : pick ws r = none ↔ ws.sum ≤ r := by
  induction ws generalizing r with
  | nil => simp [pick, nonneg]
  | cons w ws ih =>
    have later : ∀ v ∈ ws, 0 ≤ v := fun v member => positive v (List.mem_cons_of_mem _ member)
    simp only [pick, sub_lt_zero, List.sum_cons]
    split
    · rename_i wins
      have total : 0 ≤ ws.sum := List.sum_nonneg later
      simpa using lt_of_lt_of_le wins (le_add_of_nonneg_right total)
    · rename_i loses
      rw [Option.map_eq_none_iff, ih later (sub_nonneg.mpr (not_lt.mp loses)), le_sub_iff_add_le, add_comm]

/-- The weight of a winner is positive. -/
theorem pick_positive (positive : ∀ w ∈ ws, 0 ≤ w) (nonneg : 0 ≤ r) (picked : pick ws r = some i) :
    ∃ within : i < ws.length, 0 < ws[i] := by
  obtain ⟨within, lower, upper⟩ := (pick_eq_some_iff positive nonneg).mp picked
  have step : before ws (i + 1) = before ws i + ws[i] := List.sum_take_succ ws i within
  refine ⟨within, pos_of_lt_add_right (lt_of_le_of_lt lower ?_)⟩
  rwa [← step]

end Draw
