import Mathlib.Algebra.Order.Group.Int

namespace CheckedInt

/-- `v` is the value of an `int`. -/
def InRange (v : Int) : Prop := -2 ^ 31 ≤ v ∧ v < 2 ^ 31

instance (v : Int) : Decidable (InRange v) := inferInstanceAs (Decidable (_ ∧ _))

/-- The value of an `int` expression of C, where it is defined. -/
def checked (v : Int) : Option Int := if InRange v then some v else none

def add (a b : Int) : Option Int := checked (a + b)

def sub (a b : Int) : Option Int := checked (a - b)

def mul (a b : Int) : Option Int := checked (a * b)

def div (a b : Int) : Option Int := if b = 0 then none else checked (a.tdiv b)

/-- `a % b` is undefined where the quotient is. -/
def mod (a b : Int) : Option Int := (div a b).map fun _ => a.tmod b

variable {a b : Int}

theorem checked_eq {v : Int} (range : InRange v) : checked v = some v := if_pos range

theorem add_eq (range : InRange (a + b)) : add a b = some (a + b) := checked_eq range

theorem sub_eq (range : InRange (a - b)) : sub a b = some (a - b) := checked_eq range

theorem mul_eq (range : InRange (a * b)) : mul a b = some (a * b) := checked_eq range

theorem div_eq (nonneg : 0 ≤ a) (positive : 0 < b) (range : InRange a) : div a b = some (a / b) := by
  unfold div
  have bound : a / b ≤ a := Int.ediv_le_self b nonneg
  have lower : 0 ≤ a / b := Int.ediv_nonneg nonneg positive.le
  rw [if_neg positive.ne', Int.tdiv_eq_ediv_of_nonneg nonneg]
  unfold InRange at range
  exact checked_eq ⟨by omega, by omega⟩

theorem mod_eq (nonneg : 0 ≤ a) (positive : 0 < b) (range : InRange a) : mod a b = some (a % b) := by
  unfold mod
  rw [div_eq nonneg positive range, Option.map_some, Int.tmod_eq_emod_of_nonneg nonneg]

end CheckedInt
