import Mathlib.Data.Nat.Init
import Mathlib.Logic.Function.Basic

namespace OsLabs.Life

/-- `unsigned char`; 0 is a dead cell. -/
abbrev LifeCell := UInt8

/-- The cells of a board in the order of the source: cell `(x, y)` has index `y * width + x`. -/
def LifeBoard (width height : Nat) : Type := Fin (width * height) → LifeCell

namespace LifeBoard
variable {width height : Nat}

/-- The board made by `LifeBoard(width, height)`. -/
def blank : LifeBoard width height := fun _ => 0

def «at» (b : LifeBoard width height) (x y : Nat) : LifeCell :=
  if inside : y * width + x < width * height then b ⟨y * width + x, inside⟩ else 0

/-- `at(x, y) = v` -/
def set (b : LifeBoard width height) (x y : Nat) (v : LifeCell) : LifeBoard width height :=
  fun k => if k.val = y * width + x then v else b k

end LifeBoard

section Rule
variable {width height : Nat}

/-- `live_in_window` after the first `j` cells of the window around `(x, y)`. -/
def liveInWindow (b : LifeBoard width height) (x y : Nat) : Nat → Nat
  | 0 => 0
  | j + 1 => liveInWindow b x y j + if b.at (x + j % 3 - 1) (y + j / 3 - 1) = 0 then 0 else 1

/-- What is written for a cell with `live` live cells in its window. -/
def nextCell (live : Nat) (cell : LifeCell) : LifeCell := if live = 3 ∨ live = 4 ∧ cell ≠ 0 then 1 else 0

/-- The cells that the simulators compute. -/
def Interior (width height k : Nat) : Prop :=
  k % width ≠ 0 ∧ k / width ≠ 0 ∧ k % width ≠ width - 1 ∧ k / width ≠ height - 1

instance (width height k : Nat) : Decidable (Interior width height k) := inferInstanceAs (Decidable (_ ∧ _))

/-- The new value of cell `k`. -/
def nextAt (b : LifeBoard width height) (k : Nat) : LifeCell :=
  nextCell (liveInWindow b (k % width) (k / width) 9) (b.at (k % width) (k / width))

/-- The synchronous rule on the interior cells; the edge stays as it is. -/
def lifeStep (b : LifeBoard width height) : LifeBoard width height :=
  fun k => if Interior width height k then nextAt b k else b k

def lifeSteps : Nat → LifeBoard width height → LifeBoard width height
  | 0, b => b
  | n + 1, b => lifeStep (lifeSteps n b)

end Rule

section Geometry
variable {width height : Nat}

/-- The coordinates of a cell. -/
theorem index_eq (width k : Nat) : k / width * width + k % width = k := by
  rw [Nat.mul_comm]
  exact Nat.div_add_mod k width

theorem row_lt {k : Nat} (inside : k < width * height) : k / width < height :=
  Nat.div_lt_of_lt_mul inside

/-- The window of an interior cell lies inside the board. -/
theorem window_inside {k j : Nat} (inside : k < width * height) (interior : Interior width height k)
    (window : j < 9) :
    k % width + j % 3 - 1 < width ∧ k / width + j / 3 - 1 < height := by
  obtain ⟨left, top, right, bottom⟩ := interior
  have row := row_lt inside
  have column : k % width < width := by
    refine Nat.mod_lt k (Nat.pos_of_ne_zero ?_)
    rintro rfl
    simp at inside
  generalize k % width = x at *
  generalize k / width = y at *
  omega

theorem lifeStep_edge (b : LifeBoard width height) {k : Fin (width * height)} (edge : ¬ Interior width height k) :
    lifeStep b k = b k := if_neg edge

theorem lifeSteps_edge (n : Nat) (b : LifeBoard width height) {k : Fin (width * height)}
    (edge : ¬ Interior width height k) : lifeSteps n b k = b k := by
  induction n with
  | zero => rfl
  | succ n ih => exact (lifeStep_edge _ edge).trans ih

/-- A board whose interior has been computed and whose edge is the old one is the next board. -/
theorem lifeStep_of_cells {b next : LifeBoard width height}
    (inner : ∀ k : Fin (width * height), Interior width height k → next k = nextAt b k)
    (edge : ∀ k : Fin (width * height), ¬ Interior width height k → next k = b k) : next = lifeStep b := by
  funext k
  unfold lifeStep
  by_cases interior : Interior width height k
  · rw [if_pos interior]
    exact inner k interior
  · rw [if_neg interior]
    exact edge k interior

end Geometry

end OsLabs.Life
