import Mathlib.Data.Nat.ModEq
import Mathlib.Logic.Function.Basic
import Mathlib.Algebra.Order.Group.Nat

/-! A ring of `n` cells addressed by 32-bit counters that wrap around, where `n` divides `2 ^ 32`. -/

namespace WrappingRing

variable {α : Type} {n : Nat} [NeZero n] {data : Fin n → α} {first last : UInt32} {count i j : Nat}

/-- The cell of a counter. -/
def slot (n : Nat) [NeZero n] (k : UInt32) : Fin n := Fin.ofNat n k.toNat

/-- The `count` elements from the counter `first` on. -/
def window (data : Fin n → α) (first : UInt32) (count : Nat) : List α :=
  (List.range count).map fun k => data (slot n (first + UInt32.ofNat k))

/-- How far the counter `last` is ahead of `first`. -/
def used (first last : UInt32) : Nat := (last - first).toNat

@[simp] theorem window_length : (window data first count).length = count := by simp [window]

@[simp] theorem window_zero : window data first 0 = [] := rfl

theorem slot_val (divides : n ∣ 2 ^ 32) (k : Nat) :
    (slot n (first + UInt32.ofNat k)).val = (first.toNat + k) % n := by
  unfold slot
  rw [Fin.val_ofNat, UInt32.toNat_add, UInt32.toNat_ofNat', Nat.add_mod_mod, Nat.mod_mod_of_dvd _ divides]

/-- Counters less than `n` apart have different cells. -/
theorem slot_ne (divides : n ∣ 2 ^ 32) (less : i < j) (near : j < i + n) :
    slot n (first + UInt32.ofNat i) ≠ slot n (first + UInt32.ofNat j) := by
  intro same
  have values := congrArg Fin.val same
  rw [slot_val divides, slot_val divides] at values
  have apart : i ≡ j [MOD n] := Nat.ModEq.add_left_cancel' first.toNat values
  have divided := (Nat.modEq_iff_dvd' less.le).mp apart
  exact absurd (Nat.le_of_dvd (by omega) divided) (by omega)

theorem window_succ : window data first (count + 1) =
    window data first count ++ [data (slot n (first + UInt32.ofNat count))] := by
  simp [window, List.range_succ]

theorem window_pop : window data first (count + 1) = data (slot n first) :: window data (first + 1) count := by
  unfold window
  rw [List.range_succ_eq_map, List.map_cons, List.map_map]
  congr 1
  · congr 2
    exact UInt32.add_zero first
  · refine List.map_congr_left fun k _ => ?_
    simp only [Function.comp_apply, UInt32.ofNat_add, Nat.succ_eq_add_one, UInt32.add_assoc]
    rw [UInt32.add_comm (UInt32.ofNat k)]
    rfl

/-- A window is a window and the one behind it. -/
theorem window_append : window data first (i + j) =
    window data first i ++ window data (first + UInt32.ofNat i) j := by
  unfold window
  rw [List.range_add, List.map_append, List.map_map]
  congr 1
  refine List.map_congr_left fun k _ => ?_
  simp only [Function.comp_apply, UInt32.ofNat_add, UInt32.add_assoc]

/-- Storing behind the window, less than a round ahead, leaves it as it is. -/
theorem window_update (divides : n ∣ 2 ^ 32) {x : α} (behind : count ≤ i) (near : i < n) :
    window (Function.update data (slot n (first + UInt32.ofNat i)) x) first count = window data first count := by
  refine List.map_congr_left fun k inside => ?_
  have before := List.mem_range.mp inside
  exact Function.update_of_ne (slot_ne divides (by omega) (by omega)) ..

/-- Storing behind the window extends it. -/
theorem window_push (divides : n ∣ 2 ^ 32) (room : count < n) (x : α) :
    window (Function.update data (slot n (first + UInt32.ofNat count)) x) first (count + 1) =
      window data first count ++ [x] := by
  rw [window_succ, Function.update_self, window_update divides (Nat.le_refl count) room]

theorem last_eq (first last : UInt32) : last = first + UInt32.ofNat (used first last) := by
  unfold used
  rw [UInt32.ofNat_toNat, UInt32.add_comm, UInt32.sub_add_cancel]

@[simp] theorem used_self : used first first = 0 := by simp [used]

theorem used_eq_zero : used first last = 0 ↔ first = last := by
  constructor
  · intro none
    have same := last_eq first last
    rw [none] at same
    exact (same.trans (UInt32.add_zero first)).symm
  · rintro rfl
    exact used_self

theorem used_push (room : used first last + 1 < 2 ^ 32) : used first (last + 1) = used first last + 1 := by
  unfold used at room ⊢
  rw [UInt32.toNat_sub] at room
  rw [UInt32.toNat_sub, UInt32.toNat_sub, UInt32.toNat_add]
  have small := last.toNat_lt
  have small' := first.toNat_lt
  simp only [UInt32.reduceToNat]
  omega

theorem used_pop (some : first ≠ last) : used (first + 1) last + 1 = used first last := by
  have apart : first.toNat ≠ last.toNat := fun same => some (UInt32.toNat_inj.mp same)
  unfold used
  rw [UInt32.toNat_sub, UInt32.toNat_sub, UInt32.toNat_add]
  have small := last.toNat_lt
  have small' := first.toNat_lt
  simp only [UInt32.reduceToNat]
  omega

theorem used_back (some : first ≠ last) : used first (last - 1) + 1 = used first last := by
  have apart : first.toNat ≠ last.toNat := fun same => some (UInt32.toNat_inj.mp same)
  unfold used
  rw [UInt32.toNat_sub, UInt32.toNat_sub, UInt32.toNat_sub]
  have small := last.toNat_lt
  have small' := first.toNat_lt
  simp only [UInt32.reduceToNat]
  omega

theorem used_add {middle : UInt32} (room : used first middle + used middle last < 2 ^ 32) :
    used first last = used first middle + used middle last := by
  unfold used at room ⊢
  rw [UInt32.toNat_sub, UInt32.toNat_sub] at room
  rw [UInt32.toNat_sub, UInt32.toNat_sub, UInt32.toNat_sub]
  have small := last.toNat_lt
  have small' := first.toNat_lt
  have small'' := middle.toNat_lt
  omega

omit [NeZero n] in
/-- The ring is full when the counters are `n` apart. -/
theorem used_eq (small : n < 2 ^ 32) : used first last = n ↔ last = first + UInt32.ofNat n := by
  constructor
  · intro full
    rw [← full]
    exact last_eq first last
  · rintro rfl
    unfold used
    rw [UInt32.add_comm, UInt32.add_sub_cancel, UInt32.toNat_ofNat_of_lt' small]

end WrappingRing
