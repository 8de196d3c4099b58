import Mathlib.FieldTheory.Finite.Basic

namespace Schrage

variable {m g s : ℕ}

/-- `s * g % m` from a division of the state, with no product above the modulus. -/
def next (m g s : ℕ) : ℕ :=
  let a := s % (m / g) * g
  let b := s / (m / g) * (m % g)
  if a > b then a - b else a + (m - b)

/-- The states that the generator can be in. -/
def State (m s : ℕ) : Prop := 0 < s ∧ s < m

/-- The remainder of the modulus is small enough for the decomposition. -/
structure Fits (m g : ℕ) : Prop where
  coprime : Nat.Coprime m g
  positive : 0 < g
  small : m % g ≤ m / g

section Products

theorem first_lt (fits : Fits m g) (bound : s < m) : s % (m / g) * g < m := by
  rcases Nat.eq_zero_or_pos (m / g) with zero | quotient
  · -- The decomposition is trivial when the multiplier exceeds the modulus.
    have whole := Nat.mod_add_div m g
    have rest := fits.small
    rw [zero, Nat.mul_zero] at whole
    omega
  · calc s % (m / g) * g < m / g * g := Nat.mul_lt_mul_of_pos_right (Nat.mod_lt s quotient) fits.positive
      _ ≤ m := Nat.div_mul_le_self m g

theorem second_le (fits : Fits m g) : s / (m / g) * (m % g) ≤ s :=
  calc s / (m / g) * (m % g) ≤ s / (m / g) * (m / g) := Nat.mul_le_mul_left _ fits.small
    _ ≤ s := Nat.div_mul_le_self s (m / g)

/-- The two products differ from `s * g` by a multiple of the modulus. -/
theorem product : s * g + s / (m / g) * (m % g) = s % (m / g) * g + s / (m / g) * m := by
  have state := Nat.mod_add_div s (m / g)
  have modulus := Nat.mod_add_div m g
  calc s * g + s / (m / g) * (m % g)
      = (s % (m / g) + m / g * (s / (m / g))) * g + s / (m / g) * (m % g) := by rw [state]
    _ = s % (m / g) * g + s / (m / g) * (m % g + g * (m / g)) := by ring
    _ = s % (m / g) * g + s / (m / g) * m := by rw [modulus]

/-- The products are equal only where the modulus divides the state. -/
theorem first_ne_second (fits : Fits m g) (state : State m s) : s % (m / g) * g ≠ s / (m / g) * (m % g) := by
  intro equal
  have product := product (m := m) (g := g) (s := s)
  have multiple : m ∣ s * g := ⟨s / (m / g), by rw [Nat.mul_comm m]; omega⟩
  have divides : m ∣ s := fits.coprime.dvd_of_dvd_mul_right multiple
  exact absurd (Nat.le_of_dvd state.1 divides) (Nat.not_le.mpr state.2)

end Products

section Generator

theorem next_eq (fits : Fits m g) (state : State m s) : next m g s = s * g % m := by
  have product := product (m := m) (g := g) (s := s)
  have first := first_lt fits state.2
  have second := Nat.lt_of_le_of_lt (second_le (g := g) (s := s) fits) state.2
  have different := first_ne_second fits state
  unfold next
  generalize s % (m / g) * g = a at *
  generalize s / (m / g) * (m % g) = b at *
  generalize s / (m / g) = c at *
  dsimp only
  split
  · rename_i above
    have total : s * g = a - b + c * m := by omega
    rw [total, Nat.add_mul_mod_self_right, Nat.mod_eq_of_lt (by omega)]
  · have total : s * g + m = a + (m - b) + c * m := by omega
    rw [← Nat.add_mod_right, total, Nat.add_mul_mod_self_right, Nat.mod_eq_of_lt (by omega)]

theorem next_state (fits : Fits m g) (state : State m s) : State m (next m g s) := by
  rw [next_eq fits state]
  refine ⟨Nat.pos_of_ne_zero fun zero => ?_, Nat.mod_lt _ (by have := state.2; omega)⟩
  have divides : m ∣ s := fits.coprime.dvd_of_dvd_mul_right (Nat.dvd_of_mod_eq_zero zero)
  exact absurd (Nat.le_of_dvd state.1 divides) (Nat.not_le.mpr state.2)

/-- From seed 1 the states are the powers of the multiplier. -/
theorem iterate_one (fits : Fits m g) (large : 1 < m) (k : ℕ) :
    (next m g)^[k] 1 = g ^ k % m ∧ State m ((next m g)^[k] 1) := by
  induction k with
  | zero => exact ⟨by simp [Nat.mod_eq_of_lt large], Nat.one_pos, large⟩
  | succ k ih =>
    obtain ⟨power, state⟩ := ih
    rw [Function.iterate_succ_apply']
    refine ⟨?_, next_state fits state⟩
    rw [next_eq fits state, power, Nat.mod_mul_mod, pow_succ]

/-- From every state of its orbit the generator comes back to 1. -/
theorem returns_one (fits : Fits m g) (large : 1 < m) (k : ℕ) :
    ∃ j, (next m g)^[j + 1] ((next m g)^[k] 1) = 1 := by
  have period : 0 < Nat.totient m := Nat.totient_pos.mpr (by omega)
  have later : k + 1 ≤ (k + 1) * Nat.totient m := Nat.le_mul_of_pos_right _ period
  refine ⟨(k + 1) * Nat.totient m - (k + 1), ?_⟩
  have steps : (k + 1) * Nat.totient m - (k + 1) + 1 + k = Nat.totient m * (k + 1) := by
    rw [Nat.mul_comm (Nat.totient m)]
    omega
  have unit : g ^ Nat.totient m ≡ 1 [MOD m] := Nat.ModEq.pow_totient fits.coprime.symm
  have power : g ^ (Nat.totient m * (k + 1)) ≡ 1 [MOD m] := by
    have raised := unit.pow (k + 1)
    rwa [one_pow, ← pow_mul] at raised
  rw [← Function.iterate_add_apply, steps, (iterate_one fits large _).1, power, Nat.mod_eq_of_lt large]

/-- Every state is the next of one: the generator permutes its states. -/
theorem exists_next (fits : Fits m g) (state : State m s) : ∃ t, State m t ∧ next m g t = s := by
  have large : 1 < m := by have := state.1; have := state.2; omega
  have period : 0 < Nat.totient m := Nat.totient_pos.mpr (by omega)
  let t := s * g ^ (Nat.totient m - 1) % m
  have product : t * g ≡ s [MOD m] :=
    calc t * g ≡ s * g ^ (Nat.totient m - 1) * g [MOD m] := (Nat.mod_modEq _ _).mul_right g
      _ = s * g ^ Nat.totient m := by rw [Nat.mul_assoc, ← pow_succ, Nat.sub_add_cancel period]
      _ ≡ s * 1 [MOD m] := (Nat.ModEq.pow_totient fits.coprime.symm).mul_left s
      _ = s := Nat.mul_one s
  have back : t * g % m = s := Eq.trans product (Nat.mod_eq_of_lt state.2)
  have member : State m t := by
    refine ⟨Nat.pos_of_ne_zero fun zero => ?_, Nat.mod_lt _ (by omega)⟩
    rw [zero, Nat.zero_mul, Nat.zero_mod] at back
    exact absurd back (Nat.ne_of_lt state.1)
  exact ⟨t, member, (next_eq fits member).trans back⟩

end Generator

end Schrage
