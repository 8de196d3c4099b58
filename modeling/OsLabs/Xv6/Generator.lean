import OsLabs.Lib.Schrage
import OsLabs.Xv6.Tickets

namespace OsLabs.Xv6.Lottery

section Code

/-- `const unsigned N = 0x7fffffff` -/
def modulus : UInt32 := 0x7fffffff

/-- `const unsigned G = 48271u` -/
def multiplier : UInt32 := 48271

/-- `unsigned a = rem * G` -/
def firstProduct (state : UInt32) : UInt32 := state % (modulus / multiplier) * multiplier

/-- `unsigned b = div * (N % G)` -/
def secondProduct (state : UInt32) : UInt32 := state / (modulus / multiplier) * (modulus % multiplier)

/-- `lcg_parkmiller` on the words of the machine: it stores the number that it returns. -/
def lcgParkmiller32 : StateM UInt32 UInt32 := do
  let state ← get
  let a := firstProduct state
  let b := secondProduct state
  let value := if a > b then a - b else a + (modulus - b)
  set value
  return value

/-- `next_random`; the state is `random_seed`. -/
def nextRandom : StateM UInt32 UInt32 := lcgParkmiller32

/-- `random_seed` after `k` calls of `next_random`. -/
def randomSeed : Nat → UInt32
  | 0 => 1
  | k + 1 => (nextRandom.run (randomSeed k)).2

/-- No operation of `lcg_parkmiller` on unsigned numbers wraps. -/
structure NoWrap (state : UInt32) : Prop where
  first : (firstProduct state).toNat = (state % (modulus / multiplier)).toNat * multiplier.toNat
  second : (secondProduct state).toNat = (state / (modulus / multiplier)).toNat * (modulus % multiplier).toNat
  above : firstProduct state > secondProduct state →
    ((firstProduct state - secondProduct state).toNat : Int) = (firstProduct state).toNat - (secondProduct state).toNat
  below : ¬ firstProduct state > secondProduct state →
    ((modulus - secondProduct state).toNat : Int) = modulus.toNat - (secondProduct state).toNat ∧
    (firstProduct state + (modulus - secondProduct state)).toNat =
      (firstProduct state).toNat + (modulus - secondProduct state).toNat

end Code

theorem fits : Schrage.Fits 0x7fffffff 48271 where
  coprime := by decide +kernel
  positive := by decide
  small := by decide

theorem lcgParkmiller_eq (state : Nat) : lcgParkmiller state = Schrage.next 0x7fffffff 48271 state := rfl

section Words
variable {state : UInt32}

theorem firstProduct_toNat (random : IsRandom state.toNat) :
    (firstProduct state).toNat = state.toNat % (0x7fffffff / 48271) * 48271 := by
  have bound := Schrage.first_lt fits random.2
  have rem : (state % (modulus / multiplier)).toNat = state.toNat % (0x7fffffff / 48271) := UInt32.toNat_mod ..
  rw [firstProduct, UInt32.toNat_mul, rem]
  exact Nat.mod_eq_of_lt (Nat.lt_trans bound (by decide))

theorem secondProduct_toNat (random : IsRandom state.toNat) :
    (secondProduct state).toNat = state.toNat / (0x7fffffff / 48271) * (0x7fffffff % 48271) := by
  have bound := Nat.lt_of_le_of_lt (Schrage.second_le fits) random.2
  have div : (state / (modulus / multiplier)).toNat = state.toNat / (0x7fffffff / 48271) := UInt32.toNat_div ..
  rw [secondProduct, UInt32.toNat_mul, div]
  exact Nat.mod_eq_of_lt (Nat.lt_trans bound (by decide))

theorem noWrap (random : IsRandom state.toNat) : NoWrap state := by
  have first := firstProduct_toNat random
  have second := secondProduct_toNat random
  have firstBound := Schrage.first_lt fits random.2
  have secondBound := Nat.lt_of_le_of_lt (Schrage.second_le fits) random.2
  rw [← first] at firstBound
  rw [← second] at secondBound
  have room : (modulus - secondProduct state).toNat = modulus.toNat - (secondProduct state).toNat :=
    UInt32.toNat_sub_of_le _ _ (UInt32.le_iff_toNat_le.mpr (Nat.le_of_lt secondBound))
  refine ⟨first, second, ?_, ?_⟩
  · intro above
    have order : (secondProduct state).toNat < (firstProduct state).toNat := UInt32.lt_iff_toNat_lt.mp above
    rw [UInt32.toNat_sub_of_le _ _ (UInt32.le_of_lt above)]
    omega
  · intro _
    have modulusValue : modulus.toNat = 0x7fffffff := rfl
    refine ⟨by omega, ?_⟩
    rw [UInt32.toNat_add]
    exact Nat.mod_eq_of_lt (by omega)

/-- The words compute what the numbers do. -/
theorem nextRandom_run (random : IsRandom state.toNat) :
    ∃ x, nextRandom.run state = (x, x) ∧ x.toNat = lcgParkmiller state.toNat := by
  refine ⟨_, rfl, ?_⟩
  have first := firstProduct_toNat random
  have second := secondProduct_toNat random
  have exact := noWrap random
  have modulusValue : modulus.toNat = 0x7fffffff := rfl
  have order : firstProduct state > secondProduct state ↔ (firstProduct state).toNat > (secondProduct state).toNat :=
    UInt32.lt_iff_toNat_lt
  simp only [lcgParkmiller, ← first, ← second, ← order]
  split
  · rename_i above
    have value := exact.above above
    omega
  · rename_i below
    obtain ⟨inner, outer⟩ := exact.below below
    omega

theorem randomSeed_toNat (k : Nat) : (randomSeed k).toNat = (Schrage.next 0x7fffffff 48271)^[k] 1 := by
  induction k with
  | zero => rfl
  | succ k ih =>
    have random : IsRandom (randomSeed k).toNat := ih ▸ (Schrage.iterate_one fits (by decide) k).2
    obtain ⟨x, ran, value⟩ := nextRandom_run random
    rw [Function.iterate_succ_apply', randomSeed, ran, value, ih, lcgParkmiller_eq]

theorem randomSeed_isRandom (k : Nat) : IsRandom (randomSeed k).toNat :=
  randomSeed_toNat k ▸ (Schrage.iterate_one fits (by decide) k).2

end Words

/-- `lcg_parkmiller` multiplies by 48271 modulo the prime 2^31 - 1 and nothing in it wraps; the seed
runs through the powers of 48271. -/
theorem lcg_parkmiller_exact (state : UInt32) (lower : 1 ≤ state.toNat) (upper : state.toNat ≤ 2 ^ 31 - 2) :
    NoWrap state ∧
    (∃ x, lcgParkmiller32.run state = (x, x) ∧ x.toNat = state.toNat * 48271 % (2 ^ 31 - 1) ∧
      1 ≤ x.toNat ∧ x.toNat ≤ 2 ^ 31 - 2) ∧
    ∀ k, (randomSeed k).toNat = 48271 ^ k % (2 ^ 31 - 1) ∧ randomSeed k ≠ 0 ∧ randomSeed k ≠ 0x7fffffff := by
  have random : IsRandom state.toNat := ⟨by omega, by omega⟩
  refine ⟨noWrap random, ?_, ?_⟩
  · obtain ⟨x, ran, value⟩ := nextRandom_run random
    have next := Schrage.next_state fits random
    rw [← lcgParkmiller_eq, ← value] at next
    exact ⟨x, ran, value.trans (Schrage.next_eq fits random), next.1, by have := next.2; omega⟩
  · intro k
    obtain ⟨positive, below⟩ := randomSeed_isRandom k
    refine ⟨(randomSeed_toNat k).trans (Schrage.iterate_one fits (by decide) k).1, ?_, ?_⟩
    · intro zero
      rw [zero] at positive
      cases positive
    · intro top
      rw [top] at below
      exact absurd below (by decide)

/-- The first product is 0 here, so that the second one is subtracted from the modulus. -/
theorem lcg_parkmiller_exact_below : ¬ firstProduct 44488 > secondProduct 44488 ∧ NoWrap 44488 ∧
    (∃ x, lcgParkmiller32.run 44488 = (x, x) ∧ x.toNat = 44488 * 48271 % (2 ^ 31 - 1) ∧
      1 ≤ x.toNat ∧ x.toNat ≤ 2 ^ 31 - 2) ∧
    ∀ k, (randomSeed k).toNat = 48271 ^ k % (2 ^ 31 - 1) ∧ randomSeed k ≠ 0 ∧ randomSeed k ≠ 0x7fffffff :=
  ⟨by decide, lcg_parkmiller_exact 44488 (by decide) (by decide)⟩

end OsLabs.Xv6.Lottery
