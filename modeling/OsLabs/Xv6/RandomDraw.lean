import Mathlib.Data.Set.Card
import Mathlib.Order.Interval.Finset.Nat
import Mathlib.Tactic.IntervalCases
import OsLabs.Xv6.Generator

namespace OsLabs.Xv6.Lottery

section Code

/-- `RANDOM_MAX` -/
def randomMax : UInt32 := ((1 : UInt32) <<< 31) - 1

/-- At most `fuel` rounds of the loop of `random_at_most`; none is a loop that goes on. -/
def nextAccepted (limit : UInt32) : Nat → StateT UInt32 Option UInt32
  | 0, _ => none
  | fuel + 1, seed =>
    let (x, later) := nextRandom.run seed
    if limit ≤ x then nextAccepted limit fuel later else some (x, later)

/-- `random_at_most`; none is a division by 0 too. -/
def randomAtMost32 (fuel : Nat) (max : UInt32) : StateT UInt32 Option UInt32 := fun seed =>
  let bins := max + 1
  let numbers := randomMax + 1
  if bins = 0 then none else
  (nextAccepted (numbers - numbers % bins) fuel seed).bind fun (x, later) =>
    if numbers / bins = 0 then none else some (x / (numbers / bins), later)

/-- What `random_at_most` can return. -/
def Returns (max r : UInt32) : Prop :=
  ∃ fuel seed later, IsRandom seed.toNat ∧ (randomAtMost32 fuel max).run seed = some (r, later)

end Code

section Loop
variable {limit seed x later : UInt32} {fuel : Nat}

theorem nextAccepted_some (random : IsRandom seed.toNat) (ran : nextAccepted limit fuel seed = some (x, later)) :
    IsRandom x.toNat ∧ ¬ limit ≤ x ∧ later = x := by
  induction fuel generalizing seed with
  | zero => cases ran
  | succ fuel ih =>
    obtain ⟨y, drew, value⟩ := nextRandom_run random
    have next : IsRandom y.toNat := value ▸ random.lcgParkmiller
    simp only [nextAccepted, drew] at ran
    split at ran
    · exact ih next ran
    · rename_i accepted
      obtain ⟨rfl, rfl⟩ := Prod.mk.inj (Option.some.inj ran)
      exact ⟨next, accepted, rfl⟩

/-- The loop ends when some later number of the generator is accepted. -/
theorem nextAccepted_ends {j : Nat} (random : IsRandom seed.toNat)
    (accepted : (lcgParkmiller^[j + 1] seed.toNat) < limit.toNat) :
    ∃ fuel x later, nextAccepted limit fuel seed = some (x, later) := by
  induction j generalizing seed with
  | zero =>
    obtain ⟨y, drew, value⟩ := nextRandom_run random
    have small : ¬ limit ≤ y := by
      rw [UInt32.le_iff_toNat_le, value]
      exact Nat.not_le.mpr accepted
    exact ⟨1, y, y, by simp only [nextAccepted, drew, if_neg small]⟩
  | succ j ih =>
    obtain ⟨y, drew, value⟩ := nextRandom_run random
    have next : IsRandom y.toNat := value ▸ random.lcgParkmiller
    rw [Function.iterate_succ_apply, ← value] at accepted
    by_cases rejected : limit ≤ y
    · obtain ⟨fuel, x, later, ran⟩ := ih next accepted
      exact ⟨fuel + 1, x, later, by simp only [nextAccepted, drew, if_pos rejected, ran]⟩
    · exact ⟨1, y, y, by simp only [nextAccepted, drew, if_neg rejected]⟩

end Loop

section Words
variable {max r seed later : UInt32} {fuel : Nat}

theorem numBins_toNat (max : UInt32) : (max + 1).toNat = numBins max.toNat := UInt32.toNat_add ..

theorem numRand_toNat : (randomMax + 1).toNat = numRand := by decide

theorem binSize_toNat (max : UInt32) : ((randomMax + 1) / (max + 1)).toNat = binSize max.toNat := by
  rw [UInt32.toNat_div, numRand_toNat, numBins_toNat, binSize]

theorem limit_toNat (max : UInt32) :
    (randomMax + 1 - (randomMax + 1) % (max + 1)).toNat = (numRand + 2 ^ 32 - defect max.toNat) % 2 ^ 32 := by
  have least : defect max.toNat ≤ numRand := Nat.mod_le _ _
  rw [UInt32.toNat_sub, UInt32.toNat_mod, numRand_toNat, numBins_toNat]
  change (2 ^ 32 - defect max.toNat + numRand) % 2 ^ 32 = _
  congr 1
  unfold numRand at *
  omega

theorem rejects_iff (max x : UInt32) :
    randomMax + 1 - (randomMax + 1) % (max + 1) ≤ x ↔ rejects max.toNat x.toNat = true := by
  rw [UInt32.le_iff_toNat_le, limit_toNat, rejects, decide_eq_true_iff]

theorem randomAtMost_some_iff {max x r : Nat} : randomAtMost max x = some r ↔
    (numBins max ≠ 0 ∧ rejects max x = false ∧ binSize max ≠ 0) ∧ x / binSize max = r := by
  rw [randomAtMost, Option.ite_none_left_eq_some, not_or, not_or, Bool.not_eq_true, Option.some_inj]

/-- The words return what the numbers do for the last number of the generator. -/
theorem randomAtMost32_some_iff : (randomAtMost32 fuel max).run seed = some (r, later) ↔
    ∃ x, nextAccepted (randomMax + 1 - (randomMax + 1) % (max + 1)) fuel seed = some (x, later) ∧
      numBins max.toNat ≠ 0 ∧ binSize max.toNat ≠ 0 ∧ x.toNat / binSize max.toNat = r.toNat := by
  have bins : max + 1 = 0 ↔ numBins max.toNat = 0 := by rw [← UInt32.toNat_inj, numBins_toNat]; rfl
  have size : (randomMax + 1) / (max + 1) = 0 ↔ binSize max.toNat = 0 := by
    rw [← UInt32.toNat_inj, binSize_toNat]; rfl
  change (if max + 1 = 0 then none else _) = _ ↔ _
  rw [Option.ite_none_left_eq_some, Option.bind_eq_some_iff, bins]
  have quotient (x : UInt32) : x / ((randomMax + 1) / (max + 1)) = r ↔ x.toNat / binSize max.toNat = r.toNat := by
    rw [← UInt32.toNat_inj, UInt32.toNat_div, binSize_toNat]
  simp only [Option.ite_none_left_eq_some, size, Option.some_inj, Prod.mk.injEq, quotient]
  constructor
  · rintro ⟨divides, ⟨x, last⟩, loop, room, value, rfl⟩
    exact ⟨x, loop, divides, room, value⟩
  · rintro ⟨x, loop, divides, room, value⟩
    exact ⟨divides, (x, later), loop, room, value, rfl⟩

theorem randomAtMost32_some (random : IsRandom seed.toNat)
    (ran : (randomAtMost32 fuel max).run seed = some (r, later)) :
    IsRandom later.toNat ∧ randomAtMost max.toNat later.toNat = some r.toNat := by
  obtain ⟨x, loop, bins, size, value⟩ := randomAtMost32_some_iff.mp ran
  obtain ⟨random, accepted, rfl⟩ := nextAccepted_some random loop
  rw [rejects_iff, Bool.not_eq_true] at accepted
  exact ⟨random, randomAtMost_some_iff.mpr ⟨⟨bins, accepted, size⟩, value⟩⟩

theorem randomAtMost32_ends {j : Nat} (random : IsRandom seed.toNat)
    (accepted : randomAtMost max.toNat (lcgParkmiller^[j + 1] seed.toNat) ≠ none) :
    ∃ fuel r later, (randomAtMost32 fuel max).run seed = some (r, later) := by
  obtain ⟨v, returned⟩ := Option.ne_none_iff_exists'.mp accepted
  obtain ⟨⟨bins, taken, size⟩, -⟩ := randomAtMost_some_iff.mp returned
  rw [rejects, decide_eq_false_iff_not, ← limit_toNat, Nat.not_le] at taken
  obtain ⟨fuel, x, later, loop⟩ := nextAccepted_ends random taken
  refine ⟨fuel, x / ((randomMax + 1) / (max + 1)), later, ?_⟩
  rw [randomAtMost32_some_iff]
  exact ⟨x, loop, bins, size, by rw [UInt32.toNat_div, binSize_toNat]⟩

/-- Every accepted number of the generator is the first of some seed. -/
theorem returns_iff : Returns max r ↔ ∃ x, IsRandom x ∧ randomAtMost max.toNat x = some r.toNat := by
  constructor
  · rintro ⟨fuel, seed, later, random, ran⟩
    exact ⟨later.toNat, randomAtMost32_some random ran⟩
  · rintro ⟨x, random, returned⟩
    obtain ⟨⟨bins, taken, size⟩, value⟩ := randomAtMost_some_iff.mp returned
    obtain ⟨before, earlier, first⟩ := Schrage.exists_next fits random
    have word : (UInt32.ofNat before).toNat = before :=
      UInt32.toNat_ofNat_of_lt' (Nat.lt_trans earlier.2 (by decide))
    have seed : IsRandom (UInt32.ofNat before).toNat := word.symm ▸ earlier
    obtain ⟨y, drew, same⟩ := nextRandom_run seed
    rw [word, lcgParkmiller_eq, first] at same
    rw [← same, ← Bool.not_eq_true, ← rejects_iff] at taken
    refine ⟨1, UInt32.ofNat before, y, seed, randomAtMost32_some_iff.mpr ⟨y, ?_, bins, size, same ▸ value⟩⟩
    simp only [nextAccepted, drew, if_neg taken]


end Words

/-- The loop of `random_at_most` ends from every seed of the generator, since its orbit comes back to 1. -/
theorem random_at_most_ends (max : UInt32) (k : Nat) (bound : max.toNat + 1 ≤ 2 ^ 31) :
    (∃ fuel r later, (randomAtMost32 fuel max).run (randomSeed k) = some (r, later)) ∧
      1 ≤ ((randomMax + 1) / (max + 1)).toNat := by
  obtain ⟨⟨bins, size⟩, accepts⟩ := @randomAtMost_defined max.toNat (by omega)
  obtain ⟨j, back⟩ := Schrage.returns_one fits (by decide) k
  rw [← randomSeed_toNat] at back
  refine ⟨@randomAtMost32_ends max _ j (randomSeed_isRandom k) ?_, by rw [binSize_toNat]; omega⟩
  change randomAtMost _ ((Schrage.next 0x7fffffff 48271)^[j + 1] _) ≠ none
  rw [back, randomAtMost_some_iff.mpr ⟨⟨bins, accepts, size⟩, rfl⟩]
  exact Option.some_ne_none _

theorem random_at_most_ends_most :
    (∃ fuel r later, (randomAtMost32 fuel 0x7fffffff).run (randomSeed 5) = some (r, later)) ∧
      1 ≤ ((randomMax + 1) / (0x7fffffff + 1)).toNat :=
  random_at_most_ends 0x7fffffff 5 (by decide)

section Bias
variable {max x r : Nat}

/-- The numbers that `lcg_parkmiller` can return. -/
def outputs : Set Nat := {x | ∃ state, IsRandom state ∧ lcgParkmiller state = x}

/-- For how many accepted numbers of the generator `random_at_most` returns `r`. -/
noncomputable def hits (max r : Nat) : Nat := {x ∈ outputs | randomAtMost max x = some r}.ncard

/-- The results of `random_at_most` are in range and equally frequent. -/
structure Unbiased (max : Nat) : Prop where
  inRange : ∀ x ∈ outputs, ∀ r, randomAtMost max x = some r → r ≤ max
  equal : ∀ r ≤ max, ∀ r' ≤ max, hits max r = hits max r'

theorem mem_outputs : x ∈ outputs ↔ IsRandom x := by
  constructor
  · rintro ⟨state, random, rfl⟩
    exact random.lcgParkmiller
  · exact fun random => Schrage.exists_next fits random

theorem binSize_mul_le (max : Nat) (bound : max < 2 ^ 31) :
    binSize max = 2 ^ 31 / (max + 1) ∧ (max + 1) * binSize max ≤ 2 ^ 31 ∧ 0 < binSize max := by
  have bins : numBins max = max + 1 := Nat.mod_eq_of_lt (by omega)
  have size : binSize max = 2 ^ 31 / (max + 1) := by rw [binSize, bins, numRand]
  exact ⟨size, size ▸ Nat.mul_div_le _ _, size ▸ Nat.div_pos (by omega) (by omega)⟩

/-- The loop accepts what lies in one of the bins. -/
theorem rejects_eq_false_iff (bound : max < 2 ^ 31) : rejects max x = false ↔ x < (max + 1) * binSize max := by
  have bins : numBins max = max + 1 := Nat.mod_eq_of_lt (by omega)
  obtain ⟨size, -, -⟩ := binSize_mul_le max bound
  have whole := Nat.div_add_mod (2 ^ 31) (max + 1)
  have small := Nat.mod_lt (2 ^ 31) (show max + 1 > 0 by omega)
  rw [← size] at whole
  rw [rejects, defect, bins, numRand, decide_eq_false_iff_not, Nat.not_le]
  generalize 2 ^ 31 % (max + 1) = rest at *
  generalize (max + 1) * binSize max = bulk at *
  omega

/-- Result `r` is bin `r`. -/
theorem randomAtMost_eq_some_iff (bound : max < 2 ^ 31) :
    randomAtMost max x = some r ↔ r ≤ max ∧ r * binSize max ≤ x ∧ x < (r + 1) * binSize max := by
  obtain ⟨-, -, positive⟩ := binSize_mul_le max bound
  have bins : numBins max ≠ 0 := (randomAtMost_defined bound).1.1
  rw [randomAtMost_some_iff, rejects_eq_false_iff bound, ← Nat.div_lt_iff_lt_mul positive]
  constructor
  · rintro ⟨⟨-, taken, -⟩, rfl⟩
    exact ⟨by omega, Nat.div_mul_le_self _ _, (Nat.div_lt_iff_lt_mul positive).mp (Nat.lt_succ_self _)⟩
  · rintro ⟨most, lower, upper⟩
    have value : x / binSize max = r := Nat.div_eq_of_lt_le lower upper
    exact ⟨⟨bins, by omega, by omega⟩, value⟩

/-- A bin whose numbers are an interval has the length of the interval. -/
theorem hits_eq {lo hi : Nat} (bound : max < 2 ^ 31)
    (interval : ∀ x, IsRandom x ∧ r ≤ max ∧ r * binSize max ≤ x ∧ x < (r + 1) * binSize max ↔ lo ≤ x ∧ x < hi) :
    hits max r = hi - lo := by
  have same : {x ∈ outputs | randomAtMost max x = some r} = (Finset.Ico lo hi : Set Nat) := by
    ext x
    rw [Set.mem_ofPred_eq, mem_outputs, randomAtMost_eq_some_iff bound, interval, Finset.coe_Ico, Set.mem_Ico]
  rw [hits, same, Set.ncard_coe_finset, Nat.card_Ico]

/-- The first bin lacks the number 0. -/
theorem hits_first (two : 1 ≤ max) (bound : max < 2 ^ 31) : hits max 0 = binSize max - 1 := by
  obtain ⟨-, whole, -⟩ := binSize_mul_le max bound
  have half : 2 * binSize max ≤ (max + 1) * binSize max := Nat.mul_le_mul_right _ (by omega)
  refine hits_eq bound fun x => ?_
  unfold IsRandom
  omega

/-- A bin that is neither the first nor the last lacks nothing. -/
theorem hits_second (three : 2 ≤ max) (bound : max < 2 ^ 31) : hits max 1 = binSize max := by
  obtain ⟨-, whole, positive⟩ := binSize_mul_le max bound
  have third : 3 * binSize max ≤ (max + 1) * binSize max := Nat.mul_le_mul_right _ (by omega)
  rw [@hits_eq max 1 (binSize max) (2 * binSize max) bound]
  · omega
  · intro x
    unfold IsRandom
    omega

theorem first_lt_second (three : 2 ≤ max) (bound : max < 2 ^ 31) : hits max 0 < hits max 1 := by
  obtain ⟨-, -, positive⟩ := binSize_mul_le max bound
  rw [hits_first (by omega) bound, hits_second three bound]
  omega

/-- Of two bins each lacks one number. -/
theorem two_bins_equal : hits 1 0 = hits 1 1 := by
  have size : binSize 1 = 2 ^ 30 := by decide
  rw [hits_first (by decide) (by decide), @hits_eq 1 1 (2 ^ 30) (2 ^ 31 - 1) (by decide), size]
  · decide
  · intro x
    unfold IsRandom
    rw [size]
    omega

theorem results_le (bound : max < 2 ^ 31) : ∀ x ∈ outputs, ∀ r, randomAtMost max x = some r → r ≤ max :=
  fun _ _ _ returned => ((randomAtMost_eq_some_iff bound).mp returned).1

/-- The generator never returns 0, so `random_at_most` is unbiased only with at most two bins. -/
theorem unbiased_iff (max : Nat) (bound : max + 1 ≤ 2 ^ 31 - 2) : Unbiased max ↔ max ≤ 1 := by
  constructor
  · intro unbiased
    by_contra more
    have less : hits max 0 < hits max 1 := first_lt_second (by omega) (by omega)
    exact absurd (unbiased.equal 0 (by omega) 1 (by omega)) (Nat.ne_of_lt less)
  · intro few
    refine ⟨results_le (by omega), ?_⟩
    have bins : max = 0 ∨ max = 1 := by omega
    rcases bins with rfl | rfl
    · intro r zero r' zero'
      rw [Nat.le_zero.mp zero, Nat.le_zero.mp zero']
    · intro r one r' one'
      have equal := two_bins_equal
      interval_cases r <;> interval_cases r' <;> simp [equal]

theorem unbiased_iff_pair : Unbiased 1 ↔ 1 ≤ 1 := unbiased_iff 1 (by decide)

theorem three_bins_biased : ¬ Unbiased 2 := fun unbiased =>
  absurd (unbiased.equal 0 (by decide) 1 (by decide)) (Nat.ne_of_lt (first_lt_second (by decide) (by decide)))

end Bias

end OsLabs.Xv6.Lottery
