import Mathlib.Tactic.Ring
import OsLabs.Lib.CheckedInt
import OsLabs.Lib.Slices

namespace OsLabs.Life
open CheckedInt

/-- The two bounds in the `ThreadData` of a thread. -/
structure CellRange where
  startCell : Int
  endCell : Int
  deriving DecidableEq, Repr

/-- The bounds `simulate_life_parallel` computes for thread `i`, or none if an expression overflows. -/
def cellRange (numCellsPerThread extraCells i : Int) : Option CellRange := do
  let startCell ← if i < extraCells then do mul i (← add numCellsPerThread 1)
    else do add (← mul i numCellsPerThread) extraCells
  let endCell ← if i < extraCells then add startCell numCellsPerThread
    else do sub (← add startCell numCellsPerThread) 1
  return ⟨startCell, endCell⟩

/-- The loop over the threads, from thread `i` on; the count is of the threads left. -/
def cellRanges (numCellsPerThread extraCells threads : Int) : Nat → Int → Option (List CellRange)
  | 0, _ => some []
  | left + 1, i =>
    if i < threads then do
      let range ← cellRange numCellsPerThread extraCells i
      let ranges ← cellRanges numCellsPerThread extraCells threads left (← add i 1)
      return range :: ranges
    else some []

/-- The range computation of `simulate_life_parallel`. -/
def workSplit (threads width height : Int) : Option (List CellRange) := do
  let numCellsPerThread ← div (← mul width height) threads
  let extraCells ← mod (← mul width height) threads
  cellRanges numCellsPerThread extraCells threads threads.toNat 0

/-- The values of `ith_cell` for which the body of the inner loop of `thread_simulate_life` is run,
from `c` on. None is an overflow, or too little fuel. -/
def ithCells (endCell : Int) : Nat → Int → Option (List Int)
  | 0, _ => none
  | fuel + 1, c =>
    if c ≤ endCell then do
      let cells ← ithCells endCell fuel (← add c 1)
      return c :: cells
    else some []

/-- Cell `c` belongs to the thread. -/
def CellRange.Holds (range : CellRange) (c : Int) : Prop := range.startCell ≤ c ∧ c ≤ range.endCell

def CellRange.size (range : CellRange) : Int := range.endCell - range.startCell + 1

/-- The ranges of the threads, in the order of the threads, are consecutive intervals of almost
equal size that make up the cells `0..cells-1`. -/
structure Partition (cells : Int) (ranges : List CellRange) : Prop where
  first : ∀ range, ranges[0]? = some range → range.startCell = 0
  consecutive : ∀ (i : Nat) (range next : CellRange), ranges[i]? = some range → ranges[i + 1]? = some next →
    next.startCell = range.endCell + 1
  last : ∀ range, ranges[ranges.length - 1]? = some range → range.endCell = cells - 1
  empty : ∀ range ∈ ranges, range.startCell - 1 ≤ range.endCell
  covers : ∀ c, (∃ range ∈ ranges, range.Holds c) ↔ 0 ≤ c ∧ c < cells
  disjoint : ∀ (i j : Nat) (range other : CellRange) (c : Int), i ≠ j → ranges[i]? = some range →
    ranges[j]? = some other → range.Holds c → ¬ other.Holds c
  even : ∀ range ∈ ranges, ∀ other ∈ ranges, range.size ≤ other.size + 1

/-- The inner loop visits the cells of the range and stops. -/
theorem ithCells_eq {first last : Int} (lower : 0 ≤ first) (upper : last < 2 ^ 31 - 1) (size fuel : Nat)
    (cells : first + size = last + 1) (enough : size < fuel) :
    ithCells last fuel first = some ((List.range size).map fun k : Nat => first + k) := by
  induction size generalizing first fuel with
  | zero =>
    obtain ⟨fuel, rfl⟩ := Nat.exists_eq_add_of_lt enough
    unfold ithCells
    rw [if_neg (by omega)]
    rfl
  | succ size ih =>
    obtain ⟨fuel, rfl⟩ := Nat.exists_eq_add_of_lt enough
    have next : add first 1 = some (first + 1) := add_eq ⟨by omega, by omega⟩
    have rest : ithCells last (size + 1 + fuel) (first + 1) =
        some ((List.range size).map fun k : Nat => first + 1 + k) :=
      ih (by omega) (size + 1 + fuel) (by push_cast at cells; omega) (by omega)
    unfold ithCells
    rw [if_pos (by push_cast at cells; omega)]
    simp only [next, rest, Option.bind_eq_bind, Option.bind_some, Option.pure_def, List.range_succ_eq_map,
      List.map_cons, List.map_map, Nat.cast_zero, Int.add_zero]
    congr 2
    refine List.map_congr_left fun k _ => ?_
    rw [Function.comp_apply]
    push_cast
    omega

/-- The first cell behind the shares of the first `k` threads. -/
def cut (num extra : Int) (k : Nat) : Int := k * num + min (k : Int) extra

section Cuts
variable {num extra : Int}

theorem cut_succ (num extra : Int) (k : Nat) :
    cut num extra (k + 1) = cut num extra k + num + if (k : Int) < extra then 1 else 0 := by
  unfold cut
  have expand : ((k + 1 : Nat) : Int) * num = k * num + num := by push_cast; ring
  rw [expand]
  split <;> push_cast <;> omega

theorem cut_monotone (nonneg : 0 ≤ num) {j k : Nat} (earlier : j ≤ k) : cut num extra j ≤ cut num extra k := by
  refine monotone_nat_of_le_succ (fun k => ?_) earlier
  rw [cut_succ]
  split <;> omega

theorem cut_le_next (nonneg : 0 ≤ num) (k : Nat) : cut num extra k ≤ cut num extra (k + 1) :=
  cut_monotone nonneg (Nat.le_succ k)

theorem cut_zero (nonneg : 0 ≤ extra) : cut num extra 0 = 0 := by
  unfold cut
  rw [Nat.cast_zero, Int.zero_mul, min_eq_left nonneg, Int.zero_add]

theorem cut_threads {threads : Nat} (few : extra ≤ threads) : cut num extra threads = threads * num + extra := by
  unfold cut
  rw [min_eq_right few]

variable {threads k : Nat}

/-- Neither formula overflows, and both give the slice between two cuts. -/
theorem cellRange_eq (nonneg : 0 ≤ num) (rest : 0 ≤ extra) (few : extra ≤ threads)
    (fits : threads * num + extra < 2 ^ 31) (member : k < threads) :
    cellRange num extra k = some ⟨cut num extra k, cut num extra (k + 1) - 1⟩ := by
  have monotone := @cut_monotone num extra nonneg
  have lower : 0 ≤ cut num extra k := (@cut_zero num extra rest).symm.le.trans (monotone (Nat.zero_le k))
  have upper : cut num extra (k + 1) ≤ threads * num + extra := (monotone member).trans (cut_threads few).le
  have next := cut_succ num extra k
  have whole : (0 : Int) ≤ k * num := Int.mul_nonneg (Int.natCast_nonneg k) nonneg
  unfold cellRange
  by_cases front : (k : Int) < extra
  · have start : k * (num + 1) = cut num extra k := by
      unfold cut
      rw [min_eq_left front.le]
      ring
    have one : cut num extra 1 = num + 1 := by
      unfold cut
      rw [Nat.cast_one, Int.one_mul, min_eq_left (by omega)]
    have small : num + 1 ≤ threads * num + extra :=
      one.symm.le.trans ((monotone (Nat.one_le_of_lt member)).trans (cut_threads few).le)
    rw [if_pos front] at next
    have more : add num 1 = some (num + 1) := add_eq ⟨by omega, by omega⟩
    have first : mul k (num + 1) = some (cut num extra k) := start ▸ mul_eq ⟨by omega, by omega⟩
    have last : add (cut num extra k) num = some (cut num extra (k + 1) - 1) := by
      rw [add_eq ⟨by omega, by omega⟩, next]
      congr 1
      omega
    simp only [if_pos front, more, first, last, Option.bind_eq_bind, Option.bind_some, Option.pure_def]
  · have start : k * num + extra = cut num extra k := by
      unfold cut
      rw [min_eq_right (not_lt.mp front)]
    rw [if_neg front, Int.add_zero] at next
    have share : mul k num = some (k * num) := mul_eq ⟨by omega, by omega⟩
    have first : add (k * num) extra = some (cut num extra k) := start ▸ add_eq ⟨by omega, by omega⟩
    have sum : add (cut num extra k) num = some (cut num extra (k + 1)) := next ▸ add_eq ⟨by omega, by omega⟩
    have last : sub (cut num extra (k + 1)) 1 = some (cut num extra (k + 1) - 1) := sub_eq ⟨by omega, by omega⟩
    simp only [if_neg front, share, first, sum, last, Option.bind_eq_bind, Option.bind_some, Option.pure_def]

/-- The loop makes the slices of the threads from thread `i` on. -/
theorem cellRanges_eq (nonneg : 0 ≤ num) (rest : 0 ≤ extra) (few : extra ≤ threads)
    (fits : threads * num + extra < 2 ^ 31) (isInt : InRange threads) (left i : Nat) (total : i + left = threads) :
    cellRanges num extra threads left i =
      some ((List.range' i left).map fun k => ⟨cut num extra k, cut num extra (k + 1) - 1⟩) := by
  induction left generalizing i with
  | zero => rfl
  | succ left ih =>
    unfold InRange at isInt
    have member : i < threads := by omega
    have next : add i 1 = some ((i + 1 : Nat) : Int) := add_eq ⟨by omega, by omega⟩
    unfold cellRanges
    rw [if_pos (Int.ofNat_lt.mpr member)]
    simp only [cellRange_eq nonneg rest few fits member, next, ih (i + 1) (by omega), Option.bind_eq_bind,
      Option.bind_some, Option.pure_def, List.range'_succ, List.map_cons]

/-- The slices between the cuts, in order. -/
def slices (num extra : Int) (threads : Nat) : List CellRange :=
  (List.range threads).map fun k => ⟨cut num extra k, cut num extra (k + 1) - 1⟩

theorem getElem?_slices {range : CellRange} :
    (slices num extra threads)[k]? = some range ↔
      k < threads ∧ range = ⟨cut num extra k, cut num extra (k + 1) - 1⟩ := by
  unfold slices
  rw [List.getElem?_map, Option.map_eq_some_iff]
  constructor
  · rintro ⟨j, found, rfl⟩
    obtain ⟨member, rfl⟩ := List.getElem?_eq_some_iff.mp found
    rw [List.length_range] at member
    rw [List.getElem_range]
    exact ⟨member, rfl⟩
  · rintro ⟨member, rfl⟩
    exact ⟨k, List.getElem?_range member, rfl⟩

theorem mem_slices {range : CellRange} :
    range ∈ slices num extra threads ↔
      ∃ k, k < threads ∧ range = ⟨cut num extra k, cut num extra (k + 1) - 1⟩ := by
  simp only [List.mem_iff_getElem?, getElem?_slices]

theorem length_slices : (slices num extra threads).length = threads := by
  rw [slices, List.length_map, List.length_range]

/-- A cell lies in the closed range of a slice. -/
theorem holds_slice (c : Int) :
    (CellRange.mk (cut num extra k) (cut num extra (k + 1) - 1)).Holds c ↔
      cut num extra k ≤ c ∧ c < cut num extra (k + 1) := by
  unfold CellRange.Holds
  dsimp only
  omega

theorem size_slice (k : Nat) :
    (CellRange.mk (cut num extra k) (cut num extra (k + 1) - 1)).size = num + if (k : Int) < extra then 1 else 0 := by
  unfold CellRange.size
  rw [cut_succ]
  dsimp only
  omega

theorem partition_slices (nonneg : 0 ≤ num) (rest : 0 ≤ extra) (few : extra ≤ threads) :
    Partition (threads * num + extra) (slices num extra threads) where
  first range found := by
    rw [(getElem?_slices.mp found).2]
    exact cut_zero rest
  consecutive i range next found following := by
    rw [(getElem?_slices.mp found).2, (getElem?_slices.mp following).2]
    dsimp only
    omega
  last range found := by
    obtain ⟨member, rfl⟩ := getElem?_slices.mp found
    rw [length_slices] at member ⊢
    dsimp only
    rw [Nat.sub_add_cancel (by omega), cut_threads few]
  empty range member := by
    obtain ⟨k, _, rfl⟩ := mem_slices.mp member
    have ordered := @cut_le_next num extra nonneg k
    dsimp only
    omega
  covers c := by
    rw [← @cut_zero num extra rest, ← cut_threads few, ← Slices.mem_iff (fun _ _ => cut_monotone nonneg)]
    constructor
    · rintro ⟨range, member, holds⟩
      obtain ⟨k, bound, rfl⟩ := mem_slices.mp member
      exact ⟨k, bound, (holds_slice c).mp holds⟩
    · rintro ⟨k, bound, inside⟩
      exact ⟨_, mem_slices.mpr ⟨k, bound, rfl⟩, (holds_slice c).mpr inside⟩
  disjoint i j range other c apart found following left right := by
    obtain ⟨_, rfl⟩ := getElem?_slices.mp found
    obtain ⟨_, rfl⟩ := getElem?_slices.mp following
    exact Slices.disjoint (fun _ _ => cut_monotone nonneg) apart ((holds_slice c).mp left) ((holds_slice c).mp right)
  even range member other otherMember := by
    obtain ⟨j, _, rfl⟩ := mem_slices.mp member
    obtain ⟨k, _, rfl⟩ := mem_slices.mp otherMember
    rw [size_slice, size_slice]
    split <;> split <;> omega

end Cuts

/-- For every board and every number of threads the ranges are computed without an overflow and
partition the cells of the board, and the inner loop of each thread visits its range and ends. -/
theorem workSplit_partition {threads width height : Int} (atLeast : 1 ≤ threads) (isInt : InRange threads)
    (wide : 0 ≤ width) (high : 0 ≤ height) (fits : width * height < 2 ^ 31) :
    ∃ ranges, workSplit threads width height = some ranges ∧ ranges.length = threads.toNat ∧
      Partition (width * height) ranges ∧
      ∀ range ∈ ranges, ∀ fuel, range.size.toNat < fuel → ithCells range.endCell fuel range.startCell =
        some ((List.range range.size.toNat).map fun k : Nat => range.startCell + k) := by
  obtain ⟨n, rfl⟩ := Int.eq_ofNat_of_zero_le (by omega : 0 ≤ threads)
  have positive : (0 : Int) < n := by omega
  have cells : 0 ≤ width * height := Int.mul_nonneg wide high
  have product : InRange (width * height) := ⟨by omega, fits⟩
  obtain ⟨num, numEq⟩ : ∃ num, width * height / n = num := ⟨_, rfl⟩
  obtain ⟨extra, extraEq⟩ : ∃ extra, width * height % n = extra := ⟨_, rfl⟩
  have total : n * num + extra = width * height := numEq ▸ extraEq ▸ Int.mul_ediv_add_emod _ _
  have nonneg : 0 ≤ num := numEq ▸ Int.ediv_nonneg cells positive.le
  have rest : 0 ≤ extra := extraEq ▸ Int.emod_nonneg _ positive.ne'
  have few : extra ≤ n := extraEq ▸ (Int.emod_lt_of_pos _ positive).le
  have computed : workSplit n width height = some (slices num extra n) := by
    unfold workSplit slices
    simp only [mul_eq product, div_eq cells positive product, mod_eq cells positive product, numEq, extraEq,
      Option.bind_eq_bind, Option.bind_some, Int.toNat_natCast, List.range_eq_range']
    exact cellRanges_eq nonneg rest few (total.trans_lt fits) isInt n 0 (Nat.zero_add n)
  refine ⟨_, computed, by rw [length_slices, Int.toNat_natCast], total ▸ partition_slices nonneg rest few,
    fun range member fuel enough => ?_⟩
  obtain ⟨k, bound, rfl⟩ := mem_slices.mp member
  have monotone := @cut_monotone num extra nonneg
  have lower : 0 ≤ cut num extra k := (@cut_zero num extra rest).symm.le.trans (monotone (Nat.zero_le k))
  have upper : cut num extra (k + 1) ≤ n * num + extra := (monotone bound).trans (cut_threads few).le
  have ordered := @cut_le_next num extra nonneg k
  refine ithCells_eq lower (by dsimp only; omega) _ fuel ?_ enough
  unfold CellRange.size
  dsimp only
  omega

/-- Seven cells for three threads. -/
theorem workSplit_seven : ∃ ranges, workSplit 3 7 1 = some ranges ∧ ranges.length = 3 ∧
    Partition 7 ranges ∧ ∀ range ∈ ranges, ∀ fuel, range.size.toNat < fuel →
      ithCells range.endCell fuel range.startCell =
        some ((List.range range.size.toNat).map fun k : Nat => range.startCell + k) :=
  @workSplit_partition 3 7 1 (by decide) (by decide) (by decide) (by decide) (by decide)

end OsLabs.Life
