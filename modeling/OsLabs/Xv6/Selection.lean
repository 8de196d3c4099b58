import Mathlib.Data.Int.Interval
import OsLabs.Lib.Draw
import OsLabs.Xv6.RandomDraw

namespace OsLabs.Xv6.Lottery
open ByteMemory

section Code

/-- The second loop of `scheduler` on the words of the machine: the processes that it runs. -/
def selectionLoop (s : Ptable) : List Slot → UInt32 → List Slot
  | [], _ => []
  | p :: ps, randomNum =>
    if (s.proc p).state = .runnable then
      let randomNum := randomNum - UInt32.ofInt (s.proc p).tickets
      -- The loop breaks when the process comes back.
      if randomNum.toInt32 < 0 then [p] else selectionLoop s ps randomNum
    else selectionLoop s ps randomNum

/-- The processes that a pass of `scheduler` runs for a draw. -/
def selected (s : Ptable) (randomNum : UInt32) : List Slot := selectionLoop s (List.finRange NPROC) randomNum

end Code

/-- The slots of the list that are `RUNNABLE`. -/
def runnables (s : Ptable) (ps : List Slot) : List Slot := ps.filter fun p => (s.proc p).state = .runnable

/-- The tickets of the `RUNNABLE` processes, in the order of the table. -/
def ticketList (s : Ptable) (ps : List Slot) : List Int := (runnables s ps).map fun p => (s.proc p).tickets

section Lists
variable {s : Ptable} {p : Slot} {ps : List Slot}

theorem runnables_cons (runnable : (s.proc p).state = .runnable) : runnables s (p :: ps) = p :: runnables s ps :=
  List.filter_cons_of_pos (decide_eq_true runnable)

theorem runnables_skip (idle : ¬ (s.proc p).state = .runnable) : runnables s (p :: ps) = runnables s ps :=
  List.filter_cons_of_neg (by simpa using idle)

theorem mem_runnables : p ∈ runnables s (List.finRange NPROC) ↔ (s.proc p).state = .runnable := by
  simp [runnables]

theorem ticketList_forall {P : Int → Prop} (all : ∀ p, (s.proc p).state = .runnable → P (s.proc p).tickets) :
    ∀ n ∈ ticketList s ps, P n := by
  intro n member
  obtain ⟨p, listed, rfl⟩ := List.mem_map.mp member
  exact all p (by simpa using (List.mem_filter.mp listed).2)

end Lists

section Words

theorem toInt_toInt32 (x : UInt32) : x.toInt32.toInt = wrap32 x.toNat := BitVec.toInt_eq_toNat_bmod _

theorem toInt_ofInt (n : Int) : (UInt32.ofInt n).toInt32.toInt = wrap32 n := by
  rw [toInt_toInt32, UInt32.ofInt, UInt32.toNat_ofNat_of_lt' (by unfold UInt32.size; omega),
    Int.toNat_of_nonneg (by omega)]
  exact Int.emod_bmod n (2 ^ 32)

/-- The unsigned subtraction read as an `int`. -/
theorem toInt_sub_ofInt (x : UInt32) (n : Int) :
    (x - UInt32.ofInt n).toInt32.toInt = wrap32 (x.toInt32.toInt - n) := by
  rw [UInt32.toInt32_sub, Int32.toInt_sub, toInt_ofInt]
  exact Int.sub_bmod_bmod

end Words

section Loops
variable {s t : Ptable} {ps : List Slot} {r : Int}

theorem selectionLoop_eq (s : Ptable) (ps : List Slot) (x : UInt32) :
    selectionLoop s ps x = (drawLoop s ps x.toInt32.toInt).toList := by
  induction ps generalizing x with
  | nil => rfl
  | cons p ps ih =>
    simp only [selectionLoop, drawLoop, Int32.lt_iff_toInt_lt, toInt_sub_ofInt, Int32.toInt_zero]
    split
    · split
      · rfl
      · rw [ih, toInt_sub_ofInt]
    · exact ih x

/-- What is not `RUNNABLE` does not count. -/
theorem drawLoop_congr (same : ∀ p, (s.proc p).state = .runnable ↔ (t.proc p).state = .runnable)
    (equal : ∀ p, (s.proc p).state = .runnable → (s.proc p).tickets = (t.proc p).tickets) :
    drawLoop s ps r = drawLoop t ps r := by
  induction ps generalizing r with
  | nil => rfl
  | cons p ps ih =>
    simp only [drawLoop, ← same]
    split
    · rename_i runnable
      rw [equal p runnable, ih]
    · exact ih

/-- Small draws never wrap on their way to 0. -/
theorem drawLoop_eq_pick
    (small : ∀ p, (s.proc p).state = .runnable → 0 ≤ (s.proc p).tickets ∧ (s.proc p).tickets < 2 ^ 31)
    (lower : 0 ≤ r) (upper : r < 2 ^ 31) :
    drawLoop s ps r = (Draw.pick (ticketList s ps) r).bind fun i => (runnables s ps)[i]? := by
  induction ps generalizing r with
  | nil => rfl
  | cons p ps ih =>
    by_cases runnable : (s.proc p).state = .runnable
    · obtain ⟨nonneg, bound⟩ := small p runnable
      have exact : wrap32 (r - (s.proc p).tickets) = r - (s.proc p).tickets := wrap32_of_range (by omega) (by omega)
      simp only [drawLoop, if_pos runnable, exact, ticketList, runnables_cons runnable, List.map_cons, Draw.pick]
      split
      · rfl
      · rw [ih (by omega) (by omega), Option.bind_map]
        rfl
    · simp only [drawLoop, if_neg runnable, ticketList, runnables_skip runnable, ih lower upper]

/-- The first loop computes the sum when it fits. -/
theorem sumLoop_eq_sum (nonneg : ∀ p, (s.proc p).state = .runnable → 0 ≤ (s.proc p).tickets) (lower : 0 ≤ r)
    (room : r + (ticketList s ps).sum < 2 ^ 31) : sumLoop s ps r = r + (ticketList s ps).sum := by
  induction ps generalizing r with
  | nil => simp [sumLoop, ticketList, runnables]
  | cons p ps ih =>
    by_cases runnable : (s.proc p).state = .runnable
    · have positive := nonneg p runnable
      have rest : 0 ≤ (ticketList s ps).sum := List.sum_nonneg (ticketList_forall nonneg)
      simp only [ticketList, runnables_cons runnable, List.map_cons, List.sum_cons] at room ⊢
      change r + ((s.proc p).tickets + (ticketList s ps).sum) < _ at room
      change _ = r + ((s.proc p).tickets + (ticketList s ps).sum)
      simp only [sumLoop, if_pos runnable]
      rw [wrap32_of_range (by omega) (by omega), ih (by omega) (by omega), Int.add_assoc]
    · simp only [ticketList, runnables_skip runnable] at room ⊢
      simp only [sumLoop, if_neg runnable]
      exact ih lower room

end Loops

section Contest

abbrev slots : List Slot := List.finRange NPROC

/-- The number of tickets that take part in the lottery. -/
def ticketSum (s : Ptable) : Int := (ticketList s slots).sum

/-- No process that takes part has negative tickets, and the total fits with room for `max + 1`. -/
structure Fair (s : Ptable) : Prop where
  nonneg : ∀ p, (s.proc p).state = .runnable → 0 ≤ (s.proc p).tickets
  bound : ticketSum s ≤ 2 ^ 31 - 2

variable {s t : Ptable} {p : Slot} {r : UInt32} {i : Nat}

theorem Fair.small (fair : Fair s) (p : Slot) (runnable : (s.proc p).state = .runnable) :
    0 ≤ (s.proc p).tickets ∧ (s.proc p).tickets < 2 ^ 31 := by
  have most : (s.proc p).tickets ≤ ticketSum s := by
    refine List.single_le_sum (ticketList_forall fair.nonneg) _ ?_
    exact List.mem_map_of_mem (mem_runnables.mpr runnable)
  have bound := fair.bound
  exact ⟨fair.nonneg p runnable, by omega⟩

theorem Fair.sum_nonneg (fair : Fair s) : 0 ≤ ticketSum s := List.sum_nonneg (ticketList_forall fair.nonneg)

theorem Fair.totalTickets_eq (fair : Fair s) : totalTickets s = ticketSum s := by
  have bound := fair.bound
  have total : sumLoop s slots 0 = 0 + ticketSum s :=
    sumLoop_eq_sum fair.nonneg (Int.le_refl 0) (by change 0 + ticketSum s < _; omega)
  rwa [Int.zero_add] at total

/-- A pass runs the process whose interval the draw lies in. -/
theorem Fair.selected_eq (fair : Fair s) (draw : (r.toNat : Int) ≤ ticketSum s) :
    selected s r = ((Draw.pick (ticketList s slots) r.toNat).bind fun i => (runnables s slots)[i]?).toList := by
  have bound := fair.bound
  rw [selected, selectionLoop_eq, toInt_toInt32, wrap32_of_range (by omega) (by omega),
    drawLoop_eq_pick fair.small (by omega) (by omega)]

theorem Fair.selected_eq_singleton_iff (fair : Fair s) (draw : (r.toNat : Int) ≤ ticketSum s)
    (within : i < (runnables s slots).length) :
    selected s r = [(runnables s slots)[i]] ↔ Draw.pick (ticketList s slots) r.toNat = some i := by
  have distinct : (runnables s slots).Nodup := (List.nodup_finRange NPROC).filter _
  rw [fair.selected_eq draw]
  constructor
  · intro won
    have value : ((Draw.pick (ticketList s slots) r.toNat).bind fun i => (runnables s slots)[i]?) =
        some (runnables s slots)[i] :=
      Option.toList_eq_singleton_iff.mp won
    obtain ⟨j, picked, there⟩ := Option.bind_eq_some_iff.mp value
    obtain ⟨inside, same⟩ := List.getElem?_eq_some_iff.mp there
    rwa [← distinct.getElem_inj_iff.mp same]
  · intro picked
    rw [picked, Option.bind_some, List.getElem?_eq_getElem within, Option.toList_some]

theorem Fair.interval (fair : Fair s) (draw : (r.toNat : Int) ≤ ticketSum s)
    (within : i < (runnables s slots).length) :
    selected s r = [(runnables s slots)[i]] ↔
      ((ticketList s slots).take i).sum ≤ r.toNat ∧ r.toNat < ((ticketList s slots).take (i + 1)).sum := by
  rw [fair.selected_eq_singleton_iff draw within,
    Draw.pick_eq_some_iff (ticketList_forall fair.nonneg) (Int.natCast_nonneg _), ticketList, List.length_map]
  exact and_iff_right within

/-- What the lottery owes to the processes that take part. -/
structure Proportional (s : Ptable) : Prop where
  interval : ∀ r : UInt32, (r.toNat : Int) ≤ ticketSum s → ∀ i, ∀ within : i < (runnables s slots).length,
    (selected s r = [(runnables s slots)[i]] ↔
      ((ticketList s slots).take i).sum ≤ r.toNat ∧ r.toNat < ((ticketList s slots).take (i + 1)).sum)
  share : ∀ p, (s.proc p).state = .runnable →
    (((Finset.range ((ticketSum s).toNat + 1)).filter fun r => selected s (UInt32.ofNat r) = [p]).card : Int) =
      (s.proc p).tickets
  winner : ∀ r : UInt32, (r.toNat : Int) ≤ ticketSum s → ∀ p ∈ selected s r,
    (s.proc p).state = .runnable ∧ 0 < (s.proc p).tickets
  once : ∀ r, (selected s r).length ≤ 1
  others : ∀ t : Ptable, (∀ p, (s.proc p).state = .runnable ↔ (t.proc p).state = .runnable) →
    (∀ p, (s.proc p).state = .runnable → (s.proc p).tickets = (t.proc p).tickets) → ∀ r, selected t r = selected s r

theorem Fair.share (fair : Fair s) (runnable : (s.proc p).state = .runnable) :
    (((Finset.range ((ticketSum s).toNat + 1)).filter fun r => selected s (UInt32.ofNat r) = [p]).card : Int) =
      (s.proc p).tickets := by
  obtain ⟨i, within, rfl⟩ := List.mem_iff_getElem.mp (mem_runnables.mpr runnable)
  have positive : ∀ n ∈ ticketList s slots, 0 ≤ n := ticketList_forall fair.nonneg
  have low : 0 ≤ ((ticketList s slots).take i).sum ∧ ((ticketList s slots).take i).sum ≤ ticketSum s :=
    Draw.before_le_sum positive i
  have high : 0 ≤ ((ticketList s slots).take (i + 1)).sum ∧ ((ticketList s slots).take (i + 1)).sum ≤ ticketSum s :=
    Draw.before_le_sum positive (i + 1)
  have listed : i < (ticketList s slots).length := by rwa [ticketList, List.length_map]
  have step : ((ticketList s slots).take (i + 1)).sum = ((ticketList s slots).take i).sum + (ticketList s slots)[i] :=
    List.sum_take_succ _ i listed
  have own : (ticketList s slots)[i] = (s.proc (runnables s slots)[i]).tickets := by simp [ticketList]
  have bound := fair.bound
  have same : ((Finset.range ((ticketSum s).toNat + 1)).filter fun r =>
      selected s (UInt32.ofNat r) = [(runnables s slots)[i]]) =
      Finset.Ico ((ticketList s slots).take i).sum.toNat ((ticketList s slots).take (i + 1)).sum.toNat := by
    ext r
    rw [Finset.mem_filter, Finset.mem_range, Finset.mem_Ico]
    constructor
    · rintro ⟨range, won⟩
      have word : (UInt32.ofNat r).toNat = r := UInt32.toNat_ofNat_of_lt' (by unfold UInt32.size; omega)
      rw [fair.interval (by rw [word]; omega) within, word] at won
      omega
    · rintro ⟨lower, upper⟩
      have word : (UInt32.ofNat r).toNat = r := UInt32.toNat_ofNat_of_lt' (by unfold UInt32.size; omega)
      refine ⟨by omega, ?_⟩
      rw [fair.interval (by rw [word]; omega) within, word]
      omega
  have weight : 0 ≤ (ticketList s slots)[i] := positive _ (List.getElem_mem listed)
  rw [same, Nat.card_Ico, ← own]
  omega

theorem Fair.winner (fair : Fair s) (draw : (r.toNat : Int) ≤ ticketSum s) (member : p ∈ selected s r) :
    (s.proc p).state = .runnable ∧ 0 < (s.proc p).tickets := by
  rw [fair.selected_eq draw, Option.mem_toList] at member
  obtain ⟨i, picked, there⟩ := Option.bind_eq_some_iff.mp member
  obtain ⟨within, rfl⟩ := List.getElem?_eq_some_iff.mp there
  obtain ⟨_, positive⟩ := Draw.pick_positive (ticketList_forall fair.nonneg) (Int.natCast_nonneg _) picked
  exact ⟨mem_runnables.mp (List.getElem_mem within), by simpa [ticketList] using positive⟩

/-- Every process wins its interval of the draws, which is as long as its number of tickets. -/
theorem shares_proportional (s : Ptable) (nonneg : ∀ p, (s.proc p).state = .runnable → 0 ≤ (s.proc p).tickets)
    (bound : ticketSum s ≤ 2 ^ 31 - 2) : Proportional s where
  interval := fun _ draw _ within => Fair.interval ⟨nonneg, bound⟩ draw within
  share := fun _ runnable => Fair.share ⟨nonneg, bound⟩ runnable
  winner := fun _ draw _ member => Fair.winner ⟨nonneg, bound⟩ draw member
  once := by
    intro r
    rw [selected, selectionLoop_eq]
    exact Option.length_toList_le
  others := by
    intro t same equal r
    rw [selected, selected, selectionLoop_eq, selectionLoop_eq, drawLoop_congr same equal]

/-- While init sleeps and one child runs, children with 20, 0 and 7 tickets are `RUNNABLE`. -/
def threeRunnable : Ptable where
  proc := fun i =>
    if i.val = 0 then ⟨.sleeping, 1, none, 5, 10⟩
    else if i.val = 1 then ⟨.runnable, 2, some initproc, 4, 20⟩
    else if i.val = 2 then ⟨.running, 3, some initproc, 3, 10⟩
    else if i.val = 3 then ⟨.runnable, 4, some initproc, 0, 0⟩
    else if i.val = 4 then ⟨.runnable, 5, some initproc, 2, 7⟩
    else ⟨.unused, 0, none, 0, 0⟩
  forking := fun _ => none
  nextpid := 6

theorem shares_proportional_three : ticketList threeRunnable slots = [20, 0, 7] ∧ Proportional threeRunnable :=
  ⟨by decide, shares_proportional threeRunnable (by decide) (by decide)⟩

/-- A pass of `scheduler` runs one process, which was `RUNNABLE` and had tickets. -/
def HasWinner (s : Ptable) (r : UInt32) : Prop :=
  ∃ p, selected s r = [p] ∧ (s.proc p).state = .runnable ∧ 0 < (s.proc p).tickets

/-- Only the draw that equals the total has no winner. -/
theorem Fair.hasWinner_iff (fair : Fair s) (draw : (r.toNat : Int) ≤ ticketSum s) :
    HasWinner s r ↔ (r.toNat : Int) ≠ ticketSum s := by
  have none : Draw.pick (ticketList s slots) r.toNat = none ↔ ticketSum s ≤ r.toNat :=
    Draw.pick_eq_none_iff (ticketList_forall fair.nonneg) (Int.natCast_nonneg r.toNat)
  constructor
  · rintro ⟨p, won, -⟩ equal
    rw [fair.selected_eq draw, none.mpr (by omega)] at won
    cases won
  · intro different
    obtain ⟨i, picked⟩ := Option.ne_none_iff_exists'.mp fun nobody => different (by have := none.mp nobody; omega)
    obtain ⟨within, -⟩ := Draw.pick_positive (ticketList_forall fair.nonneg) (Int.natCast_nonneg _) picked
    rw [ticketList, List.length_map] at within
    have won := (fair.selected_eq_singleton_iff draw within).mpr picked
    exact ⟨_, won, fair.winner draw (won ▸ List.mem_singleton_self _)⟩

/-- `random_at_most` can return its argument: the last bin is never empty. -/
theorem returns_max {max : UInt32} (positive : 0 < max.toNat) (bound : max.toNat + 1 < 2 ^ 31) : Returns max max := by
  obtain ⟨-, whole, size⟩ := binSize_mul_le max.toNat (by omega)
  have last : (max.toNat + 1) * binSize max.toNat = max.toNat * binSize max.toNat + binSize max.toNat :=
    Nat.succ_mul _ _
  have least : 0 < max.toNat * binSize max.toNat := Nat.mul_pos positive size
  rw [returns_iff]
  refine ⟨max.toNat * binSize max.toNat, ⟨least, ?_⟩, ?_⟩
  · have one : binSize max.toNat = 1 ∨ 2 ≤ binSize max.toNat := by omega
    rcases one with one | more
    · rw [one]
      omega
    · omega
  · rw [randomAtMost_eq_some_iff (by omega)]
    omega

/-- The lottery has somebody to win it. -/
structure Playable (s : Ptable) : Prop extends Fair s where
  player : ∃ p, (s.proc p).state = .runnable ∧ 0 < (s.proc p).tickets
  positive : 1 ≤ ticketSum s

/-- In every lottery the draws below the total have a winner, and the total itself can be drawn and has none. -/
theorem winner_iff_below_total (s : Ptable) (playable : Playable s) :
    (∀ r, Returns (UInt32.ofInt (totalTickets s)) r → (HasWinner s r ↔ (r.toNat : Int) < ticketSum s)) ∧
      ∃ r, Returns (UInt32.ofInt (totalTickets s)) r ∧ (r.toNat : Int) = ticketSum s := by
  have fair : Fair s := playable.toFair
  have positive := playable.positive
  have bound := fair.bound
  have word : ((UInt32.ofInt (totalTickets s)).toNat : Int) = ticketSum s := by
    rw [fair.totalTickets_eq, UInt32.ofInt, UInt32.toNat_ofNat_of_lt' (by unfold UInt32.size; omega)]
    omega
  constructor
  · intro r returned
    obtain ⟨x, -, value⟩ := returns_iff.mp returned
    obtain ⟨most, -⟩ := (randomAtMost_eq_some_iff (by omega)).mp value
    rw [fair.hasWinner_iff (by omega)]
    omega
  · exact ⟨_, returns_max (by omega) (by omega), word⟩

theorem winner_iff_below_total_three : ticketSum threeRunnable = 27 ∧
    (∀ r, Returns (UInt32.ofInt (totalTickets threeRunnable)) r →
      (HasWinner threeRunnable r ↔ (r.toNat : Int) < ticketSum threeRunnable)) ∧
    ∃ r, Returns (UInt32.ofInt (totalTickets threeRunnable)) r ∧ (r.toNat : Int) = ticketSum threeRunnable :=
  ⟨by decide, winner_iff_below_total threeRunnable ⟨⟨by decide, by decide⟩, ⟨1, by decide⟩, by decide⟩⟩

/-- Init alone with its 10 tickets loses to the draw 10. -/
theorem boot_without_winner :
    Playable boot ∧ Returns (UInt32.ofInt (totalTickets boot)) 10 ∧ ¬ HasWinner boot 10 := by
  have fair : Fair boot := ⟨by decide, by decide⟩
  have total : UInt32.ofInt (totalTickets boot) = 10 := by decide
  refine ⟨⟨fair, ⟨initproc, by decide⟩, by decide⟩, total ▸ returns_max (by decide) (by decide), ?_⟩
  rw [fair.hasWinner_iff (by decide)]
  decide

end Contest

end OsLabs.Xv6.Lottery
