import Mathlib.Data.Fintype.Card
import Mathlib.Data.Finset.Card

/-- A barrier that opens whenever all of its parties have arrived: how many wait in the
present round, and how many rounds have been completed. -/
structure Barrier where
  waiting : Nat
  round : Nat
  deriving DecidableEq, Repr

namespace Barrier

/-- A party as the barrier sees it: how many rounds it has left behind and, while it waits,
the round it arrived in. -/
structure Party where
  passed : Nat
  seat : Option Nat

/-- A party of a barrier for `n` arrives. -/
def arrive (n : Nat) (b : Barrier) : Barrier :=
  if b.waiting + 1 = n then ⟨0, b.round + 1⟩ else ⟨b.waiting + 1, b.round⟩

/-- A party is in the present round, or it still has to leave the last one. -/
def Party.InRound (r : Nat) (p : Party) : Prop :=
  match p.seat with
  | none => p.passed = r
  | some q => p.passed = q ∧ (q = r ∨ q + 1 = r)

/-- The barrier counts the parties that wait in the present round. -/
structure Kept {n : Nat} (b : Barrier) (parties : Fin n → Party) : Prop where
  count : b.waiting = (Finset.univ.filter fun k => (parties k).seat = some b.round).card
  few : b.waiting < n
  rounds : ∀ k, (parties k).InRound b.round

section Steps
variable {n : Nat} {b : Barrier} {parties parties' : Fin n → Party} {k : Fin n}

theorem start (positive : 0 < n) : Kept (n := n) ⟨0, 0⟩ fun _ => ⟨0, none⟩ := by
  refine ⟨?_, positive, fun _ => rfl⟩
  simp

/-- When the last party arrives, all others wait in the present round. -/
theorem Kept.all_wait (kept : Kept b parties) (outside : (parties k).seat = none) (last : b.waiting + 1 = n) :
    ∀ j, j ≠ k → (parties j).seat = some b.round := by
  intro j other
  by_contra missing
  have two : ({j, k} : Finset (Fin n)).card = 2 := Finset.card_pair other
  have sub : (Finset.univ.filter fun i => (parties i).seat = some b.round) ⊆ Finset.univ \ {j, k} := by
    intro i member
    have seated := (Finset.mem_filter.mp member).2
    refine Finset.mem_sdiff.mpr ⟨Finset.mem_univ i, fun pair => ?_⟩
    rcases Finset.mem_insert.mp pair with rfl | same
    · exact missing seated
    · rw [Finset.mem_singleton.mp same, outside] at seated
      cases seated
  have size := Finset.card_le_card sub
  rw [← kept.count, Finset.card_sdiff_of_subset (Finset.subset_univ _), two, Finset.card_univ,
    Fintype.card_fin] at size
  have here := k.isLt
  omega

/-- A party arrives. -/
theorem Kept.arrive (kept : Kept b parties) (outside : (parties k).seat = none)
    (mover : parties' k = ⟨(parties k).passed, some b.round⟩) (others : ∀ j, j ≠ k → parties' j = parties j) :
    Kept (b.arrive n) parties' := by
  have now : (parties k).passed = b.round := by
    have round := kept.rounds k
    unfold Party.InRound at round
    rwa [outside] at round
  by_cases last : b.waiting + 1 = n
  · have seated : ∀ j, (parties' j).seat = some b.round := by
      intro j
      by_cases same : j = k
      · rw [same, mover]
      · rw [others j same]
        exact kept.all_wait outside last j same
    have opened : b.arrive n = ⟨0, b.round + 1⟩ := if_pos last
    rw [opened]
    refine ⟨?_, Nat.zero_lt_of_lt kept.few, fun j => ?_⟩
    · rw [Finset.filter_false_of_mem, Finset.card_empty]
      intro j _ late
      rw [seated j] at late
      exact absurd (Option.some.inj late) (by simp)
    · have round := kept.rounds j
      unfold Party.InRound at round ⊢
      rw [seated j]
      by_cases same : j = k
      · rw [same, mover]
        exact ⟨now, .inr rfl⟩
      · rw [others j same]
        have waits := kept.all_wait outside last j same
        rw [waits] at round
        exact ⟨round.1, .inr rfl⟩
  · have shut : b.arrive n = ⟨b.waiting + 1, b.round⟩ := if_neg last
    rw [shut]
    have more : (Finset.univ.filter fun j => (parties' j).seat = some b.round) =
        insert k (Finset.univ.filter fun j => (parties j).seat = some b.round) := by
      ext j
      simp only [Finset.mem_filter, Finset.mem_univ, true_and, Finset.mem_insert]
      by_cases same : j = k
      · rw [same, mover]
        simp
      · rw [others j same]
        simp [same]
    refine ⟨?_, Nat.lt_of_le_of_ne kept.few last, fun j => ?_⟩
    · rw [more, Finset.card_insert_of_notMem, kept.count]
      simp [outside]
    · by_cases same : j = k
      · rw [same, mover]
        exact ⟨now, .inl rfl⟩
      · rw [others j same]
        exact kept.rounds j

/-- A party leaves a round that has been completed. -/
theorem Kept.leave {r : Nat} (kept : Kept b parties) (seated : (parties k).seat = some r) (past : r ≠ b.round)
    (mover : parties' k = ⟨r + 1, none⟩) (others : ∀ j, j ≠ k → parties' j = parties j) : Kept b parties' := by
  refine ⟨?_, kept.few, fun j => ?_⟩
  · rw [kept.count]
    congr 1
    ext j
    simp only [Finset.mem_filter, Finset.mem_univ, true_and]
    by_cases same : j = k
    · rw [same, mover, seated]
      simp [past]
    · rw [others j same]
  · by_cases same : j = k
    · have round := kept.rounds k
      unfold Party.InRound at round
      rw [seated] at round
      rw [same, mover]
      exact round.2.resolve_left past
    · rw [others j same]
      exact kept.rounds j

/-- Steps that have nothing to do with the barrier. -/
theorem Kept.stay (kept : Kept b parties) (same : ∀ j, parties' j = parties j) : Kept b parties' := by
  rwa [funext same]

end Steps

end Barrier
