import OsLabs.Life.Parallel
import Mathlib.Algebra.BigOperators.Group.Finset.Basic
import Mathlib.Algebra.Order.BigOperators.Group.Finset

namespace OsLabs.Life
open Interleaving

section Progress
variable {threads width height steps : Nat} {start : LifeBoard width height} {s : Simulation threads width height}
  {k : Fin threads} {t : Worker} {m : Shared width height}

/-- Only a thread that waits for the barrier to open cannot step. -/
theorem workerStep_enabled {d : ThreadData} (present : t.pc ≠ .absent) (running : t.pc ≠ .returned)
    (free : t.pc ≠ .waiting m.barrier.round) : ∃ u n, workerStep threads d m t = some (u, n) := by
  unfold workerStep
  cases pc : t.pc with
  | absent => exact absurd pc present
  | returned => exact absurd pc running
  | waiting r =>
    have past : r ≠ m.barrier.round := by
      rintro rfl
      exact free pc
    exact ⟨_, _, if_neg past⟩
  | window c j live =>
    by_cases left : j < 9
    · exact ⟨_, _, if_pos left⟩
    · exact ⟨_, _, if_neg left⟩
  | _ => exact ⟨_, _, rfl⟩

/-- Not all threads can be waiting or back while one of them is not back. -/
theorem Inv.someone (inv : Inv steps start s) (running : (s.workers k).pc ≠ .returned) :
    ∃ j, (s.workers j).pc ≠ .returned ∧ (s.workers j).pc ≠ .waiting s.shared.barrier.round := by
  by_contra none
  have stuck : ∀ j, (s.workers j).pc ≠ .returned → (s.workers j).pc = .waiting s.shared.barrier.round :=
    fun j out => by
    by_contra free
    exact none ⟨j, out, free⟩
  have here := stuck k running
  have party : ∀ j, (s.workers j).pc = .waiting s.shared.barrier.round →
      (s.workers j).party = ⟨(s.workers j).i, some s.shared.barrier.round⟩ := fun j pc => by
    unfold Worker.party
    rw [pc]
  have more : s.shared.barrier.round < steps := by
    have phase := (inv.workers k).phase
    have round := inv.barrier.rounds k
    unfold Phase at phase
    unfold Barrier.Party.InRound at round
    rw [here] at phase
    rw [party k here] at round
    exact round.1 ▸ phase.1
  have all : ∀ j, (s.workers j).pc = .waiting s.shared.barrier.round := by
    intro j
    refine stuck j fun back => ?_
    have phase := (inv.workers j).phase
    unfold Phase at phase
    rw [back] at phase
    have round := inv.round (Worker.party_plain (by rw [back]; rfl))
    exact absurd (round.symm.trans phase) (Nat.ne_of_lt more)
  have count := inv.barrier.count
  rw [Finset.filter_true_of_mem fun j _ => by rw [party j (all j)], Finset.card_univ, Fintype.card_fin] at count
  exact absurd count (Nat.ne_of_lt inv.barrier.few)

/-- The simulation never gets stuck. -/
theorem Inv.progress (inv : Inv steps start s) : s.main = .done ∨ ∃ t, Step steps s t := by
  have main := inv.main
  unfold MainOk at main
  cases pc : s.main with
  | done => exact .inl rfl
  | create n =>
    refine .inr ?_
    by_cases bound : n < threads
    · exact ⟨_, .main _ (by unfold mainStep; rw [pc]; exact dif_pos bound)⟩
    · exact ⟨_, .main _ (by unfold mainStep; rw [pc]; exact dif_neg bound)⟩
  | copyBack => exact .inr ⟨_, .main _ (by unfold mainStep; rw [pc])⟩
  | join n =>
    rw [pc] at main
    refine .inr ?_
    by_cases bound : n < threads
    · by_cases back : (s.workers ⟨n, bound⟩).pc = .returned
      · exact ⟨_, .main _ (by unfold mainStep; rw [pc]; exact (dif_pos bound).trans (if_pos back))⟩
      · obtain ⟨j, running, free⟩ := inv.someone back
        have enabled : ∃ t m, workerStep threads (threadData threads width height steps j) s.shared (s.workers j) =
            some (t, m) := workerStep_enabled (main j).1 running free
        obtain ⟨t, m, step⟩ := enabled
        exact ⟨_, .worker j t m step⟩
    · exact ⟨_, .main _ (by unfold mainStep; rw [pc]; exact dif_neg bound)⟩

end Progress

section Rank

/-- The number of cells up to the end of the share. -/
def ThreadData.limit (d : ThreadData) : Nat := (d.endCell + 1).toNat

/-- How many steps a thread has left at most in its turn of the outer loop. -/
def Pc.rank (d : ThreadData) : Pc → Nat
  | .absent | .head => d.limit * 14 + 6
  | .cell c => (d.limit - c) * 14 + 5
  | .window c j _ => (d.limit - c - 1) * 14 + 18 - j
  | .center c => (d.limit - c - 1) * 14 + 8
  | .write c _ => (d.limit - c - 1) * 14 + 7
  | .barrier => 4
  | .waiting _ => 3
  | .swap => 2
  | .returned => 0

def Worker.rank (d : ThreadData) (t : Worker) : Nat := (d.steps - t.i) * (d.limit * 14 + 10) + t.pc.rank d

def MainPc.rank (threads : Nat) : MainPc → Nat
  | .create k => (threads - k) + threads + 4
  | .join k => (threads - k) + 3
  | .copyBack => 1
  | .done => 0

variable {threads width height steps : Nat} {start : LifeBoard width height} {s s' : Simulation threads width height}
  {d : ThreadData} {now next : LifeBoard width height} {g : Nat} {t u : Worker} {m n : Shared width height}

/-- Every step of a thread is one step less. -/
theorem workerStep_rank (phase : Phase d now next g t) (step : workerStep threads d m t = some (u, n)) :
    u.rank d < t.rank d := by
  have limit : ∀ c : Nat, (c : Int) ≤ d.endCell → c + 1 ≤ d.limit := fun c inside => by
    unfold ThreadData.limit
    omega
  have same : ∀ {q : Pc}, u = { t with pc := q } → q.rank d < t.pc.rank d → u.rank d < t.rank d := by
    rintro q rfl less
    exact Nat.add_lt_add_left less _
  unfold Phase at phase
  unfold workerStep at step
  cases pc : t.pc with
  | absent =>
    rw [pc] at step
    cases step
  | head =>
    rw [pc] at step same
    refine same (Prod.mk.inj (Option.some.inj step)).1.symm ?_
    by_cases more : t.i < d.steps
    · rw [if_pos more]
      simp only [Pc.rank]
      omega
    · rw [if_neg more]
      simp only [Pc.rank]
      omega
  | cell c =>
    rw [pc] at step same
    refine same (Prod.mk.inj (Option.some.inj step)).1.symm ?_
    by_cases inside : (c : Int) ≤ d.endCell
    · have room := limit c inside
      rw [if_pos inside]
      by_cases interior : Interior width height c
      · rw [if_pos interior]
        simp only [Pc.rank]
        omega
      · rw [if_neg interior]
        simp only [Pc.rank]
        omega
    · rw [if_neg inside]
      simp only [Pc.rank]
      omega
  | window c j live =>
    rw [pc] at step same phase
    dsimp only at step
    have few := phase.2.2.1
    by_cases left : j < 9
    · rw [if_pos left] at step
      refine same (Prod.mk.inj (Option.some.inj step)).1.symm ?_
      simp only [Pc.rank]
      omega
    · rw [if_neg left] at step
      refine same (Prod.mk.inj (Option.some.inj step)).1.symm ?_
      split
      · simp only [Pc.rank]
        omega
      · split
        · simp only [Pc.rank]
          omega
        · simp only [Pc.rank]
          omega
  | center c =>
    rw [pc] at step same
    refine same (Prod.mk.inj (Option.some.inj step)).1.symm ?_
    simp only [Pc.rank]
    omega
  | write c v =>
    rw [pc] at step same
    refine same (Prod.mk.inj (Option.some.inj step)).1.symm ?_
    simp only [Pc.rank]
    omega
  | barrier =>
    rw [pc] at step same
    exact same (Prod.mk.inj (Option.some.inj step)).1.symm (by decide : (3 : Nat) < 4)
  | waiting r =>
    rw [pc] at step same
    dsimp only at step
    by_cases now : r = m.barrier.round
    · rw [if_pos now] at step
      cases step
    · rw [if_neg now] at step
      exact same (Prod.mk.inj (Option.some.inj step)).1.symm (by decide : (2 : Nat) < 3)
  | swap =>
    rw [pc] at step phase
    obtain rfl := (Prod.mk.inj (Option.some.inj step)).1
    obtain ⟨left, more⟩ : ∃ left, d.steps - t.i = left + 1 := ⟨d.steps - t.i - 1, by omega⟩
    have after : d.steps - (t.i + 1) = left := by omega
    simp only [Worker.rank, pc, Pc.rank, more, after, Nat.succ_mul]
    omega
  | returned =>
    rw [pc] at step
    cases step

/-- How many steps the simulation has left at most. -/
def Simulation.rank (steps : Nat) (s : Simulation threads width height) : Nat :=
  s.main.rank threads + Finset.univ.sum fun k : Fin threads => (s.workers k).rank (threadData threads width height steps k)

/-- Every step of the simulation is one step less. -/
theorem Inv.rank (inv : Inv steps start s) (step : Step steps s s') : s'.rank steps < s.rank steps := by
  cases step with
  | worker k t m step =>
    refine Nat.add_lt_add_left (Finset.sum_lt_sum (fun j _ => ?_) ⟨k, Finset.mem_univ k, ?_⟩) _
    · dsimp only
      by_cases same : j = k
      · subst same
        rw [Function.update_self]
        exact (workerStep_rank (inv.workers j).phase step).le
      · rw [Function.update_of_ne same]
    · dsimp only
      rw [Function.update_self]
      exact workerStep_rank (inv.workers k).phase step
  | main t step =>
    have main := inv.main
    unfold MainOk at main
    cases mainStep_move step with
    | create n pc bound =>
      rw [pc] at main
      have absent := (main ⟨n, bound⟩).mp le_rfl
      refine Nat.add_lt_add_of_lt_of_le ?_ (Finset.sum_le_sum fun j _ => ?_)
      · rw [pc]
        simp only [MainPc.rank]
        omega
      · dsimp only
        by_cases same : j = ⟨n, bound⟩
        · rw [same, Function.update_self]
          unfold Worker.rank
          rw [absent]
          exact le_rfl
        · rw [Function.update_of_ne same]
    | created n pc | join n pc | joined n pc | copyBack pc =>
      refine Nat.add_lt_add_right ?_ _
      rw [pc]
      simp only [MainPc.rank]
      omega

/-- However far the threads have come, the simulation can be run to its end. -/
theorem Inv.returns (inv : Inv steps start s) (positive : 0 < threads) :
    ∃ t, Relation.ReflTransGen (Step steps) s t ∧ t.main = .done := by
  generalize rank : s.rank steps = n
  induction n using Nat.strong_induction_on generalizing s with
  | _ n ih =>
    rcases inv.progress with done | ⟨t, step⟩
    · exact ⟨s, .refl, done⟩
    · obtain ⟨u, run, done⟩ := ih (t.rank steps) (rank ▸ inv.rank step) (inv.step positive step) rfl
      exact ⟨u, .head step run, done⟩

/-- `simulate_life_parallel` returns. -/
theorem simulateLifeParallel_returns (positive : 0 < threads) (start : LifeBoard width height) (steps : Nat) :
    ∃ t, Relation.ReflTransGen (Step steps) (begin threads start) t ∧ t.main = .done :=
  (Inv.begin positive start).returns positive

end Rank

end OsLabs.Life
