import OsLabs.Life.Rounds

namespace OsLabs.Life
open Interleaving

section Runs
variable {threads width height steps : Nat} {start : LifeBoard width height} {s s' : Simulation threads width height}
  {k : Fin threads} {t : Worker} {m : Shared width height}

/-- A step of a thread that computes and goes on computing or returns. -/
theorem Inv.computes {pc : Pc} (inv : Inv steps start s) (before : (s.workers k).pc.plain = true)
    (running : (s.workers k).pc ≠ .returned) (after : pc.plain = true)
    (phase : Phase (threadData threads width height steps k) (s.shared.boards (ptr s.shared.barrier.round))
      (s.shared.boards (ptr (s.shared.barrier.round + 1))) s.shared.barrier.round { s.workers k with pc := pc }) :
    Inv steps start { s with
      shared := s.shared
      workers := Function.update s.workers k { s.workers k with pc := pc } } := by
  obtain ⟨state, nextState, bound, _⟩ := inv.workers k
  have present : ∀ {q : Pc}, q.plain = true → q ≠ .absent := by
    rintro q plain rfl
    cases plain
  have party : ({ s.workers k with pc := pc } : Worker).party = (s.workers k).party :=
    (Worker.party_plain after).trans (Worker.party_plain before).symm
  exact inv.moved (present before) running (present after) (inv.same_barrier party) inv.boards
    ⟨state, nextState, bound, phase⟩ fun j _ => inv.workers j

/-- What every step of a thread keeps. -/
theorem Inv.worker (inv : Inv steps start s) (positive : 0 < threads)
    (step : workerStep threads (threadData threads width height steps k) s.shared (s.workers k) = some (t, m)) :
    Inv steps start { s with shared := m, workers := Function.update s.workers k t } := by
  obtain ⟨state, nextState, bound, phase⟩ := inv.workers k
  have computing : ∀ {q : Pc}, (s.workers k).pc = q → q.plain = true →
      s.shared.boards (s.workers k).state = s.shared.boards (ptr s.shared.barrier.round) := by
    intro q pc plain
    rw [state, inv.round (Worker.party_plain (by rw [pc]; exact plain))]
  unfold Phase at phase
  unfold workerStep at step
  cases pc : (s.workers k).pc with
  | absent =>
    rw [pc] at step
    cases step
  | head =>
    rw [pc] at step
    obtain ⟨rfl, rfl⟩ := Prod.mk.inj (Option.some.inj step)
    refine inv.computes (by rw [pc]; rfl) (by rw [pc]; simp) ?_ (Phase.head bound)
    split <;> rfl
  | cell c =>
    rw [pc] at step phase
    obtain ⟨rfl, rfl⟩ := Prod.mk.inj (Option.some.inj step)
    refine inv.computes (by rw [pc]; rfl) (by rw [pc]; simp) ?_ (Phase.cell phase.1 phase.2.1 phase.2.2)
    split
    · split <;> rfl
    · rfl
  | window c j live =>
    rw [pc] at step phase
    obtain ⟨more, here, few, count⟩ := phase
    by_cases left : j < 9
    · dsimp only at step
      rw [if_pos left, computing pc rfl] at step
      obtain ⟨rfl, rfl⟩ := Prod.mk.inj (Option.some.inj step)
      refine inv.computes (by rw [pc]; rfl) (by rw [pc]; simp) rfl ⟨more, here, left, ?_⟩
      rw [count]
      rfl
    · dsimp only at step
      rw [if_neg left] at step
      obtain ⟨rfl, rfl⟩ := Prod.mk.inj (Option.some.inj step)
      have all : j = 9 := by omega
      refine inv.computes (by rw [pc]; rfl) (by rw [pc]; simp) ?_ (Phase.counted more here (all ▸ count))
      split
      · rfl
      · split <;> rfl
  | center c =>
    rw [pc] at step phase
    obtain ⟨more, here, count⟩ := phase
    obtain ⟨rfl, rfl⟩ := Prod.mk.inj (Option.some.inj step)
    refine inv.computes (by rw [pc]; rfl) (by rw [pc]; simp) rfl ⟨more, here, ?_⟩
    rw [computing pc rfl, nextAt_four count]
  | write c v =>
    rw [pc] at step
    obtain ⟨rfl, rfl⟩ := Prod.mk.inj (Option.some.inj step)
    refine inv.writes pc (fun p other => Function.update_of_ne other ..) fun j => ?_
    rw [Function.update_self]
    unfold LifeBoard.set
    rw [index_eq]
  | barrier =>
    rw [pc] at step
    obtain ⟨rfl, rfl⟩ := Prod.mk.inj (Option.some.inj step)
    exact inv.arrives positive pc
  | waiting r =>
    rw [pc] at step
    by_cases now : r = s.shared.barrier.round
    · simp only [now, if_true] at step
      cases step
    · simp only [now, if_false] at step
      obtain ⟨rfl, rfl⟩ := Prod.mk.inj (Option.some.inj step)
      exact inv.leaves pc now
  | swap =>
    rw [pc] at step phase
    obtain ⟨rfl, rfl⟩ := Prod.mk.inj (Option.some.inj step)
    have party : (s.workers k).party = ⟨(s.workers k).i + 1, none⟩ := by
      unfold Worker.party
      rw [pc]
    refine inv.moved (by rw [pc]; simp) (by rw [pc]; simp) (by simp) (inv.same_barrier (by rw [party]; rfl))
      inv.boards
      ⟨nextState, ?_, phase, trivial⟩ fun j _ => inv.workers j
    exact state.trans (ptr_add_two _).symm
  | returned =>
    rw [pc] at step
    cases step

/-- All threads have returned, so every step has been computed. -/
theorem Inv.finished (inv : Inv steps start s) (positive : 0 < threads) (all : ∀ k, (s.workers k).pc = .returned) :
    s.shared.barrier.round = steps := by
  have pc := all ⟨0, positive⟩
  have phase := (inv.workers ⟨0, positive⟩).phase
  unfold Phase at phase
  rw [pc] at phase
  exact (inv.round (Worker.party_plain (by rw [pc]; rfl))).symm.trans phase

/-- The copy at the end of an odd number of steps. -/
theorem Inv.copied (inv : Inv steps start s) (positive : 0 < threads) (all : ∀ k, (s.workers k).pc = .returned) :
    Inv steps start { s with
      shared := { s.shared with
        boards := if steps % 2 = 1 then Function.update s.shared.boards .argument (s.shared.boards .copy)
          else s.shared.boards }
      main := .done } := by
  have round := inv.finished positive all
  have now := inv.boards.now
  rw [round] at now
  have workers : ∀ (now next : LifeBoard width height) (k : Fin threads),
      WorkerOk (threadData threads width height steps k) now next s.shared.barrier.round (s.workers k) := by
    intro now next k
    obtain ⟨state, nextState, bound, phase⟩ := inv.workers k
    unfold Phase at phase
    rw [all k] at phase
    refine ⟨state, nextState, bound, ?_⟩
    unfold Phase
    rw [all k]
    exact phase
  by_cases odd : steps % 2 = 1
  · have here : ptr steps = .copy := if_neg (by omega)
    have there : ptr (steps + 1) = .argument := if_pos (by omega)
    rw [here] at now
    rw [if_pos odd]
    refine ⟨inv.barrier, ⟨?_, fun j edge => ?_⟩, fun k => workers _ _ k, all, ?_⟩
    · dsimp only
      rw [round, here, Function.update_of_ne (by simp), now]
    · dsimp only
      rw [round, there, Function.update_self, now, lifeSteps_edge _ _ edge]
    · dsimp only
      rw [Function.update_self, now]
  · have here : ptr steps = .argument := if_pos (by omega)
    rw [here] at now
    rw [if_neg odd]
    exact ⟨inv.barrier, inv.boards, fun k => workers _ _ k, all, now⟩

/-- The steps of the main thread, each with what it waits for. -/
inductive MainMove (steps : Nat) (s : Simulation threads width height) : Simulation threads width height → Prop
  | create (n : Nat) (pc : s.main = .create n) (bound : n < threads) : MainMove steps s { s with
      workers := Function.update s.workers ⟨n, bound⟩ { s.workers ⟨n, bound⟩ with pc := .head }
      main := .create (n + 1) }
  | created (n : Nat) (pc : s.main = .create n) (all : threads ≤ n) : MainMove steps s { s with main := .join 0 }
  | join (n : Nat) (pc : s.main = .join n) (bound : n < threads) (back : (s.workers ⟨n, bound⟩).pc = .returned) :
      MainMove steps s { s with main := .join (n + 1) }
  | joined (n : Nat) (pc : s.main = .join n) (all : threads ≤ n) : MainMove steps s { s with main := .copyBack }
  | copyBack (pc : s.main = .copyBack) : MainMove steps s { s with
      shared := { s.shared with
        boards := if steps % 2 = 1 then Function.update s.shared.boards .argument (s.shared.boards .copy)
          else s.shared.boards }
      main := .done }

theorem mainStep_move (step : mainStep steps s = some s') : MainMove steps s s' := by
  unfold mainStep at step
  cases pc : s.main with
  | create n =>
    rw [pc] at step
    by_cases bound : n < threads
    · simp only [bound, dif_pos] at step
      obtain rfl := Option.some.inj step
      exact .create n pc bound
    · simp only [bound, dif_neg, not_false_eq_true] at step
      obtain rfl := Option.some.inj step
      exact .created n pc (not_lt.mp bound)
  | join n =>
    rw [pc] at step
    by_cases bound : n < threads
    · simp only [bound, dif_pos] at step
      by_cases back : (s.workers ⟨n, bound⟩).pc = .returned
      · rw [if_pos back] at step
        obtain rfl := Option.some.inj step
        exact .join n pc bound back
      · rw [if_neg back] at step
        cases step
    · simp only [bound, dif_neg, not_false_eq_true] at step
      obtain rfl := Option.some.inj step
      exact .joined n pc (not_lt.mp bound)
  | copyBack =>
    rw [pc] at step
    obtain rfl := Option.some.inj step
    exact .copyBack pc
  | done =>
    rw [pc] at step
    cases step

/-- What every step of the main thread keeps. -/
theorem Inv.main_step (inv : Inv steps start s) (positive : 0 < threads) (step : mainStep steps s = some s') :
    Inv steps start s' := by
  have main := inv.main
  unfold MainOk at main
  cases mainStep_move step with
  | create n pc bound =>
    rw [pc] at main
    have absent := (main ⟨n, bound⟩).mp le_rfl
    obtain ⟨state, nextState, few, _⟩ := inv.workers ⟨n, bound⟩
    refine ⟨inv.same_barrier ?_, inv.boards, ?_, ?_⟩
    · unfold Worker.party
      rw [absent]
    · exact forall_moved (P := fun (j : Fin threads) (w : Worker) =>
        WorkerOk (threadData threads width height steps j) _ _ _ w) ⟨state, nextState, few, trivial⟩
          fun j _ => inv.workers j
    · refine forall_moved (P := fun (j : Fin threads) (w : Worker) => n + 1 ≤ j.val ↔ w.pc = .absent) ?_
        fun j other => ?_
      · simp
      · have apart : j.val ≠ n := fun same => other (Fin.ext same)
        exact ⟨fun late => (main j).mp (by omega), fun gone => by have := (main j).mpr gone; omega⟩
  | created n pc all =>
    rw [pc] at main
    refine ⟨inv.barrier, inv.boards, inv.workers, fun k => ⟨fun gone => ?_, fun early => absurd early (by simp)⟩⟩
    exact absurd (((main k).mpr gone).trans_lt k.isLt) (not_lt.mpr all)
  | join n pc bound back =>
    rw [pc] at main
    refine ⟨inv.barrier, inv.boards, inv.workers, fun k => ⟨(main k).1, fun early => ?_⟩⟩
    rcases Nat.lt_succ_iff_lt_or_eq.mp early with before | same
    · exact (main k).2 before
    · rw [← back]
      exact congrArg (fun k => (s.workers k).pc) (Fin.ext same)
  | joined n pc all =>
    rw [pc] at main
    exact ⟨inv.barrier, inv.boards, inv.workers, fun k => (main k).2 (k.isLt.trans_le all)⟩
  | copyBack pc =>
    rw [pc] at main
    exact inv.copied positive main

theorem Inv.begin (positive : 0 < threads) (start : LifeBoard width height) : Inv steps start (begin threads start) :=
  ⟨Barrier.start positive, ⟨rfl, fun _ _ => rfl⟩, fun _ => ⟨rfl, rfl, Nat.zero_le steps, trivial⟩,
    fun k => ⟨fun _ => rfl, fun _ => Nat.zero_le k⟩⟩

theorem Inv.step (inv : Inv steps start s) (positive : 0 < threads) (step : Step steps s s') :
    Inv steps start s' := by
  cases step with
  | worker k t m step => exact inv.worker positive step
  | main t step => exact inv.main_step positive step

theorem run_inv (positive : 0 < threads) (run : Relation.ReflTransGen (Step steps) (begin threads start) s) :
    Inv steps start s :=
  run_keeps run (Inv.begin positive start) fun _ _ inv step => inv.step positive step

/-- A thread reads the board of its round, inside the board. -/
theorem Inv.reads {p : BoardPtr} {x y : Nat} (inv : Inv steps start s)
    (read : (s.workers k).reads width = some (p, x, y)) :
    p = ptr s.shared.barrier.round ∧ x < width ∧ y < height := by
  obtain ⟨state, _, _, phase⟩ := inv.workers k
  have inside := threadData_inside width height steps k.isLt
  unfold Worker.reads at read
  unfold Phase at phase
  cases pc : (s.workers k).pc with
  | window c j live =>
    rw [pc] at read phase
    by_cases left : j < 9
    · simp only [left, if_true, Option.some.injEq, Prod.mk.injEq] at read
      obtain ⟨rfl, rfl, rfl⟩ := read
      have upper := phase.2.1.inside
      refine ⟨?_, window_inside (by omega) phase.2.1.interior left⟩
      rw [state, inv.round (Worker.party_plain (by rw [pc]; rfl))]
    · simp [left] at read
  | center c =>
    rw [pc] at read phase
    simp only [Option.some.injEq, Prod.mk.injEq] at read
    obtain ⟨rfl, rfl, rfl⟩ := read
    have upper := phase.2.1.inside
    have middle := window_inside (j := 4) (by omega) phase.2.1.interior (by decide)
    refine ⟨?_, middle⟩
    rw [state, inv.round (Worker.party_plain (by rw [pc]; rfl))]
  | _ =>
    rw [pc] at read
    cases read

/-- A thread writes to the other board. -/
theorem Inv.mayWrite {p : BoardPtr} (inv : Inv steps start s) (write : (s.workers k).mayWrite = some p) :
    p = ptr (s.shared.barrier.round + 1) := by
  have party : (s.workers k).party = ⟨(s.workers k).i, none⟩ := by
    unfold Worker.mayWrite at write
    unfold Worker.party
    cases pc : (s.workers k).pc <;> rw [pc] at write <;> first | rfl | cases write
  have target : (s.workers k).nextState = p := by
    unfold Worker.mayWrite at write
    cases pc : (s.workers k).pc <;> rw [pc] at write <;> first | exact Option.some.inj write | cases write
  rw [← target, (inv.workers k).nextState, inv.round party]

/-- The board the main thread leaves. -/
theorem Inv.result (inv : Inv steps start s) (done : s.main = .done) :
    s.shared.boards .argument = lifeSteps steps start := by
  have main := inv.main
  unfold MainOk at main
  rw [done] at main
  exact main.2

/-- Under every schedule the parallel simulator leaves the board after `steps` synchronous
steps in its argument, and at no time does a thread read from a board that another thread
may be writing to. -/
theorem simulateLifeParallel_correct (positive : 0 < threads)
    (run : Relation.ReflTransGen (Step steps) (begin threads start) s) :
    (s.main = .done → s.shared.boards .argument = lifeSteps steps start) ∧
    ∀ j k : Fin threads, j ≠ k → ∀ p x y q, (s.workers j).reads width = some (p, x, y) →
      (s.workers k).mayWrite = some q → p ≠ q ∧ x < width ∧ y < height := by
  have inv := run_inv positive run
  refine ⟨inv.result, fun j k _ p x y q read write => ?_⟩
  obtain ⟨source, inside⟩ := inv.reads read
  refine ⟨?_, inside⟩
  rw [source, inv.mayWrite write]
  exact (ptr_succ_ne _).symm

/-- Two threads, and the board of three cells in a row that turns. -/
def blinker : LifeBoard 5 5 := fun k => if k.val = 11 ∨ k.val = 12 ∨ k.val = 13 then 1 else 0

/-- The main thread and the two threads take turns. -/
def turns : List (Option (Fin 2)) := (List.replicate 200 [none, some 0, some 1]).flatten

theorem simulateLifeParallel_blinker :
    (play 1 (begin 2 blinker) turns).shared.boards .argument = lifeSteps 1 blinker :=
  (simulateLifeParallel_correct (by decide) (play_run 1 (begin 2 blinker) turns)).1 (by decide +kernel)

end Runs

end OsLabs.Life
