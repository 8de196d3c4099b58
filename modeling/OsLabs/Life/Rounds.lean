import OsLabs.Life.Threads

namespace OsLabs.Life
open Interleaving

/-- The board `state` points to after `n` swaps. -/
def ptr (n : Nat) : BoardPtr := if n % 2 = 0 then .argument else .copy

theorem ptr_succ_ne (n : Nat) : ptr (n + 1) ≠ ptr n := by
  unfold ptr
  by_cases even : n % 2 = 0
  · rw [if_pos even, if_neg (by omega)]
    decide
  · rw [if_neg even, if_pos (by omega)]
    decide

theorem ptr_add_two (n : Nat) : ptr (n + 1 + 1) = ptr n := by
  unfold ptr
  rw [Nat.add_assoc, Nat.add_mod_right]

/-- A thread that has left the barrier counts as having passed it before it swaps. -/
def Worker.party (t : Worker) : Barrier.Party :=
  match t.pc with
  | .waiting r => ⟨t.i, some r⟩
  | .swap => ⟨t.i + 1, none⟩
  | _ => ⟨t.i, none⟩

/-- A thread that computes, or that has returned. -/
def Pc.plain : Pc → Bool
  | .absent | .waiting _ | .swap => false
  | .head | .cell _ | .window _ _ _ | .center _ | .write _ _ | .barrier | .returned => true

theorem Worker.party_plain {t : Worker} (plain : t.pc.plain = true) : t.party = ⟨t.i, none⟩ := by
  unfold Worker.party
  cases pc : t.pc <;> rw [pc] at plain <;> first | rfl | cases plain

theorem Worker.waiting_of_seat {t : Worker} {r : Nat} (seat : t.party.seat = some r) : t.pc = .waiting r := by
  unfold Worker.party at seat
  cases pc : t.pc <;> rw [pc] at seat <;> simp_all

section Phases
variable {threads width height : Nat}

/-- The interior cells of the share before cell `c` have their next value. -/
def Written (d : ThreadData) (now next : LifeBoard width height) (c : Nat) : Prop :=
  ∀ k : Fin (width * height), d.startCell ≤ k → k.val < c → Interior width height k → next k = nextAt now k

/-- All interior cells of the share have their next value. -/
def Finished (d : ThreadData) (now next : LifeBoard width height) : Prop :=
  ∀ k : Fin (width * height), d.startCell ≤ k → (k.val : Int) ≤ d.endCell → Interior width height k → next k = nextAt now k

/-- The thread computes cell `c`. -/
structure AtCell (d : ThreadData) (now next : LifeBoard width height) (c : Nat) : Prop where
  start : d.startCell ≤ c
  inside : (c : Int) ≤ d.endCell
  interior : Interior width height c
  written : Written d now next c

/-- What a thread has done, by its place in the program, in round `g` of the barrier. -/
def Phase (d : ThreadData) (now next : LifeBoard width height) (g : Nat) (t : Worker) : Prop :=
  match t.pc with
  | .absent => True
  | .head => True
  | .cell c => t.i < d.steps ∧ d.startCell ≤ c ∧ Written d now next c
  | .window c j live => t.i < d.steps ∧ AtCell d now next c ∧ j ≤ 9 ∧ live = liveInWindow now (c % width) (c / width) j
  | .center c => t.i < d.steps ∧ AtCell d now next c ∧ liveInWindow now (c % width) (c / width) 9 = 4
  | .write c v => t.i < d.steps ∧ AtCell d now next c ∧ v = nextAt now c
  | .barrier => t.i < d.steps ∧ Finished d now next
  | .waiting r => t.i < d.steps ∧ (r = g → Finished d now next)
  | .swap => t.i < d.steps
  | .returned => t.i = d.steps

/-- A thread in round `g`: its pointers follow its own loop counter. -/
structure WorkerOk (d : ThreadData) (now next : LifeBoard width height) (g : Nat) (t : Worker) : Prop where
  state : t.state = ptr t.i
  nextState : t.nextState = ptr (t.i + 1)
  bound : t.i ≤ d.steps
  phase : Phase d now next g t

/-- How far the main thread has come. -/
def MainOk (steps : Nat) (start : LifeBoard width height) (s : Simulation threads width height) : Prop :=
  match s.main with
  | .create n => ∀ k : Fin threads, n ≤ k ↔ (s.workers k).pc = .absent
  | .join n => ∀ k : Fin threads, (s.workers k).pc ≠ .absent ∧ (k.val < n → (s.workers k).pc = .returned)
  | .copyBack => ∀ k, (s.workers k).pc = .returned
  | .done => (∀ k, (s.workers k).pc = .returned) ∧ s.shared.boards .argument = lifeSteps steps start

/-- In round `g` of the barrier the board at `ptr g` is the `g`-th one, and the other board
is being filled with the next. -/
structure BoardsOk (start : LifeBoard width height) (m : Shared width height) : Prop where
  now : m.boards (ptr m.barrier.round) = lifeSteps m.barrier.round start
  edge : ∀ k, ¬ Interior width height k.val → m.boards (ptr (m.barrier.round + 1)) k = start k

/-- The invariant of the simulation. -/
structure Inv (steps : Nat) (start : LifeBoard width height) (s : Simulation threads width height) : Prop where
  barrier : s.shared.barrier.Kept fun k => (s.workers k).party
  boards : BoardsOk start s.shared
  workers : ∀ k : Fin threads, WorkerOk (threadData threads width height steps k)
    (s.shared.boards (ptr s.shared.barrier.round)) (s.shared.boards (ptr (s.shared.barrier.round + 1)))
    s.shared.barrier.round (s.workers k)
  main : MainOk steps start s

end Phases

section Keep
variable {threads width height steps : Nat} {start : LifeBoard width height} {s : Simulation threads width height}
  {k : Fin threads} {t : Worker} {m : Shared width height}

/-- A moving thread is neither absent nor back, so the main thread is not affected. -/
theorem MainOk.moved (ok : MainOk steps start s) (present : (s.workers k).pc ≠ .absent)
    (running : (s.workers k).pc ≠ .returned) (still : t.pc ≠ .absent) :
    MainOk steps start { s with shared := m, workers := Function.update s.workers k t } := by
  unfold MainOk at *
  cases main : s.main with
  | create n =>
    rw [main] at ok
    refine forall_moved (P := fun (j : Fin threads) (w : Worker) => n ≤ j.val ↔ w.pc = .absent) ?_ fun j _ => ok j
    exact ⟨fun late => absurd ((ok k).mp late) present, fun gone => absurd gone still⟩
  | join n =>
    rw [main] at ok
    refine forall_moved (P := fun (j : Fin threads) (w : Worker) => w.pc ≠ .absent ∧
      (j.val < n → w.pc = .returned)) ?_
      fun j _ => ok j
    exact ⟨still, fun early => absurd ((ok k).2 early) running⟩
  | copyBack =>
    rw [main] at ok
    exact absurd (ok k) running
  | done =>
    rw [main] at ok
    exact absurd (ok.1 k) running

/-- A thread moves. -/
theorem Inv.moved (inv : Inv steps start s) (present : (s.workers k).pc ≠ .absent)
    (running : (s.workers k).pc ≠ .returned)
    (still : t.pc ≠ .absent) (barrier : m.barrier.Kept fun j => (Function.update s.workers k t j).party)
    (boards : BoardsOk start m)
    (mover : WorkerOk (threadData threads width height steps k) (m.boards (ptr m.barrier.round))
      (m.boards (ptr (m.barrier.round + 1))) m.barrier.round t)
    (others : ∀ j : Fin threads, j ≠ k →
      WorkerOk (threadData threads width height steps j) (m.boards (ptr m.barrier.round))
      (m.boards (ptr (m.barrier.round + 1))) m.barrier.round (s.workers j)) :
    Inv steps start { s with shared := m, workers := Function.update s.workers k t } :=
  ⟨barrier, boards, forall_moved (P := fun (j : Fin threads) (w : Worker) =>
    WorkerOk (threadData threads width height steps j) _ _ _ w) mover others, inv.main.moved present running still⟩

/-- A thread that does not move through the barrier leaves it alone. -/
theorem Inv.same_barrier (inv : Inv steps start s) (party : t.party = (s.workers k).party) :
    s.shared.barrier.Kept fun j => (Function.update s.workers k t j).party := by
  refine inv.barrier.stay fun j => ?_
  by_cases same : j = k
  · rw [same, Function.update_self, party]
  · rw [Function.update_of_ne same]

/-- A thread outside the barrier is in the present round. -/
theorem Inv.round (inv : Inv steps start s) (party : (s.workers k).party = ⟨(s.workers k).i, none⟩) :
    (s.workers k).i = s.shared.barrier.round := by
  have round := inv.barrier.rounds k
  unfold Barrier.Party.InRound at round
  rwa [party] at round

end Keep

section Cells
variable {width height : Nat} {d : ThreadData} {now next next' : LifeBoard width height} {c : Nat}

/-- A cell has its next value if it is the one just written or had it before. -/
theorem next_kept {j : Fin (width * height)}
    (cell : ∀ j : Fin (width * height), next' j = if j.val = c then nextAt now c else next j)
    (old : j.val ≠ c → next j = nextAt now j.val) : next' j = nextAt now j.val := by
  rw [cell j]
  by_cases same : j.val = c
  · rw [if_pos same, same]
  · rw [if_neg same]
    exact old same

/-- Other cells of the share keep their next value when one more is written. -/
theorem Written.kept {e : Nat} (written : Written d now next e)
    (cell : ∀ j : Fin (width * height), next' j = if j.val = c then nextAt now c else next j) :
    Written d now next' e :=
  fun j lower before interior => next_kept cell fun _ => written j lower before interior

theorem Finished.kept (finished : Finished d now next)
    (cell : ∀ j : Fin (width * height), next' j = if j.val = c then nextAt now c else next j) :
      Finished d now next' :=
  fun j lower before interior => next_kept cell fun _ => finished j lower before interior

/-- One more cell with its next value harms nobody. -/
theorem Phase.kept {g : Nat} {t : Worker} (phase : Phase d now next g t)
    (cell : ∀ j : Fin (width * height), next' j = if j.val = c then nextAt now c else next j) :
      Phase d now next' g t := by
  have here : ∀ {e}, AtCell d now next e → AtCell d now next' e := fun place =>
    ⟨place.start, place.inside, place.interior, place.written.kept cell⟩
  unfold Phase at *
  cases pc : t.pc with
  | absent => trivial
  | head => trivial
  | cell e =>
    rw [pc] at phase
    exact ⟨phase.1, phase.2.1, phase.2.2.kept cell⟩
  | window e j live =>
    rw [pc] at phase
    exact ⟨phase.1, here phase.2.1, phase.2.2⟩
  | center e =>
    rw [pc] at phase
    exact ⟨phase.1, here phase.2.1, phase.2.2⟩
  | write e v =>
    rw [pc] at phase
    exact ⟨phase.1, here phase.2.1, phase.2.2⟩
  | barrier =>
    rw [pc] at phase
    exact ⟨phase.1, phase.2.kept cell⟩
  | waiting r =>
    rw [pc] at phase
    exact ⟨phase.1, fun same => (phase.2 same).kept cell⟩
  | swap =>
    rw [pc] at phase
    exact phase
  | returned =>
    rw [pc] at phase
    exact phase

/-- The share up to and including a cell that was just written. -/
theorem AtCell.step (here : AtCell d now next c)
    (cell : ∀ j : Fin (width * height), next' j = if j.val = c then nextAt now c else next j) :
    Written d now next' (c + 1) :=
  fun j lower before interior => next_kept cell fun other => here.written j lower (by omega) interior

end Cells

section Moves
variable {threads width height steps : Nat} {start : LifeBoard width height} {s : Simulation threads width height}
  {k : Fin threads}

/-- A thread writes the next value of its cell to the board that is being filled. -/
theorem Inv.writes {c : Nat} {v : LifeCell} {boards : BoardPtr → LifeBoard width height} (inv : Inv steps start s)
    (pc : (s.workers k).pc = .write c v) (others : ∀ p, p ≠ (s.workers k).nextState → boards p = s.shared.boards p)
    (cell : ∀ j : Fin (width * height), boards (s.workers k).nextState j =
      if j.val = c then v else s.shared.boards (s.workers k).nextState j) :
    Inv steps start { s with
      shared := ⟨boards, s.shared.barrier⟩
      workers := Function.update s.workers k { s.workers k with pc := .cell (c + 1) } } := by
  obtain ⟨state, nextState, bound, phase⟩ := inv.workers k
  unfold Phase at phase
  rw [pc] at phase
  obtain ⟨more, here, rfl⟩ := phase
  have party : (s.workers k).party = ⟨(s.workers k).i, none⟩ := by
    unfold Worker.party
    rw [pc]
  have target : (s.workers k).nextState = ptr (s.shared.barrier.round + 1) := by
    rw [nextState, inv.round party]
  rw [target] at others cell
  have now : boards (ptr s.shared.barrier.round) = s.shared.boards (ptr s.shared.barrier.round) :=
    others _ (ptr_succ_ne _).symm
  refine inv.moved (by rw [pc]; simp) (by rw [pc]; simp) (by simp) (inv.same_barrier (by rw [party]; rfl))
    ⟨now.trans inv.boards.now, fun j edge => ?_⟩ ⟨state, nextState, bound, ?_⟩ fun j other => ?_
  · have outside : j.val ≠ c := by
      rintro same
      exact edge (same ▸ here.interior)
    exact (cell j).trans ((if_neg outside).trans (inv.boards.edge j edge))
  · dsimp only
    rw [now]
    exact ⟨more, Nat.le_succ_of_le here.start, here.step cell⟩
  · obtain ⟨state, nextState, bound, phase⟩ := inv.workers j
    dsimp only
    rw [now]
    exact ⟨state, nextState, bound, phase.kept cell⟩

/-- When every share is finished the next board is complete, and the other one is its frame. -/
theorem BoardsOk.turn (boards : BoardsOk start s.shared) (positive : 0 < threads)
    (all : ∀ j : Fin threads, Finished (threadData threads width height steps j)
      (s.shared.boards (ptr s.shared.barrier.round)) (s.shared.boards (ptr (s.shared.barrier.round + 1)))) :
    BoardsOk start ⟨s.shared.boards, 0, s.shared.barrier.round + 1⟩ := by
  have edge : ∀ j : Fin (width * height), ¬ Interior width height j →
      s.shared.boards (ptr s.shared.barrier.round) j = start j := fun j edge => by
    rw [boards.now, lifeSteps_edge _ _ edge]
  refine ⟨?_, fun j outside => ?_⟩
  · dsimp only
    unfold lifeSteps
    rw [← boards.now]
    refine lifeStep_of_cells (fun cell interior => ?_) fun cell outside => ?_
    · obtain ⟨j, member, lower, upper⟩ := threadData_covers steps positive cell.isLt
      exact all ⟨j, member⟩ cell lower upper interior
    · rw [boards.edge cell outside, edge cell outside]
  · dsimp only
    rw [ptr_add_two, edge j outside]

/-- A thread arrives at the barrier. -/
theorem Inv.arrives (inv : Inv steps start s) (positive : 0 < threads) (pc : (s.workers k).pc = .barrier) :
    Inv steps start { s with
      shared := ⟨s.shared.boards, s.shared.barrier.arrive threads⟩
      workers := Function.update s.workers k { s.workers k with pc := .waiting s.shared.barrier.round } } := by
  obtain ⟨state, nextState, bound, phase⟩ := inv.workers k
  unfold Phase at phase
  rw [pc] at phase
  obtain ⟨more, finished⟩ := phase
  have party : (s.workers k).party = ⟨(s.workers k).i, none⟩ := by
    unfold Worker.party
    rw [pc]
  have outside : (s.workers k).party.seat = none := by rw [party]
  have barrier : (s.shared.barrier.arrive threads).Kept fun j =>
      (Function.update s.workers k { s.workers k with pc := .waiting s.shared.barrier.round } j).party := by
    refine inv.barrier.arrive (k := k) outside ?_ fun j other => ?_
    · rw [Function.update_self, party]
      rfl
    · rw [Function.update_of_ne other]
  by_cases last : s.shared.barrier.waiting + 1 = threads
  · have opened : s.shared.barrier.arrive threads = ⟨0, s.shared.barrier.round + 1⟩ := if_pos last
    have others : ∀ j, j ≠ k → (s.workers j).pc = .waiting s.shared.barrier.round := fun j other =>
      Worker.waiting_of_seat (inv.barrier.all_wait outside last j other)
    have all : ∀ j : Fin threads, (s.workers j).i < steps ∧ Finished (threadData threads width height steps j)
        (s.shared.boards (ptr s.shared.barrier.round)) (s.shared.boards (ptr (s.shared.barrier.round + 1))) := by
      intro j
      by_cases same : j = k
      · rw [same]
        exact ⟨more, finished⟩
      · have phase := (inv.workers j).phase
        unfold Phase at phase
        rw [others j same] at phase
        exact ⟨phase.1, phase.2 rfl⟩
    rw [opened] at barrier ⊢
    refine inv.moved (by rw [pc]; simp) (by rw [pc]; simp) (by simp) barrier
      (inv.boards.turn positive fun j => (all j).2) ⟨state, nextState, bound, ?_⟩ fun j other => ?_
    · exact ⟨more, fun same => absurd same (Nat.ne_of_lt (Nat.lt_succ_self _))⟩
    · obtain ⟨state, nextState, bound, _⟩ := inv.workers j
      refine ⟨state, nextState, bound, ?_⟩
      unfold Phase
      rw [others j other]
      exact ⟨(all j).1, fun same => absurd same (Nat.ne_of_lt (Nat.lt_succ_self _))⟩
  · have shut : s.shared.barrier.arrive threads = ⟨s.shared.barrier.waiting + 1, s.shared.barrier.round⟩ :=
      if_neg last
    rw [shut] at barrier ⊢
    exact inv.moved (by rw [pc]; simp) (by rw [pc]; simp) (by simp) barrier ⟨inv.boards.now, inv.boards.edge⟩
      ⟨state, nextState, bound, more, fun _ => finished⟩ fun j _ => inv.workers j

/-- A thread leaves the barrier. -/
theorem Inv.leaves {r : Nat} (inv : Inv steps start s) (pc : (s.workers k).pc = .waiting r)
    (past : r ≠ s.shared.barrier.round) :
    Inv steps start { s with
      shared := s.shared
      workers := Function.update s.workers k { s.workers k with pc := .swap } } := by
  obtain ⟨state, nextState, bound, phase⟩ := inv.workers k
  unfold Phase at phase
  rw [pc] at phase
  have party : (s.workers k).party = ⟨(s.workers k).i, some r⟩ := by
    unfold Worker.party
    rw [pc]
  have round := inv.barrier.rounds k
  unfold Barrier.Party.InRound at round
  rw [party] at round
  have passed : (s.workers k).i = r := round.1
  have barrier : s.shared.barrier.Kept fun j =>
      (Function.update s.workers k { s.workers k with pc := .swap } j).party := by
    refine inv.barrier.leave (k := k) (by rw [party]) past ?_ fun j other => ?_
    · rw [Function.update_self, ← passed]
      rfl
    · rw [Function.update_of_ne other]
  exact inv.moved (by rw [pc]; simp) (by rw [pc]; simp) (by simp) barrier inv.boards
    ⟨state, nextState, bound, phase.1⟩
    fun j _ => inv.workers j

end Moves

section Tests
variable {width height : Nat} {d : ThreadData} {now next : LifeBoard width height} {c g : Nat} {t : Worker}

/-- The test of the outer loop. -/
theorem Phase.head (bound : t.i ≤ d.steps) :
    Phase d now next g { t with pc := if t.i < d.steps then .cell d.startCell else .returned } := by
  by_cases more : t.i < d.steps
  · rw [if_pos more]
    exact ⟨more, le_rfl, fun j lower before _ => absurd lower (by omega)⟩
  · rw [if_neg more]
    exact Nat.le_antisymm bound (not_lt.mp more)

/-- The test of the inner loop and the test for the edge. -/
theorem Phase.cell (more : t.i < d.steps) (start : d.startCell ≤ c) (written : Written d now next c) :
    Phase d now next g { t with
      pc := if (c : Int) ≤ d.endCell then
        (if Interior width height c then .window c 0 0 else .cell (c + 1)) else .barrier } := by
  by_cases inside : (c : Int) ≤ d.endCell
  · rw [if_pos inside]
    by_cases interior : Interior width height c
    · rw [if_pos interior]
      exact ⟨more, ⟨start, inside, interior, written⟩, Nat.zero_le 9, rfl⟩
    · rw [if_neg interior]
      refine ⟨more, Nat.le_succ_of_le start, fun j lower before inner => ?_⟩
      refine written j lower (Nat.lt_of_le_of_ne (Nat.le_of_lt_succ before) ?_) inner
      rintro same
      exact interior (same ▸ inner)
  · rw [if_neg inside]
    exact ⟨more, fun j lower upper inner => written j lower (by omega) inner⟩

/-- The decision after the window has been counted. -/
theorem Phase.counted {live : Nat} (more : t.i < d.steps) (here : AtCell d now next c)
    (count : live = liveInWindow now (c % width) (c / width) 9) :
    Phase d now next g { t with pc := if live = 3 then .write c 1 else if live = 4 then .center c else .write c 0 } := by
  by_cases three : live = 3
  · rw [if_pos three]
    refine ⟨more, here, ?_⟩
    rw [nextAt, ← count, nextCell, if_pos (.inl three)]
  · rw [if_neg three]
    by_cases four : live = 4
    · rw [if_pos four]
      exact ⟨more, here, count ▸ four⟩
    · rw [if_neg four]
      refine ⟨more, here, ?_⟩
      rw [nextAt, ← count, nextCell, if_neg fun alive => alive.elim three fun both => four both.1]

/-- The value for a cell with four live cells in its window is that of the cell. -/
theorem nextAt_four (count : liveInWindow now (c % width) (c / width) 9 = 4) :
    nextAt now c = if now.at (c % width) (c / width) = 0 then 0 else 1 := by
  rw [nextAt, count, nextCell]
  by_cases dead : now.at (c % width) (c / width) = 0
  · rw [if_pos dead, if_neg fun alive => alive.elim (by decide) fun both => both.2 dead]
  · rw [if_neg dead, if_pos (.inr ⟨rfl, dead⟩)]

end Tests

end OsLabs.Life
