import OsLabs.Lib.Barrier
import OsLabs.Lib.Interleaving
import OsLabs.Life.Board
import OsLabs.Life.WorkSplit

namespace OsLabs.Life

/-- The two boards of `simulate_life_parallel`: the caller's and the copy made at the start. -/
inductive BoardPtr
  | argument | copy
  deriving DecidableEq, Repr

/-- The arguments of a thread. -/
structure ThreadData where
  steps : Nat
  startCell : Nat
  endCell : Int

/-- The share of thread `i`. -/
def threadData (threads width height steps i : Nat) : ThreadData :=
  let numCellsPerThread := width * height / threads
  let extraCells := width * height % threads
  let startCell := if i < extraCells then i * (numCellsPerThread + 1) else i * numCellsPerThread + extraCells
  ⟨steps, startCell, if i < extraCells then startCell + numCellsPerThread else startCell + numCellsPerThread - 1⟩

/-- Where a thread is in `thread_simulate_life`: before the test of the outer loop, before
the test of the inner loop, before read `j` of the window, before the read of the cell itself,
before the write, before the barrier, inside it since round `r`, before the swap. -/
inductive Pc
  | absent
  | head
  | cell (ithCell : Nat)
  | window (ithCell j live : Nat)
  | center (ithCell : Nat)
  | write (ithCell : Nat) (v : LifeCell)
  | barrier
  | waiting (r : Nat)
  | swap
  | returned
  deriving DecidableEq

/-- The local variables of a thread, with its own copies of the two pointers. -/
structure Worker where
  pc : Pc
  i : Nat
  state : BoardPtr
  nextState : BoardPtr

/-- What the threads share. -/
structure Shared (width height : Nat) where
  boards : BoardPtr → LifeBoard width height
  barrier : Barrier

/-- The main thread: creating thread `k`, joining thread `k`, before the copy at the end. -/
inductive MainPc
  | create (k : Nat)
  | join (k : Nat)
  | copyBack
  | done
  deriving DecidableEq

structure Simulation (threads width height : Nat) where
  shared : Shared width height
  workers : Fin threads → Worker
  main : MainPc

section Steps
variable {threads width height : Nat}

/-- One step of a thread: a test, one read or one write of a cell, an arrival at the barrier,
a departure from it, or the swap. None is a thread that cannot step. -/
def workerStep (threads : Nat) (d : ThreadData) (m : Shared width height) (t : Worker) :
    Option (Worker × Shared width height) :=
  match t.pc with
  | .absent => none
  | .head => some ({ t with pc := if t.i < d.steps then .cell d.startCell else .returned }, m)
  | .cell c =>
    some ({ t with
      pc := if (c : Int) ≤ d.endCell then (if Interior width height c then .window c 0 0 else .cell (c + 1)) else .barrier }, m)
  | .window c j live =>
    if j < 9 then
      let read := (m.boards t.state).at (c % width + j % 3 - 1) (c / width + j / 3 - 1)
      some ({ t with pc := .window c (j + 1) (live + if read = 0 then 0 else 1) }, m)
    else some ({ t with pc := if live = 3 then .write c 1 else if live = 4 then .center c else .write c 0 }, m)
  | .center c =>
    some ({ t with pc := .write c (if (m.boards t.state).at (c % width) (c / width) = 0 then 0 else 1) }, m)
  | .write c v =>
    some ({ t with pc := .cell (c + 1) },
      { m with boards := Function.update m.boards t.nextState ((m.boards t.nextState).set (c % width) (c / width) v) })
  | .barrier => some ({ t with pc := .waiting m.barrier.round }, { m with barrier := m.barrier.arrive threads })
  | .waiting r => if r = m.barrier.round then none else some ({ t with pc := .swap }, m)
  | .swap => some ({ pc := .head, i := t.i + 1, state := t.nextState, nextState := t.state }, m)
  | .returned => none

/-- One step of the main thread; `pthread_join` waits until the thread has returned. -/
def mainStep (steps : Nat) (s : Simulation threads width height) : Option (Simulation threads width height) :=
  match s.main with
  | .create k =>
    if bound : k < threads then
      some { s with
        workers := Function.update s.workers ⟨k, bound⟩ { s.workers ⟨k, bound⟩ with pc := .head }
        main := .create (k + 1) }
    else some { s with main := .join 0 }
  | .join k =>
    if bound : k < threads then
      if (s.workers ⟨k, bound⟩).pc = .returned then some { s with main := .join (k + 1) } else none
    else some { s with main := .copyBack }
  | .copyBack =>
    some { s with
      shared := { s.shared with
        boards := if steps % 2 = 1 then Function.update s.shared.boards .argument (s.shared.boards .copy)
          else s.shared.boards }
      main := .done }
  | .done => none

/-- A step of the simulation: one of the threads moves. -/
inductive Step (steps : Nat) (s : Simulation threads width height) : Simulation threads width height → Prop
  | worker (k : Fin threads) (t : Worker) (m : Shared width height) :
      workerStep threads (threadData threads width height steps k) s.shared (s.workers k) = some (t, m) →
      Step steps s { s with shared := m, workers := Function.update s.workers k t }
  | main (t : Simulation threads width height) : mainStep steps s = some t → Step steps s t

/-- The move of thread `k`, or of the main thread; a thread that cannot step stays where it is. -/
def move (steps : Nat) (s : Simulation threads width height) : Option (Fin threads) → Simulation threads width height
  | none => (mainStep steps s).getD s
  | some k =>
    match workerStep threads (threadData threads width height steps k) s.shared (s.workers k) with
    | some (t, m) => { s with shared := m, workers := Function.update s.workers k t }
    | none => s

/-- The simulation under a schedule. -/
def play (steps : Nat) : Simulation threads width height → List (Option (Fin threads)) → Simulation threads width height
  | s, [] => s
  | s, k :: schedule => play steps (move steps s k) schedule

theorem move_run (steps : Nat) (s : Simulation threads width height) (k : Option (Fin threads)) :
    Relation.ReflTransGen (Step steps) s (move steps s k) := by
  cases k with
  | none =>
    simp only [move]
    cases step : mainStep steps s with
    | none => exact .refl
    | some t => exact .single (.main t step)
  | some k =>
    simp only [move]
    cases step : workerStep threads (threadData threads width height steps k) s.shared (s.workers k) with
    | none => exact .refl
    | some moved => exact .single (.worker k moved.1 moved.2 step)

theorem play_run (steps : Nat) (s : Simulation threads width height) (schedule : List (Option (Fin threads))) :
    Relation.ReflTransGen (Step steps) s (play steps s schedule) := by
  induction schedule generalizing s with
  | nil => exact .refl
  | cons k schedule ih => exact (move_run steps s k).trans (ih _)

/-- `simulate_life_parallel` before its first thread is created. -/
def begin (threads : Nat) (state : LifeBoard width height) : Simulation threads width height where
  shared := ⟨fun _ => state, ⟨0, 0⟩⟩
  workers := fun _ => ⟨.absent, 0, .argument, .copy⟩
  main := .create 0

/-- The cell a thread reads next, and the board it lies on. -/
def Worker.reads (width : Nat) (t : Worker) : Option (BoardPtr × Nat × Nat) :=
  match t.pc with
  | .window c j _ => if j < 9 then some (t.state, c % width + j % 3 - 1, c / width + j / 3 - 1) else none
  | .center c => some (t.state, c % width, c / width)
  | _ => none

/-- The board a thread may still write to in the present step of its outer loop. -/
def Worker.mayWrite (t : Worker) : Option BoardPtr :=
  match t.pc with
  | .absent | .head | .cell _ | .window _ _ _ | .center _ | .write _ _ => some t.nextState
  | .barrier | .waiting _ | .swap | .returned => none

end Steps

section Shares
variable {threads width height steps : Nat}

/-- The share of a thread lies between two cuts. -/
theorem threadData_cut (width height steps k : Nat) (threads : Nat) :
    ((threadData threads width height steps k).startCell : Int) =
        cut (width * height / threads : Nat) (width * height % threads : Nat) k ∧
      (threadData threads width height steps k).endCell =
        cut (width * height / threads : Nat) (width * height % threads : Nat) (k + 1) - 1 := by
  rw [cut_succ]
  unfold threadData cut
  generalize width * height / threads = num
  generalize width * height % threads = extra
  dsimp only
  by_cases front : k < extra
  · have expand : k * (num + 1) = k * num + k := Nat.mul_succ k num
    rw [if_pos front, if_pos front, if_pos (Int.ofNat_lt.mpr front), min_eq_left (Int.ofNat_le.mpr front.le), expand]
    push_cast
    omega
  · rw [if_neg front, if_neg front, if_neg fun less => front (Int.ofNat_lt.mp less),
      min_eq_right (Int.ofNat_le.mpr (not_lt.mp front))]
    push_cast
    omega

/-- The cuts of the shares end at the last cell. -/
theorem cut_cells (width height : Nat) (positive : 0 < threads) :
    cut (width * height / threads : Nat) (width * height % threads : Nat) threads = (width * height : Nat) := by
  rw [cut_threads (Int.ofNat_le.mpr (Nat.mod_lt _ positive).le)]
  exact_mod_cast Nat.div_add_mod (width * height) threads

/-- Every cell belongs to some thread. -/
theorem threadData_covers (steps : Nat) (positive : 0 < threads) {c : Nat} (inside : c < width * height) :
    ∃ k, k < threads ∧ (threadData threads width height steps k).startCell ≤ c ∧
      (c : Int) ≤ (threadData threads width height steps k).endCell := by
  have monotone : Monotone (cut (width * height / threads : Nat) (width * height % threads : Nat)) := fun _ _ =>
    cut_monotone (Int.natCast_nonneg _)
  have covered : cut (width * height / threads : Nat) (width * height % threads : Nat) 0 ≤ c ∧
      (c : Int) < cut (width * height / threads : Nat) (width * height % threads : Nat) threads := by
    rw [cut_zero (Int.natCast_nonneg _), cut_cells width height positive]
    exact ⟨Int.natCast_nonneg c, Int.ofNat_lt.mpr inside⟩
  obtain ⟨k, member, lower, upper⟩ := (Slices.mem_iff monotone threads c).mpr covered
  obtain ⟨start, last⟩ := threadData_cut width height steps k threads
  exact ⟨k, member, by omega, by omega⟩

/-- The share of a thread ends inside the board. -/
theorem threadData_inside (width height steps : Nat) {k : Nat} (member : k < threads) :
    (threadData threads width height steps k).endCell < (width * height : Nat) := by
  have upper := @cut_monotone (width * height / threads : Nat) (width * height % threads : Nat)
      (Int.natCast_nonneg _) _ _
    (Nat.succ_le_of_lt member)
  rw [cut_cells width height (Nat.zero_lt_of_lt member)] at upper
  rw [(threadData_cut width height steps k threads).2]
  exact Int.sub_one_lt_of_le upper

end Shares

end OsLabs.Life
