import Mathlib.Logic.Function.Basic
import Mathlib.Data.List.Basic

namespace OsLabs.Pool

/-- A `Task` object handed to `SubmitTask`; `id` tells the objects apart. -/
structure Task (Name : Type) where
  id : Nat
  taskname : Name
  deriving DecidableEq

/-- The threads of the pool and the threads that use it. -/
inductive Thread (n : Nat) (Client : Type)
  | worker (w : Fin n)
  | client (c : Client)
  deriving DecidableEq

/-- `queue_lock`, `map_lock` and `stop_lock`. -/
inductive Lock
  | queue | map | stop
  deriving DecidableEq

/-- Where a worker is in `run_task`. Inside `stopHeld`, `queueHeld`, `signalling` and `closing`
it holds a lock; at `signalling` the status is stored and the signal is still to come. -/
inductive Stage (Name : Type)
  | atLoop
  | stopHeld (stop : Bool)
  | fetching
  | queueHeld (task : Option (Task Name))
  | taken (task : Task Name)
  | running (task : Task Name)
  | ran (task : Task Name)
  | deleted (task : Task Name)
  | signalling (task : Task Name)
  | closing
  | exited

/-- Where a thread is in a call of `SubmitTask` (before it locks the queue, after it has pushed
the task, after it has filled the maps, after it has released the maps), of `WaitForTask` (before
its first lock, at the test of its loop, asleep on a condition variable, awake and without the
lock) or of `Stop`. At `thrown` a call of `at` has thrown, and nothing catches it. -/
inductive Call (Name : Type)
  | outside
  | submitting (task : Task Name)
  | pushed (task : Task Name)
  | inserted (task : Task Name)
  | mapLeft (task : Task Name)
  | waiting (name : Name)
  | testing (name : Name)
  | sleeping (name : Name) (condvar : Nat)
  | woken (name : Name)
  | thrown
  | stopping
  | stopSet
  | joining (next : Nat)

/-- What has happened so far: the calls of `SubmitTask`, the tasks pushed and the calls that have
returned; the tasks each worker has popped, has called `Run` of, has seen `Run` return of, has
deleted and has recorded as done; the calls of `WaitForTask`, those that have returned, and the
number of calls of `Stop`. -/
structure Log (n : Nat) (Name : Type) where
  called : List (Task Name)
  pushed : List (Task Name)
  returned : List (Task Name)
  popped : List (Fin n × Task Name)
  run : List (Fin n × Task Name)
  ran : List (Fin n × Task Name)
  deleted : List (Fin n × Task Name)
  completed : List (Fin n × Task Name)
  waits : List Name
  waited : List Name
  stops : Nat

/-- The fields of a `ThreadPool`, who holds its locks, where every thread is, and the log. A
condition variable is known by the order of its initialisation, which `condvars` counts. -/
structure ThreadPool (n : Nat) (Client Name : Type) where
  taskQueue : List (Task Name)
  stopCalled : Bool
  tasknameToCondvar : Name → Option Nat
  tasknameToStatus : Name → Option Nat
  locks : Lock → Option (Thread n Client)
  workers : Fin n → Stage Name
  calls : Thread n Client → Call Name
  condvars : Nat
  log : Log n Name

section Model
variable {n : Nat} {Client Name : Type}

/-- The pool after its constructor, before any worker has run. -/
def init : ThreadPool n Client Name where
  taskQueue := []
  stopCalled := false
  tasknameToCondvar := fun _ => none
  tasknameToStatus := fun _ => none
  locks := fun _ => none
  workers := fun _ => .atLoop
  calls := fun _ => .outside
  condvars := 0
  log := ⟨[], [], [], [], [], [], [], [], [], [], 0⟩

/-- Client code and the `Run` of a task may call the pool. -/
def ThreadPool.Ready (s : ThreadPool n Client Name) : Thread n Client → Prop
  | .client c => s.calls (.client c) = .outside
  | .worker w => s.calls (.worker w) = .outside ∧ ∃ task, s.workers w = .running task

variable [DecidableEq Name]

/-- `std::map::insert`: a key that is present keeps its value. -/
def insert {V : Type} (m : Name → Option V) (name : Name) (value : V) : Name → Option V :=
  if (m name).isSome then m else Function.update m name (some value)

theorem insert_eq {V : Type} (m : Name → Option V) (name other : Name) (value : V) :
    insert m name value other = if other = name then some ((m name).getD value) else m other := by
  unfold insert
  by_cases same : other = name
  · subst same
    cases here : m other <;> simp [here]
  · cases m name <;> simp [same]

/-- The condition variable `taskname_to_condvar[name]` denotes, a new one if there is none. -/
def ThreadPool.condvarAt (s : ThreadPool n Client Name) (name : Name) : Nat :=
  (s.tasknameToCondvar name).getD s.condvars

/-- The calls that programs make. -/
inductive Request (Name : Type)
  | submitTask (name : Name)
  | waitForTask (name : Name)
  | stop

variable [DecidableEq Client]

open Function in
/-- One step of one thread. A step that takes a lock also does what the code does first under
that lock, and a step that releases one what it does last. -/
inductive Step : ThreadPool n Client Name → Option (Request Name) → ThreadPool n Client Name → Prop
  -- SubmitTask
  | submit {s} (x : Thread n Client) (name : Name) (ready : s.Ready x) :
    Step s (some (.submitTask name))
      { s with
        calls := update s.calls x (.submitting ⟨s.log.called.length, name⟩)
        log := { s.log with called := s.log.called ++ [⟨s.log.called.length, name⟩] } }
  | lockQueue {s} {x : Thread n Client} {task : Task Name} (here : s.calls x = .submitting task)
    (free : s.locks .queue = none) :
    Step s none
      { s with
        taskQueue := s.taskQueue ++ [task]
        locks := update s.locks .queue (some x)
        calls := update s.calls x (.pushed task)
        log := { s.log with pushed := s.log.pushed ++ [task] } }
  | lockMap {s} {x : Thread n Client} {task : Task Name} (here : s.calls x = .pushed task)
    (free : s.locks .map = none) :
    Step s none
      { s with
        tasknameToCondvar := insert s.tasknameToCondvar task.taskname s.condvars
        tasknameToStatus := insert s.tasknameToStatus task.taskname 0
        locks := update s.locks .map (some x)
        calls := update s.calls x (.inserted task)
        condvars := s.condvars + 1 }
  | unlockMap {s} {x : Thread n Client} {task : Task Name} (here : s.calls x = .inserted task) :
    Step s none
      { s with
        locks := update s.locks .map none
        calls := update s.calls x (.mapLeft task) }
  | unlockQueue {s} {x : Thread n Client} {task : Task Name} (here : s.calls x = .mapLeft task) :
    Step s none
      { s with
        locks := update s.locks .queue none
        calls := update s.calls x .outside
        log := { s.log with returned := s.log.returned ++ [task] } }
  -- WaitForTask
  | wait {s} (x : Thread n Client) (name : Name) (ready : s.Ready x) :
    Step s (some (.waitForTask name))
      { s with
        calls := update s.calls x (.waiting name)
        log := { s.log with waits := s.log.waits ++ [name] } }
  | enter {s} {x : Thread n Client} {name : Name} (here : s.calls x = .waiting name ∨ s.calls x = .woken name)
    (free : s.locks .map = none) :
    Step s none
      { s with
        locks := update s.locks .map (some x)
        calls := update s.calls x (.testing name) }
  | throw {s} {x : Thread n Client} {name : Name} (here : s.calls x = .testing name)
    (missing : s.tasknameToStatus name = none ∨ s.tasknameToStatus name = some 0 ∧ s.tasknameToCondvar name = none) :
    Step s none { s with calls := update s.calls x .thrown }
  | sleep {s} {x : Thread n Client} {name : Name} {condvar : Nat} (here : s.calls x = .testing name)
    (status : s.tasknameToStatus name = some 0) (found : s.tasknameToCondvar name = some condvar) :
    Step s none
      { s with
        locks := update s.locks .map none
        calls := update s.calls x (.sleeping name condvar) }
  | spurious {s} {x : Thread n Client} {name : Name} {condvar : Nat} (here : s.calls x = .sleeping name condvar) :
    Step s none { s with calls := update s.calls x (.woken name) }
  | finish {s} {x : Thread n Client} {name : Name} {status : Nat} (here : s.calls x = .testing name)
    (found : s.tasknameToStatus name = some status) (nonzero : status ≠ 0) :
    Step s none
      { s with
        tasknameToCondvar := update s.tasknameToCondvar name none
        tasknameToStatus := update s.tasknameToStatus name none
        locks := update s.locks .map none
        calls := update s.calls x .outside
        log := { s.log with waited := s.log.waited ++ [name] } }
  -- run_task
  | checkStop {s} {w : Fin n} (here : s.workers w = .atLoop) (free : s.locks .stop = none) :
    Step s none
      { s with
        locks := update s.locks .stop (some (.worker w))
        workers := update s.workers w (.stopHeld s.stopCalled) }
  | leaveStop {s} {w : Fin n} {stop : Bool} (here : s.workers w = .stopHeld stop) :
    Step s none
      { s with
        locks := update s.locks .stop none
        workers := update s.workers w (if stop then .exited else .fetching) }
  | popNothing {s} {w : Fin n} (here : s.workers w = .fetching) (free : s.locks .queue = none)
    (empty : s.taskQueue = []) :
    Step s none
      { s with
        locks := update s.locks .queue (some (.worker w))
        workers := update s.workers w (.queueHeld none) }
  | pop {s} {w : Fin n} {task : Task Name} {rest : List (Task Name)} (here : s.workers w = .fetching)
    (free : s.locks .queue = none) (front : s.taskQueue = task :: rest) :
    Step s none
      { s with
        taskQueue := rest
        locks := update s.locks .queue (some (.worker w))
        workers := update s.workers w (.queueHeld (some task))
        log := { s.log with popped := s.log.popped ++ [(w, task)] } }
  | leaveQueue {s} {w : Fin n} {task : Option (Task Name)} (here : s.workers w = .queueHeld task) :
    Step s none
      { s with
        locks := update s.locks .queue none
        workers := update s.workers w (task.elim .atLoop .taken) }
  | run {s} {w : Fin n} {task : Task Name} (here : s.workers w = .taken task) :
    Step s none
      { s with
        workers := update s.workers w (.running task)
        log := { s.log with run := s.log.run ++ [(w, task)] } }
  | runReturns {s} {w : Fin n} {task : Task Name} (here : s.workers w = .running task)
    (idle : s.calls (.worker w) = .outside) :
    Step s none
      { s with
        workers := update s.workers w (.ran task)
        log := { s.log with ran := s.log.ran ++ [(w, task)] } }
  | delete {s} {w : Fin n} {task : Task Name} (here : s.workers w = .ran task) :
    Step s none
      { s with
        workers := update s.workers w (.deleted task)
        log := { s.log with deleted := s.log.deleted ++ [(w, task)] } }
  | complete {s} {w : Fin n} {task : Task Name} (here : s.workers w = .deleted task)
    (free : s.locks .map = none) :
    Step s none
      { s with
        tasknameToStatus := update s.tasknameToStatus task.taskname (some 1)
        locks := update s.locks .map (some (.worker w))
        workers := update s.workers w (.signalling task)
        log := { s.log with completed := s.log.completed ++ [(w, task)] } }
  | signalNobody {s} {w : Fin n} {task : Task Name} (here : s.workers w = .signalling task)
    (nobody : ∀ x name, s.calls x ≠ .sleeping name (s.condvarAt task.taskname)) :
    Step s none
      { s with
        tasknameToCondvar := insert s.tasknameToCondvar task.taskname s.condvars
        workers := update s.workers w .closing
        condvars := s.condvars + 1 }
  | signal {s} {w : Fin n} {task : Task Name} {x : Thread n Client} {name : Name}
    (here : s.workers w = .signalling task) (asleep : s.calls x = .sleeping name (s.condvarAt task.taskname)) :
    Step s none
      { s with
        tasknameToCondvar := insert s.tasknameToCondvar task.taskname s.condvars
        workers := update s.workers w .closing
        calls := update s.calls x (.woken name)
        condvars := s.condvars + 1 }
  | leaveMap {s} {w : Fin n} (here : s.workers w = .closing) :
    Step s none
      { s with
        locks := update s.locks .map none
        workers := update s.workers w .atLoop }
  -- Stop
  | stop {s} (c : Client) (ready : s.Ready (.client c)) :
    Step s (some .stop)
      { s with
        calls := update s.calls (.client c) .stopping
        log := { s.log with stops := s.log.stops + 1 } }
  | setStop {s} {c : Client} (here : s.calls (.client c) = .stopping) (free : s.locks .stop = none) :
    Step s none
      { s with
        stopCalled := true
        locks := update s.locks .stop (some (.client c))
        calls := update s.calls (.client c) .stopSet }
  | unlockStop {s} {c : Client} (here : s.calls (.client c) = .stopSet) :
    Step s none
      { s with
        locks := update s.locks .stop none
        calls := update s.calls (.client c) (.joining 0) }
  | join {s} {c : Client} {w : Fin n} (here : s.calls (.client c) = .joining w) (exited : s.workers w = .exited) :
    Step s none { s with calls := update s.calls (.client c) (.joining (w + 1)) }
  | stopped {s} {c : Client} (here : s.calls (.client c) = .joining n) :
    Step s none { s with calls := update s.calls (.client c) .outside }

/-- The states of a pool whose users make a call only when `allowed` holds. -/
inductive Run (allowed : ThreadPool n Client Name → Request Name → Prop) : ThreadPool n Client Name → Prop
  | start : Run allowed init
  | next {s s' : ThreadPool n Client Name} {a : Option (Request Name)} (earlier : Run allowed s)
    (permitted : ∀ r, a = some r → allowed s r) (step : Step s a s') : Run allowed s'

theorem Run.silent {allowed : ThreadPool n Client Name → Request Name → Prop} {s s' : ThreadPool n Client Name}
    (earlier : Run allowed s) (step : Step s none s') : Run allowed s' :=
  .next earlier (fun _ request => by cases request) step

theorem Run.request {allowed : ThreadPool n Client Name → Request Name → Prop} {s s' : ThreadPool n Client Name}
    {r : Request Name} (earlier : Run allowed s) (permitted : allowed s r)
    (step : Step s (some r) s') : Run allowed s' :=
  .next earlier (fun _ request => Option.some.inj request ▸ permitted) step

/-- Any use of the pool. -/
def anyUse (_ : ThreadPool n Client Name) (_ : Request Name) : Prop := True

theorem Run.any {allowed : ThreadPool n Client Name → Request Name → Prop} {s : ThreadPool n Client Name}
    (run : Run allowed s) : Run anyUse s := by
  induction run with
  | start => exact .start
  | next _ _ step ih => exact .next ih (fun _ _ => trivial) step

end Model

end OsLabs.Pool
