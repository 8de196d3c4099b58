import OsLabs.Pool.Locking

namespace OsLabs.Pool
open Interleaving Locks

variable {n : Nat} {Client Name : Type} [DecidableEq Name] [DecidableEq Client] {s s' : ThreadPool n Client Name}
  {a : Option (Request Name)}

/-- The name a thread waits for in `WaitForTask`. -/
def Call.awaited : Call Name → Option Name
  | .waiting name => some name
  | .testing name => some name
  | .sleeping name _ => some name
  | .woken name => some name
  | _ => none

/-- Two threads never wait for one name at the same time. -/
def oneWaiter (s : ThreadPool n Client Name) : Request Name → Prop
  | .waitForTask name => ∀ x, (s.calls x).awaited ≠ some name
  | _ => True

/-- Each name is waited for by one thread. -/
def Alone (calls : Thread n Client → Call Name) : Prop :=
  ∀ x y name, (calls x).awaited = some name → (calls y).awaited = some name → x = y

section Alone
variable {calls : Thread n Client → Call Name} {x : Thread n Client}

omit [DecidableEq Name] in
theorem Alone.move (alone : Alone calls) {call : Call Name}
    (sound : ∀ name, call.awaited = some name → ∀ y, y ≠ x → (calls y).awaited ≠ some name) :
    Alone (Function.update calls x call) := by
  intro y z name atName atName'
  rcases moved Call.awaited atName with ⟨atX, new⟩ | ⟨away, old⟩ <;>
  rcases moved Call.awaited atName' with ⟨atX', new'⟩ | ⟨away', old'⟩
  · exact atX.trans atX'.symm
  · exact absurd old' (sound name new z away')
  · exact absurd old (sound name new' y away)
  · exact alone y z name old old'

omit [DecidableEq Name] in
/-- A thread that goes on waiting for the name it waits for disturbs nobody. -/
theorem Alone.keep (alone : Alone calls) {call : Call Name}
    (same : ∀ name, call.awaited = some name → (calls x).awaited = some name) :
    Alone (Function.update calls x call) :=
  alone.move fun name atName _ away atName' => away (alone _ _ name atName' (same name atName))

end Alone

theorem Alone.step (alone : Alone s.calls) (step : Step s a s')
    (permitted : ∀ name, a = some (.waitForTask name) → ∀ x, (s.calls x).awaited ≠ some name) : Alone s'.calls := by
  cases step with
  | wait x name ready =>
    exact alone.move fun other atName y _ => by
      cases atName
      exact permitted name rfl y
  | submit | lockQueue | lockMap | unlockMap | unlockQueue | throw | finish | stop | setStop | unlockStop | join
    | stopped => exact alone.keep (by simp [Call.awaited])
  | sleep here | spurious here => exact alone.keep (by rw [here]; exact fun _ same => same)
  | enter here =>
    rcases here with here | here <;>
    exact alone.keep (by rw [here]; exact fun _ same => same)
  | signal here asleep => exact alone.keep (by rw [asleep]; exact fun _ same => same)
  | _ => exact alone

/-- The condition variables in the map differ from each other and from those to come. -/
structure Condvars (condvar : Name → Option Nat) (count : Nat) : Prop where
  old : ∀ name c, condvar name = some c → c < count
  distinct : ∀ name name' c, condvar name = some c → condvar name' = some c → name = name'

section Condvars
variable {condvar : Name → Option Nat} {count : Nat}

theorem Condvars.enter (condvars : Condvars condvar count) (name : Name) :
    Condvars (insert condvar name count) (count + 1) := by
  have new : ∀ other c, insert condvar name count other = some c → condvar other = some c ∨ other = name ∧
      c = count := by
    intro other c found
    rw [insert_eq] at found
    by_cases same : other = name
    · subst same
      cases here : condvar other <;> simp_all
    · exact .inl (by rwa [if_neg same] at found)
  constructor
  · intro other c found
    rcases new other c found with old | ⟨_, rfl⟩
    · exact (condvars.old other c old).trans (Nat.lt_succ_self _)
    · exact Nat.lt_succ_self _
  · intro other other' c found found'
    rcases new other c found with old | ⟨rfl, rfl⟩ <;> rcases new other' _ found' with old' | ⟨rfl, equal⟩
    · exact condvars.distinct other other' c old old'
    · exact absurd (equal ▸ condvars.old other c old) (lt_irrefl _)
    · exact absurd (condvars.old other' _ old') (lt_irrefl _)
    · rfl

theorem Condvars.erase (condvars : Condvars condvar count) (name : Name) :
    Condvars (Function.update condvar name none) count := by
  have old : ∀ other c, Function.update condvar name none other = some c → condvar other = some c := by
    intro other c found
    rcases moved_to found with ⟨_, none⟩ | ⟨_, old⟩
    · cases none
    · exact old
  exact ⟨fun other c found => condvars.old other c (old other c found),
    fun other other' c found found' => condvars.distinct other other' c (old _ c found) (old _ c found')⟩

end Condvars

theorem Condvars.step (condvars : Condvars s.tasknameToCondvar s.condvars) (step : Step s a s') :
    Condvars s'.tasknameToCondvar s'.condvars := by
  cases step with
  | lockMap | signalNobody | signal => exact condvars.enter _
  | finish => exact condvars.erase _
  | _ => exact condvars

/-- A thread asleep sleeps on the condition variable of its name, and if its task is recorded as
done, the worker that has recorded it is still to signal. -/
structure Asleep (condvar status : Name → Option Nat) (workers : Fin n → Stage Name)
    (calls : Thread n Client → Call Name) : Prop where
  condvar : ∀ x name c, calls x = .sleeping name c → condvar name = some c
  pending : ∀ x name c, calls x = .sleeping name c → status name = some 1 →
    ∃ w task, workers w = .signalling task ∧ task.taskname = name

section Asleep
variable {condvar status : Name → Option Nat} {workers : Fin n → Stage Name} {calls : Thread n Client → Call Name}
  {x y : Thread n Client} {call : Call Name} {w : Fin n} {name : Name} {c : Nat}

omit [DecidableEq Name] in
/-- A thread that is asleep after another one has gone on was asleep before. -/
theorem sleeping_update (awake : ∀ name c, call ≠ .sleeping name c)
    (here : Function.update calls x call y = .sleeping name c) : y ≠ x ∧ calls y = .sleeping name c :=
  (moved_to here).resolve_left fun ⟨_, asleep⟩ => awake name c asleep

omit [DecidableEq Name] in
theorem Asleep.move (asleep : Asleep condvar status workers calls) (awake : ∀ name c, call ≠ .sleeping name c) :
    Asleep condvar status workers (Function.update calls x call) :=
  ⟨fun y name c here => asleep.condvar y name c (sleeping_update awake here).2,
    fun y name c here => asleep.pending y name c (sleeping_update awake here).2⟩

omit [DecidableEq Name] [DecidableEq Client] in
/-- A worker that has nothing to signal may go on. -/
theorem Asleep.work (asleep : Asleep condvar status workers calls) {stage next : Stage Name}
    (here : workers w = stage)
    (quiet : ∀ task, stage ≠ .signalling task) : Asleep condvar status (Function.update workers w next) calls := by
  refine ⟨asleep.condvar, fun x name c sleeps done => ?_⟩
  obtain ⟨v, task, signals, named⟩ := asleep.pending x name c sleeps done
  have away : v ≠ w := by
    rintro rfl
    exact quiet task (here ▸ signals)
  exact ⟨v, task, by rw [Function.update_of_ne away, signals], named⟩

omit [DecidableEq Client] in
theorem Asleep.enter (asleep : Asleep condvar status workers calls) (name : Name) (count : Nat) :
    Asleep (insert condvar name count) (insert status name 0) workers calls := by
  constructor
  · intro x other c sleeps
    have old := asleep.condvar x other c sleeps
    rw [insert_eq]
    by_cases same : other = name
    · subst same
      simp [old]
    · rwa [if_neg same]
  · intro x other c sleeps done
    refine asleep.pending x other c sleeps ?_
    rw [insert_eq] at done
    by_cases same : other = name
    · subst same
      cases here : status other <;> simp_all
    · rwa [if_neg same] at done

omit [DecidableEq Name] in
/-- A thread goes to sleep while its task is not done. -/
theorem Asleep.sleep (asleep : Asleep condvar status workers calls) (found : condvar name = some c)
    (notDone : status name = some 0) :
      Asleep condvar status workers (Function.update calls x (.sleeping name c)) := by
  constructor
  · intro y other c' sleeps
    rcases moved_to sleeps with ⟨_, new⟩ | ⟨_, old⟩
    · cases new
      exact found
    · exact asleep.condvar y other c' old
  · intro y other c' sleeps done
    rcases moved_to sleeps with ⟨_, new⟩ | ⟨_, old⟩
    · cases new
      simp [notDone] at done
    · exact asleep.pending y other c' old done

/-- The only thread that waits for a name removes its entries. -/
theorem Asleep.erase (asleep : Asleep condvar status workers calls) (alone : Alone calls)
    (here : calls x = .testing name) :
      Asleep (Function.update condvar name none) (Function.update status name none) workers
      (Function.update calls x .outside) := by
  have others : ∀ y other c, Function.update calls x .outside y = .sleeping other c →
      calls y = .sleeping other c ∧ other ≠ name := by
    intro y other c sleeps
    obtain ⟨away, old⟩ := sleeping_update (by simp) sleeps
    refine ⟨old, ?_⟩
    rintro rfl
    exact away (alone y x other (by rw [old]; rfl) (by rw [here]; rfl))
  constructor
  · intro y other c sleeps
    obtain ⟨old, away⟩ := others y other c sleeps
    rw [Function.update_of_ne away]
    exact asleep.condvar y other c old
  · intro y other c sleeps done
    obtain ⟨old, away⟩ := others y other c sleeps
    rw [Function.update_of_ne away] at done
    exact asleep.pending y other c old done

omit [DecidableEq Client] in
/-- The worker that records a task as done has yet to signal. -/
theorem Asleep.record (asleep : Asleep condvar status workers calls) {task : Task Name}
    (here : workers w = .deleted task) :
    Asleep condvar (Function.update status task.taskname (some 1))
      (Function.update workers w (.signalling task)) calls := by
  refine ⟨asleep.condvar, fun x name c sleeps done => ?_⟩
  by_cases same : name = task.taskname
  · exact ⟨w, task, Function.update_self .., same.symm⟩
  · rw [Function.update_of_ne same] at done
    exact (asleep.work here (by simp)).pending x name c sleeps done

omit [DecidableEq Client] in
/-- When a worker signals a condition variable nobody is asleep on, nobody is asleep on it. -/
theorem Asleep.signal (asleep : Asleep condvar status workers calls) {task : Task Name} {count : Nat}
    {next : Stage Name}
    (nobody : ∀ x c, calls x ≠ .sleeping task.taskname c) (here : workers w = .signalling task) :
    Asleep (insert condvar task.taskname count) status (Function.update workers w next) calls := by
  constructor
  · intro x name c sleeps
    have old := asleep.condvar x name c sleeps
    have away : name ≠ task.taskname := by
      rintro rfl
      exact nobody x c sleeps
    rwa [insert_eq, if_neg away]
  · intro x name c sleeps done
    obtain ⟨v, other, signals, named⟩ := asleep.pending x name c sleeps done
    have away : v ≠ w := by
      rintro rfl
      rw [here, Stage.signalling.injEq] at signals
      subst signals
      exact nobody x c (named ▸ sleeps)
    exact ⟨v, other, by rw [Function.update_of_ne away, signals], named⟩

end Asleep

omit [DecidableEq Name] [DecidableEq Client] in
/-- A thread asleep for the name of the task a worker signals is asleep on the condition
variable it signals. -/
theorem Asleep.target (asleep : Asleep s.tasknameToCondvar s.tasknameToStatus s.workers s.calls) {x : Thread n Client}
    {name : Name} {c : Nat} (sleeps : s.calls x = .sleeping name c) : s.condvarAt name = c := by
  rw [ThreadPool.condvarAt, asleep.condvar x name c sleeps, Option.getD_some]

omit [DecidableEq Name] [DecidableEq Client] in
/-- The thread that a signal wakes is the one that waits for the task. -/
theorem Asleep.woken (asleep : Asleep s.tasknameToCondvar s.tasknameToStatus s.workers s.calls)
    (condvars : Condvars s.tasknameToCondvar s.condvars) (alone : Alone s.calls) {x y : Thread n Client}
    {name name' : Name} {c : Nat} (sleeps : s.calls x = .sleeping name c)
    (signalled : s.calls y = .sleeping name' (s.condvarAt name)) : y = x := by
  rw [asleep.target sleeps] at signalled
  have same : name' = name := condvars.distinct name' name c (asleep.condvar y name' c signalled)
    (asleep.condvar x name c sleeps)
  exact alone y x name (by rw [signalled, same]; rfl) (by rw [sleeps]; rfl)

theorem Asleep.step (asleep : Asleep s.tasknameToCondvar s.tasknameToStatus s.workers s.calls)
    (condvars : Condvars s.tasknameToCondvar s.condvars) (alone : Alone s.calls) (step : Step s a s') :
    Asleep s'.tasknameToCondvar s'.tasknameToStatus s'.workers s'.calls := by
  cases step with
  | submit | lockQueue | unlockMap | unlockQueue | wait | enter | throw | spurious | stop | setStop | unlockStop | join
    | stopped => exact asleep.move (by simp)
  | lockMap => exact (asleep.enter _ _).move (by simp)
  | sleep here status found => exact asleep.sleep found status
  | finish here => exact asleep.erase alone here
  | checkStop here | leaveStop here | popNothing here | pop here | leaveQueue here | run here | runReturns here
    | delete here | leaveMap here => exact asleep.work here (by simp)
  | complete here => exact asleep.record here
  | signalNobody here nobody =>
    refine asleep.signal (fun x c sleeps => ?_) here
    exact nobody x _ (asleep.target sleeps ▸ sleeps)
  | @signal w task x name here signalled =>
    refine (asleep.move (by simp)).signal (fun y c sleeps => ?_) here
    obtain ⟨away, old⟩ := sleeping_update (by simp) sleeps
    exact away (asleep.woken condvars alone old signalled).symm

/-- What `oneWaiter` keeps true of the condition variables. -/
structure Watched (s : ThreadPool n Client Name) : Prop where
  alone : Alone s.calls
  condvars : Condvars s.tasknameToCondvar s.condvars
  asleep : Asleep s.tasknameToCondvar s.tasknameToStatus s.workers s.calls

theorem Run.watched (run : Run oneWaiter s) : Watched s := by
  induction run with
  | start =>
    exact ⟨fun x y name atName => by simp [init, Call.awaited] at atName, ⟨by simp [init], by simp [init]⟩,
      ⟨by simp [init], by simp [init]⟩⟩
  | next _ permitted step ih =>
    obtain ⟨alone, condvars, asleep⟩ := ih
    exact ⟨alone.step step fun name request => permitted _ request, condvars.step step,
      asleep.step condvars alone step⟩

/-- A worker that holds the map lock can take its next step, and that step wakes the thread. -/
def WakeupPending (s : ThreadPool n Client Name) (x : Thread n Client) (name : Name) : Prop :=
  ∃ w, s.locks .map = some (.worker w) ∧ (∃ a s', Step s a s' ∧ s'.workers w ≠ s.workers w) ∧
    ∀ a s', Step s a s' → s'.workers w ≠ s.workers w → s'.calls x = .woken name

/-- A worker's next step after it has recorded a task as done is its signal. -/
theorem Watched.wakes (watched : Watched s) {x : Thread n Client} {w : Fin n} {task : Task Name} {c : Nat}
    (here : s.workers w = .signalling task) (sleeps : s.calls x = .sleeping task.taskname c) (step : Step s a s')
    (moves : s'.workers w ≠ s.workers w) : s'.calls x = .woken task.taskname := by
  have mover : ∀ {v : Fin n} {stage next : Stage Name}, s.workers v = stage → (∀ task, stage ≠ .signalling task) →
      Function.update s.workers v next w ≠ s.workers w → False := by
    intro v stage next atStage quiet changed
    obtain rfl := mover_of_ne changed
    exact quiet task (atStage ▸ here)
  cases step with
  | checkStop atStage | leaveStop atStage | popNothing atStage | pop atStage | leaveQueue atStage | run atStage
    | runReturns atStage | delete atStage | complete atStage | leaveMap atStage =>
    exact (mover atStage (by simp) moves).elim
  | @signalNobody v other atStage nobody =>
    obtain rfl := mover_of_ne moves
    rw [here, Stage.signalling.injEq] at atStage
    subst atStage
    exact absurd (watched.asleep.target sleeps ▸ sleeps) (nobody x _)
  | @signal v other y name atStage signalled =>
    obtain rfl := mover_of_ne moves
    rw [here, Stage.signalling.injEq] at atStage
    subst atStage
    have target := watched.asleep.woken watched.condvars watched.alone sleeps signalled
    subst target
    rw [sleeps, Call.sleeping.injEq] at signalled
    dsimp only
    rw [Function.update_self, signalled.1]
  | _ => exact absurd rfl moves

/-- In every state of a pool whose names are waited for one thread at a time, a thread asleep
whose task is done is about to be woken, and no threads hold locks while each waits for a lock
of another one of them. -/
theorem no_lost_wakeup (run : Run oneWaiter s) :
    (∀ x name c, s.calls x = .sleeping name c → s.tasknameToStatus name = some 1 → WakeupPending s x name) ∧
    ∀ group, ¬ Cycle Frame.wants s.locks (frame s.workers s.calls) group := by
  have watched := run.watched
  have locked := run.locked
  constructor
  · intro x name c sleeps done
    obtain ⟨w, task, here, rfl⟩ := watched.asleep.pending x name c sleeps done
    have signalled : s.calls x = .sleeping task.taskname (s.condvarAt task.taskname) := watched.asleep.target sleeps ▸ sleeps
    refine ⟨w, (locked.agree .map (.worker w)).mpr (by simp [frame, Frame.holds, here, Stage.holds]),
      ⟨none, _, .signal here signalled, by simp [here]⟩, fun a s' step moves => watched.wakes here sleeps step moves⟩
  · exact no_cycle Lock.rank 2 (fun l => by cases l <;> decide) locked.agree fun x l k => locked.ordered

/-- A client is asleep when the worker records its task as done. -/
theorem client_asleep : ∃ s : ThreadPool 1 Unit Unit, Run oneWaiter s ∧ s.calls (.client ()) = .sleeping () 0 ∧
    s.tasknameToStatus () = some 1 := by
  have fresh : Run oneWaiter (init : ThreadPool 1 Unit Unit) := .start
  have called := fresh.request (r := .submitTask ()) trivial (.submit (.client ()) () rfl)
  have pushed := called.silent (.lockQueue (x := .client ()) rfl rfl)
  have entered := pushed.silent (.lockMap (x := .client ()) rfl rfl)
  have left := entered.silent (.unlockMap (x := .client ()) rfl)
  have submitted := left.silent (.unlockQueue (x := .client ()) rfl)
  have waiting := submitted.request (r := .waitForTask ()) (by rintro (w | c) awaited <;> cases awaited)
    (.wait (.client ()) () rfl)
  have tested := waiting.silent (.enter (x := .client ()) (.inl rfl) rfl)
  have asleep := tested.silent (.sleep (x := .client ()) rfl rfl rfl)
  have checked := asleep.silent (.checkStop (w := 0) rfl rfl)
  have goesOn := checked.silent (.leaveStop (w := 0) rfl)
  have popped := goesOn.silent (.pop (w := 0) rfl rfl rfl)
  have taken := popped.silent (.leaveQueue (w := 0) rfl)
  have runs := taken.silent (.run (w := 0) rfl)
  have ran := runs.silent (.runReturns (w := 0) rfl rfl)
  have deleted := ran.silent (.delete (w := 0) rfl)
  have completed := deleted.silent (.complete (w := 0) rfl rfl)
  exact ⟨_, completed, rfl, rfl⟩

theorem client_woken : ∃ s : ThreadPool 1 Unit Unit, WakeupPending s (.client ()) () := by
  obtain ⟨s, run, asleep, done⟩ := client_asleep
  exact ⟨s, (no_lost_wakeup run).1 (.client ()) () 0 asleep done⟩

end OsLabs.Pool
