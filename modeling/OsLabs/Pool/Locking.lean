import OsLabs.Lib.Interleaving
import OsLabs.Lib.Locks
import OsLabs.Pool.ThreadPool

namespace OsLabs.Pool
open Locks

section Frames
variable {n : Nat} {Client Name : Type}

/-- The locks a worker holds in its own code. -/
def Stage.holds : Stage Name → Lock → Bool
  | .stopHeld _, .stop => true
  | .queueHeld _, .queue => true
  | .signalling _, .map => true
  | .closing, .map => true
  | _, _ => false

/-- The lock a worker is about to take in its own code. -/
def Stage.wants : Stage Name → Option Lock
  | .atLoop => some .stop
  | .fetching => some .queue
  | .deleted _ => some .map
  | _ => none

def Call.holds : Call Name → Lock → Bool
  | .pushed _, .queue => true
  | .inserted _, .queue => true
  | .inserted _, .map => true
  | .mapLeft _, .queue => true
  | .testing _, .map => true
  | .thrown, .map => true
  | .stopSet, .stop => true
  | _, _ => false

def Call.wants : Call Name → Option Lock
  | .submitting _ => some .queue
  | .pushed _ => some .map
  | .waiting _ => some .map
  | .woken _ => some .map
  | .stopping => some .stop
  | _ => none

/-- Where a thread is: in `run_task`, if it is a worker, and in a call. -/
structure Frame (Name : Type) where
  stage : Option (Stage Name)
  call : Call Name

def Frame.holds (f : Frame Name) (l : Lock) : Bool := f.stage.any (·.holds l) || f.call.holds l

def Frame.wants (f : Frame Name) : Option Lock := f.call.wants.or (f.stage.bind Stage.wants)

def frame (workers : Fin n → Stage Name) (calls : Thread n Client → Call Name) : Thread n Client → Frame Name
  | .worker w => ⟨some (workers w), calls (.worker w)⟩
  | .client c => ⟨none, calls (.client c)⟩

variable {workers : Fin n → Stage Name} {calls : Thread n Client → Call Name} {x : Thread n Client} {w : Fin n}

@[simp] theorem frame_call_eq : (frame workers calls x).call = calls x := by
  cases x <;> rfl

variable [DecidableEq Client]

theorem frame_call (call : Call Name) : frame workers (Function.update calls x call) =
    Function.update (frame workers calls) x ⟨(frame workers calls x).stage, call⟩ := by
  funext y
  by_cases same : y = x
  · subst same
    cases y <;> simp [frame]
  · rw [Function.update_of_ne same]
    cases y <;> simp [frame, Function.update_of_ne same]

theorem frame_stage (stage : Stage Name) : frame (Function.update workers w stage) calls =
    Function.update (frame workers calls) (.worker w) ⟨some stage, calls (.worker w)⟩ := by
  funext y
  by_cases same : y = .worker w
  · subst same
    simp [frame]
  · rw [Function.update_of_ne same]
    cases y with
    | client c => rfl
    | worker v =>
      have away : v ≠ w := fun equal => same (by rw [equal])
      simp [frame, Function.update_of_ne away]

/-- A worker is in a call only while the task it runs has made one. -/
def Settled (workers : Fin n → Stage Name) (calls : Thread n Client → Call Name) : Prop :=
  ∀ w, calls (.worker w) = .outside ∨ ∃ task, workers w = .running task

omit [DecidableEq Client] in
theorem Settled.running (settled : Settled workers calls) {call : Call Name} (here : calls x = call)
    (inside : call ≠ .outside) : ∀ w, x = .worker w → ∃ task, workers w = .running task := by
  rintro w rfl
  exact (settled w).resolve_left (here ▸ inside)

theorem Settled.move (settled : Settled workers calls) {call : Call Name}
    (running : ∀ w, x = .worker w → ∃ task, workers w = .running task) :
    Settled workers (Function.update calls x call) := by
  intro w
  by_cases same : Thread.worker w = x
  · exact .inr (running w same.symm)
  · rw [Function.update_of_ne same]
    exact settled w

omit [DecidableEq Client] in
theorem Settled.work (settled : Settled workers calls) {stage : Stage Name} (idle : calls (.worker w) = .outside) :
    Settled (Function.update workers w stage) calls := by
  intro v
  by_cases same : v = w
  · subst same
    exact .inl idle
  · rw [Function.update_of_ne same]
    exact settled v

omit [DecidableEq Client] in
/-- A worker that is not running a task is in no call. -/
theorem Settled.idle (settled : Settled workers calls) {stage : Stage Name} (here : workers w = stage)
    (other : ∀ task, stage ≠ .running task) : calls (.worker w) = .outside :=
  (settled w).resolve_right fun ⟨task, running⟩ => other task (here ▸ running)

omit [DecidableEq Client] in
/-- A thread in a call holds only what the call has locked. -/
theorem Settled.quiet (running : ∀ w, x = .worker w → ∃ task, workers w = .running task) (l : Lock) :
    (frame workers calls x).stage.any (·.holds l) = false := by
  cases x with
  | client c => rfl
  | worker w =>
    obtain ⟨task, atTask⟩ := running w rfl
    simp [frame, atTask, Stage.holds]

section Owners
variable {locks : Lock → Option (Thread n Client)} {l : Lock}

theorem agree_call (agree : Agree Frame.holds locks (frame workers calls)) {call : Call Name}
    (same : ∀ k, call.holds k = (calls x).holds k) :
    Agree Frame.holds locks (frame workers (Function.update calls x call)) := by
  rw [frame_call]
  exact agree.move fun k => by simp only [Frame.holds, frame_call_eq, same]

theorem agree_call_take (agree : Agree Frame.holds locks (frame workers calls)) (free : locks l = none)
    {call : Call Name} (same : ∀ k, call.holds k = (decide (k = l) || (calls x).holds k)) :
    Agree Frame.holds (Function.update locks l (some x)) (frame workers (Function.update calls x call)) := by
  rw [frame_call]
  exact agree.acquire free fun k => by simp only [Frame.holds, frame_call_eq, same, Bool.or_left_comm]

theorem agree_call_give (agree : Agree Frame.holds locks (frame workers calls))
    (running : ∀ w, x = .worker w → ∃ task, workers w = .running task) (held : (calls x).holds l = true)
    {call : Call Name} (same : ∀ k, call.holds k = (!decide (k = l) && (calls x).holds k)) :
    Agree Frame.holds (Function.update locks l none) (frame workers (Function.update calls x call)) := by
  have quiet := @Settled.quiet n Client Name workers calls x running
  rw [frame_call]
  refine agree.release (by rw [Frame.holds, frame_call_eq, held, Bool.or_true]) fun k => ?_
  simp only [Frame.holds, frame_call_eq, same, quiet, Bool.false_or]

theorem agree_stage (agree : Agree Frame.holds locks (frame workers calls)) {stage : Stage Name}
    (same : ∀ k, stage.holds k = (workers w).holds k) :
    Agree Frame.holds locks (frame (Function.update workers w stage) calls) := by
  rw [frame_stage]
  exact agree.move fun k => by simp only [Frame.holds, frame, Option.any_some, same]

theorem agree_stage_take (agree : Agree Frame.holds locks (frame workers calls)) (free : locks l = none)
    {stage : Stage Name} (same : ∀ k, stage.holds k = (decide (k = l) || (workers w).holds k)) :
    Agree Frame.holds (Function.update locks l (some (.worker w)))
      (frame (Function.update workers w stage) calls) := by
  rw [frame_stage]
  exact agree.acquire free fun k => by simp only [Frame.holds, frame, Option.any_some, same, Bool.or_assoc]

theorem agree_stage_give (agree : Agree Frame.holds locks (frame workers calls)) (idle : calls (.worker w) = .outside)
    (held : (workers w).holds l = true) {stage : Stage Name}
    (same : ∀ k, stage.holds k = (!decide (k = l) && (workers w).holds k)) :
    Agree Frame.holds (Function.update locks l none) (frame (Function.update workers w stage) calls) := by
  rw [frame_stage]
  refine agree.release (by rw [Frame.holds, frame, Option.any_some, held, Bool.true_or]) fun k => ?_
  simp only [Frame.holds, frame, Option.any_some, same, idle, Call.holds, Bool.or_false]

end Owners

end Frames

section Runs
variable {n : Nat} {Client Name : Type} [DecidableEq Name] [DecidableEq Client]
  {allowed : ThreadPool n Client Name → Request Name → Prop} {s s' : ThreadPool n Client Name}

omit [DecidableEq Name] [DecidableEq Client] in
theorem ThreadPool.Ready.outside {x : Thread n Client} (ready : s.Ready x) : s.calls x = .outside := by
  cases x with
  | client c => exact ready
  | worker w => exact ready.1

omit [DecidableEq Name] [DecidableEq Client] in
theorem ThreadPool.Ready.running {x : Thread n Client} (ready : s.Ready x) :
    ∀ w, x = .worker w → ∃ task, s.workers w = .running task := by
  rintro w rfl
  exact ready.2

/-- The threads are where their locks say, and in calls only when they may be. -/
structure Locked (s : ThreadPool n Client Name) : Prop where
  settled : Settled s.workers s.calls
  agree : Agree Frame.holds s.locks (frame s.workers s.calls)

omit [DecidableEq Name] [DecidableEq Client] in
theorem locked_init : Locked (init : ThreadPool n Client Name) where
  settled _ := .inl rfl
  agree l x := by cases x <;> simp [init, frame, Frame.holds, Stage.holds, Call.holds]

/-- One step keeps the locks and the places of the threads in agreement. -/
theorem Locked.step {a : Option (Request Name)} (locked : Locked s) (step : Step s a s') : Locked s' := by
  obtain ⟨settled, agree⟩ := locked
  cases step with
  | submit x name ready | wait x name ready =>
    exact ⟨settled.move ready.running, agree_call agree (by rw [ready.outside]; exact fun k => by cases k <;> rfl)⟩
  | stop c ready =>
    exact ⟨settled.move ready.running, agree_call agree (by rw [ready.outside]; exact fun k => by cases k <;> rfl)⟩
  | lockQueue here free | lockMap here free | setStop here free =>
    exact ⟨settled.move (settled.running here (by simp)),
      agree_call_take agree free (by rw [here]; exact fun k => by cases k <;> rfl)⟩
  | enter here free =>
    rcases here with here | here <;>
    exact ⟨settled.move (settled.running here (by simp)),
      agree_call_take agree free (by rw [here]; exact fun k => by cases k <;> rfl)⟩
  | unlockMap here | unlockQueue here | sleep here | finish here | unlockStop here =>
    have running := settled.running here (by simp)
    exact ⟨settled.move running, agree_call_give agree running (by rw [here]; rfl)
      (by rw [here]; exact fun k => by cases k <;> rfl)⟩
  | throw here | spurious here | join here | stopped here =>
    exact ⟨settled.move (settled.running here (by simp)),
      agree_call agree (by rw [here]; exact fun k => by cases k <;> rfl)⟩
  | checkStop here free | popNothing here free | pop here free | complete here free =>
    exact ⟨settled.work (settled.idle here (by simp)),
      agree_stage_take agree free (by rw [here]; exact fun k => by cases k <;> rfl)⟩
  | @leaveStop w stop here =>
    have idle := settled.idle here (by simp)
    refine ⟨settled.work idle, agree_stage_give agree idle (by rw [here]; rfl) ?_⟩
    rw [here]
    exact fun k => by cases k <;> cases stop <;> rfl
  | @leaveQueue w task here =>
    have idle := settled.idle here (by simp)
    refine ⟨settled.work idle, agree_stage_give agree idle (by rw [here]; rfl) ?_⟩
    rw [here]
    exact fun k => by cases k <;> cases task <;> rfl
  | leaveMap here =>
    have idle := settled.idle here (by simp)
    exact ⟨settled.work idle, agree_stage_give agree idle (by rw [here]; rfl)
      (by rw [here]; exact fun k => by cases k <;> rfl)⟩
  | run here | delete here | signalNobody here =>
    exact ⟨settled.work (settled.idle here (by simp)),
      agree_stage agree (by rw [here]; exact fun k => by cases k <;> rfl)⟩
  | runReturns here idle =>
    exact ⟨settled.work idle, agree_stage agree (by rw [here]; exact fun k => by cases k <;> rfl)⟩
  | @signal w task x name here asleep =>
    have moved := @agree_call n Client Name s.workers s.calls x _ s.locks agree (.woken name)
      (by rw [asleep]; exact fun k => by cases k <;> rfl)
    have settled' := @Settled.move n Client Name s.workers s.calls x _ settled (.woken name)
      (settled.running asleep (by simp))
    exact ⟨settled'.work (settled'.idle here (by simp)),
      agree_stage moved (by rw [here]; exact fun k => by cases k <;> rfl)⟩

theorem Run.locked (run : Run allowed s) : Locked s := by
  induction run with
  | start => exact locked_init
  | next _ _ step ih => exact ih.step step

end Runs

section Order
variable {n : Nat} {Client Name : Type}

theorem Stage.wants_nothing {stage : Stage Name} {l : Lock} (wanted : stage.wants = some l) (k : Lock) :
    stage.holds k = false := by
  cases stage <;> simp_all [Stage.wants, Stage.holds]

/-- The map lock is taken after the queue lock. -/
def Lock.rank : Lock → Nat
  | .queue => 0
  | .stop => 0
  | .map => 1

theorem Call.ordered {call : Call Name} {l k : Lock} (wanted : call.wants = some l) (held : call.holds k = true) :
    k.rank < l.rank := by
  cases call <;> cases k <;> simp_all [Call.wants, Call.holds, Lock.rank]
  simp [← wanted]

/-- A thread that waits for a lock holds at most the queue lock, and that only while it waits
for the map lock. -/
theorem Locked.ordered {s : ThreadPool n Client Name} (locked : Locked s) {x : Thread n Client} {l k : Lock}
    (wanted : (frame s.workers s.calls x).wants = some l) (held : (frame s.workers s.calls x).holds k = true) :
    k.rank < l.rank := by
  by_cases here : s.calls x = .outside
  · cases x with
    | client c => simp [frame, Frame.wants, here, Call.wants] at wanted
    | worker w =>
      simp only [frame, Frame.wants, Frame.holds, here, Call.wants, Call.holds, Option.none_or, Option.bind_some,
        Option.any_some, Bool.or_false] at wanted held
      rw [Stage.wants_nothing wanted k] at held
      cases held
  · have running := locked.settled.running rfl here
    have idle : (frame s.workers s.calls x).stage.bind Stage.wants = none := by
      cases x with
      | client c => rfl
      | worker w =>
        obtain ⟨task, atTask⟩ := running w rfl
        simp [frame, atTask, Stage.wants]
    rw [Frame.holds, @Settled.quiet n Client Name s.workers s.calls x running k, Bool.false_or, frame_call_eq] at held
    rw [Frame.wants, idle, Option.or_none, frame_call_eq] at wanted
    exact Call.ordered wanted held

end Order

end OsLabs.Pool
