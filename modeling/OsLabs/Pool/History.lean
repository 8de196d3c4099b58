import OsLabs.Lib.Handover
import OsLabs.Pool.Locking

namespace OsLabs.Pool
open Handover Interleaving

section Stages
variable {Name : Type}

/-- The task a worker has popped and not yet called `Run` of. -/
def Stage.toRun : Stage Name → List (Task Name)
  | .queueHeld (some task) => [task]
  | .taken task => [task]
  | _ => []

/-- The task whose `Run` has not returned. -/
def Stage.toReturn : Stage Name → List (Task Name)
  | .running task => [task]
  | _ => []

def Stage.toDelete : Stage Name → List (Task Name)
  | .ran task => [task]
  | _ => []

/-- The task that is deleted and not yet recorded as done. -/
def Stage.toComplete : Stage Name → List (Task Name)
  | .deleted task => [task]
  | _ => []

/-- The task whose `SubmitTask` has not returned. -/
def Call.submission : Call Name → Option (Task Name)
  | .submitting task => some task
  | .pushed task => some task
  | .inserted task => some task
  | .mapLeft task => some task
  | _ => none

/-- The task that a call is about to push. -/
def Call.entering : Call Name → Option (Task Name)
  | .submitting task => some task
  | _ => none

/-- The number of tasks of a name. -/
def named [DecidableEq Name] (name : Name) (tasks : List (Task Name)) : Nat :=
  tasks.countP fun task => task.taskname = name

end Stages

variable {n : Nat} {Client Name : Type} [DecidableEq Name] [DecidableEq Client]
  {allowed : ThreadPool n Client Name → Request Name → Prop} {s s' : ThreadPool n Client Name}
  {a : Option (Request Name)}

/-- What the workers have done with the tasks, log by log: each worker carries a task from one
log to the next before it takes another. -/
structure Worked (s : ThreadPool n Client Name) : Prop where
  queue : s.log.pushed = s.log.popped.map Prod.snd ++ s.taskQueue
  run : Follows (Stage.toRun ∘ s.workers) s.log.popped s.log.run
  ran : Follows (Stage.toReturn ∘ s.workers) s.log.run s.log.ran
  deleted : Follows (Stage.toDelete ∘ s.workers) s.log.ran s.log.deleted
  completed : Follows (Stage.toComplete ∘ s.workers) s.log.deleted s.log.completed

theorem Worked.step (worked : Worked s) (step : Step s a s') : Worked s' := by
  obtain ⟨queue, run, ran, deleted, completed⟩ := worked
  cases step with
  | lockQueue here free =>
    exact ⟨by rw [queue, List.append_assoc], run, ran, deleted, completed⟩
  | checkStop here | popNothing here | signalNobody here | signal here | leaveMap here =>
    exact ⟨queue, run.move (by rw [here]; rfl), ran.move (by rw [here]; rfl), deleted.move (by rw [here]; rfl),
      completed.move (by rw [here]; rfl)⟩
  | @leaveStop w stop here =>
    cases stop <;>
    exact ⟨queue, run.move (by rw [here]; rfl), ran.move (by rw [here]; rfl), deleted.move (by rw [here]; rfl),
      completed.move (by rw [here]; rfl)⟩
  | @pop w task rest here free front =>
    refine ⟨?_, run.take (by rw [here]; rfl) rfl, ran.move (by rw [here]; rfl), deleted.move (by rw [here]; rfl),
      completed.move (by rw [here]; rfl)⟩
    simp only [queue, front, List.map_append, List.map_cons, List.map_nil, List.append_assoc, List.singleton_append]
  | @leaveQueue w task here =>
    cases task <;>
    exact ⟨queue, run.move (by rw [here]; rfl), ran.move (by rw [here]; rfl), deleted.move (by rw [here]; rfl),
      completed.move (by rw [here]; rfl)⟩
  | run here =>
    exact ⟨queue, run.hand (by rw [here]; rfl) rfl, ran.take (by rw [here]; rfl) rfl,
      deleted.move (by rw [here]; rfl),
      completed.move (by rw [here]; rfl)⟩
  | runReturns here idle =>
    exact ⟨queue, run.move (by rw [here]; rfl), ran.hand (by rw [here]; rfl) rfl,
      deleted.take (by rw [here]; rfl) rfl,
      completed.move (by rw [here]; rfl)⟩
  | delete here =>
    exact ⟨queue, run.move (by rw [here]; rfl), ran.move (by rw [here]; rfl), deleted.hand (by rw [here]; rfl) rfl,
      completed.take (by rw [here]; rfl) rfl⟩
  | complete here free =>
    exact ⟨queue, run.move (by rw [here]; rfl), ran.move (by rw [here]; rfl), deleted.move (by rw [here]; rfl),
      completed.hand (by rw [here]; rfl) rfl⟩
  | _ => exact ⟨queue, run, ran, deleted, completed⟩

theorem Run.worked (run : Run allowed s) : Worked s := by
  induction run with
  | start => exact ⟨rfl, .start fun _ => rfl, .start fun _ => rfl, .start fun _ => rfl, .start fun _ => rfl⟩
  | next _ _ step ih => exact ih.step step

section Submissions
variable {calls : Thread n Client → Call Name} {x : Thread n Client}

/-- What is known of the tasks submitted: they are different objects, each is pushed once, and
each call of `SubmitTask` that has not returned is about a task of its own. -/
structure Submissions (called pushed returned : List (Task Name)) (calls : Thread n Client → Call Name) : Prop where
  numbered : ∀ task ∈ called, task.id < called.length
  distinct : called.Nodup
  once : pushed.Nodup
  origin : pushed ⊆ called
  finished : returned ⊆ called
  ended : returned.Nodup
  under : ∀ x task, (calls x).submission = some task → task ∈ called ∧ task ∉ returned
  alone : ∀ x y task, (calls x).submission = some task → (calls y).submission = some task → x = y
  entering : ∀ x task, (calls x).entering = some task → task ∉ pushed

variable {called pushed returned : List (Task Name)}

omit [DecidableEq Name] in
/-- A thread that leaves its submission aside changes nothing. -/
theorem Submissions.move (subs : Submissions called pushed returned calls) {call : Call Name}
    (same : call.submission = (calls x).submission) (out : call.entering = none) :
    Submissions called pushed returned (Function.update calls x call) := by
  obtain ⟨numbered, distinct, once, origin, finished, ended, under, alone, entering⟩ := subs
  have view : ∀ y, (Function.update calls x call y).submission = (calls y).submission := by
    intro y
    by_cases atX : y = x
    · rw [atX, Function.update_self, same]
    · rw [Function.update_of_ne atX]
  refine ⟨numbered, distinct, once, origin, finished, ended, fun y task atTask => under y task (view y ▸ atTask),
    fun y z task atTask atTask' => alone y z task (view y ▸ atTask) (view z ▸ atTask'), fun y task atTask => ?_⟩
  rcases moved Call.entering atTask with ⟨_, new⟩ | ⟨_, old⟩
  · rw [out] at new
    cases new
  · exact entering y task old

omit [DecidableEq Name] in
theorem Call.submission_of_entering {call : Call Name} {task : Task Name} (entering : call.entering = some task) :
    call.submission = some task := by
  cases call <;> simp_all [Call.entering, Call.submission]

omit [DecidableEq Name] in
theorem Submissions.submit (subs : Submissions called pushed returned calls) (name : Name) :
    Submissions (called ++ [⟨called.length, name⟩]) pushed returned
      (Function.update calls x (.submitting ⟨called.length, name⟩)) := by
  obtain ⟨numbered, distinct, once, origin, finished, ended, under, alone, entering⟩ := subs
  have fresh : (⟨called.length, name⟩ : Task Name) ∉ called := fun old => lt_irrefl _ (numbered _ old)
  have apart : ∀ y task, y ≠ x → (calls y).submission = some task → task ≠ ⟨called.length, name⟩ := by
    rintro y task _ atTask rfl
    exact fresh (under y _ atTask).1
  refine ⟨?_, List.nodup_append.mpr ⟨distinct, List.nodup_singleton _, ?_⟩, once, fun task old => ?_,
    fun task old => ?_, ended,
    fun y task atTask => ?_, fun y z task atTask atTask' => ?_, fun y task atTask => ?_⟩
  · intro task member
    rw [List.length_append, List.length_singleton]
    rcases List.mem_append.mp member with old | new
    · exact (numbered task old).trans (Nat.lt_succ_self _)
    · rw [List.mem_singleton.mp new]
      exact Nat.lt_succ_self _
  · rintro old member new equal rfl
    exact fresh (List.mem_singleton.mp equal ▸ member)
  · exact List.mem_append_left _ (origin old)
  · exact List.mem_append_left _ (finished old)
  · rcases moved Call.submission atTask with ⟨_, new⟩ | ⟨_, old⟩
    · cases new
      exact ⟨List.mem_append_right _ (List.mem_singleton.mpr rfl), fun old => fresh (finished old)⟩
    · obtain ⟨known, open'⟩ := under y task old
      exact ⟨List.mem_append_left _ known, open'⟩
  · rcases moved Call.submission atTask with ⟨atX, new⟩ | ⟨away, old⟩ <;>
    rcases moved Call.submission atTask' with ⟨atX', new'⟩ | ⟨away', old'⟩
    · exact atX.trans atX'.symm
    · exact absurd (Option.some.inj new).symm (apart z task away' old')
    · exact absurd (Option.some.inj new').symm (apart y task away old)
    · exact alone y z task old old'
  · rcases moved Call.entering atTask with ⟨_, new⟩ | ⟨_, old⟩
    · cases new
      exact fun old => fresh (origin old)
    · exact entering y task old

omit [DecidableEq Name] in
theorem Submissions.push (subs : Submissions called pushed returned calls) {task : Task Name}
    (here : calls x = .submitting task) :
    Submissions called (pushed ++ [task]) returned (Function.update calls x (.pushed task)) := by
  have kept : Submissions called pushed returned (Function.update calls x (.pushed task)) :=
    subs.move (by rw [here]; rfl) rfl
  have new : task ∉ pushed := subs.entering x task (by rw [here]; rfl)
  have known : task ∈ called := (subs.under x task (by rw [here]; rfl)).1
  refine ⟨kept.numbered, kept.distinct, List.nodup_append.mpr ⟨subs.once, List.nodup_singleton _, ?_⟩, ?_,
    kept.finished,
    kept.ended, kept.under, kept.alone, fun y other atOther => ?_⟩
  · rintro old member _ equal rfl
    exact new (List.mem_singleton.mp equal ▸ member)
  · intro other member
    rcases List.mem_append.mp member with old | equal
    · exact subs.origin old
    · exact List.mem_singleton.mp equal ▸ known
  · intro member
    rcases List.mem_append.mp member with old | equal
    · exact kept.entering y other atOther old
    · rw [List.mem_singleton.mp equal] at atOther
      have same := kept.alone y x task (Call.submission_of_entering atOther) (by rw [Function.update_self]; rfl)
      rw [same, Function.update_self] at atOther
      cases atOther

omit [DecidableEq Name] in
theorem Submissions.finish (subs : Submissions called pushed returned calls) {task : Task Name}
    (here : calls x = .mapLeft task) :
    Submissions called pushed (returned ++ [task]) (Function.update calls x .outside) := by
  obtain ⟨numbered, distinct, once, origin, finished, ended, under, alone, entering⟩ := subs
  have inside : (calls x).submission = some task := by rw [here]; rfl
  have others : ∀ y other, (Function.update calls x .outside y).submission = some other →
      y ≠ x ∧ (calls y).submission = some other := by
    intro y other atOther
    rcases moved Call.submission atOther with ⟨_, new⟩ | stayed
    · cases new
    · exact stayed
  have known := under x task inside
  refine ⟨numbered, distinct, once, origin, fun other member => ?_, ?_, fun y other atOther => ?_,
    fun y z other atOther atOther' => alone y z other (others y other atOther).2 (others z other atOther').2,
    fun y other atOther => ?_⟩
  · rcases List.mem_append.mp member with old | equal
    · exact finished old
    · exact List.mem_singleton.mp equal ▸ known.1
  · refine List.nodup_append.mpr ⟨ended, List.nodup_singleton _, ?_⟩
    rintro old member _ equal rfl
    exact known.2 (List.mem_singleton.mp equal ▸ member)
  · obtain ⟨away, old⟩ := others y other atOther
    obtain ⟨known, open'⟩ := under y other old
    refine ⟨known, fun member => ?_⟩
    rcases List.mem_append.mp member with earlier | equal
    · exact open' earlier
    · exact away (alone y x task (List.mem_singleton.mp equal ▸ old) inside)
  · rcases moved Call.entering atOther with ⟨_, new⟩ | ⟨_, old⟩
    · cases new
    · exact entering y other old

end Submissions

abbrev ThreadPool.Submitted (s : ThreadPool n Client Name) : Prop :=
  Submissions s.log.called s.log.pushed s.log.returned s.calls

theorem Submitted.step (subs : s.Submitted) (step : Step s a s') : s'.Submitted := by
  cases step with
  | submit x name ready => exact subs.submit name
  | lockQueue here => exact subs.push here
  | unlockQueue here => exact subs.finish here
  | wait x name ready | stop c ready => exact subs.move (by rw [ready.outside]; rfl) rfl
  | lockMap here | unlockMap here | throw here | sleep here | spurious here | finish here | setStop here
    | unlockStop here | join here | stopped here => exact subs.move (by rw [here]; rfl) rfl
  | enter here =>
    rcases here with here | here <;>
    exact subs.move (by rw [here]; rfl) rfl
  | signal here asleep => exact subs.move (by rw [asleep]; rfl) rfl
  | _ => exact subs

theorem Run.submitted (run : Run allowed s) : s.Submitted := by
  induction run with
  | start =>
    exact ⟨by simp [init], List.nodup_nil, List.nodup_nil, by simp [init], by simp [init], List.nodup_nil,
      by simp [init, Call.submission],
      by simp [init, Call.submission], by simp [init, Call.entering]⟩
  | next _ _ step ih => exact Submitted.step ih step

theorem named_append (name : Name) (l m : List (Task Name)) : named name (l ++ m) = named name l + named name m :=
  List.countP_append

theorem named_singleton (name : Name) (task : Task Name) :
    named name [task] = if task.taskname = name then 1 else 0 := by
  unfold named
  rw [List.countP_singleton]
  by_cases same : task.taskname = name <;> simp [same]

theorem count_snoc (l : List Name) (name other : Name) :
    (l ++ [name]).count other = l.count other + if name = other then 1 else 0 := by
  rw [List.count_append, List.count_singleton]
  by_cases same : name = other <;> simp [same]

section Records
variable {waited : List Name} {status : Name → Option Nat} {completed : List (Task Name)}

/-- Every return of `WaitForTask` uses up one record of a task done. -/
structure Records (waited : List Name) (status : Name → Option Nat) (completed : List (Task Name)) : Prop where
  counted : ∀ name, waited.count name + (if status name = some 1 then 1 else 0) ≤ named name completed
  binary : ∀ name value, status name = some value → value = 0 ∨ value = 1

theorem Records.enter (records : Records waited status completed) (name : Name) :
    Records waited (insert status name 0) completed := by
  have stays : ∀ other, insert status name 0 other = some 1 ↔ status other = some 1 := by
    intro other
    rw [insert_eq]
    by_cases same : other = name
    · subst same
      cases here : status other <;> simp
    · rw [if_neg same]
  refine ⟨fun other => by simpa only [stays] using records.counted other, fun other value found => ?_⟩
  rw [insert_eq] at found
  by_cases same : other = name
  · subst same
    cases here : status other with
    | none => exact .inl (by simpa [here] using found.symm)
    | some old => exact records.binary other value (by simpa [here] using found)
  · exact records.binary other value (by rwa [if_neg same] at found)

theorem Records.erase (records : Records waited status completed) {name : Name} (one : status name = some 1) :
    Records (waited ++ [name]) (Function.update status name none) completed := by
  refine ⟨fun other => ?_, fun other value found => ?_⟩
  · have old := records.counted other
    rw [count_snoc]
    by_cases same : other = name
    · subst same
      rw [one, if_pos rfl] at old
      rwa [Function.update_self, if_pos rfl, if_neg (by simp), Nat.add_zero]
    · rwa [Function.update_of_ne same, if_neg (Ne.symm same), Nat.add_zero]
  · rcases moved_to found with ⟨_, new⟩ | ⟨_, old⟩
    · cases new
    · exact records.binary other value old

theorem Records.store (records : Records waited status completed) (task : Task Name) :
    Records waited (Function.update status task.taskname (some 1)) (completed ++ [task]) := by
  refine ⟨fun name => ?_, fun name value found => ?_⟩
  · have old := records.counted name
    rw [named_append, named_singleton]
    by_cases same : name = task.taskname
    · subst same
      rw [Function.update_self, if_pos rfl, if_pos rfl]
      split at old <;> omega
    · rwa [Function.update_of_ne same, if_neg (Ne.symm same), Nat.add_zero]
  · rcases moved_to found with ⟨_, one⟩ | ⟨_, old⟩
    · exact .inr (Option.some.inj one).symm
    · exact records.binary name value old

end Records

abbrev ThreadPool.Recorded (s : ThreadPool n Client Name) : Prop :=
  Records s.log.waited s.tasknameToStatus (s.log.completed.map Prod.snd)

theorem Recorded.step (records : s.Recorded) (step : Step s a s') : s'.Recorded := by
  cases step with
  | @lockMap x task here free => exact records.enter task.taskname
  | @finish x name status here found nonzero =>
    have one : status = 1 := (records.binary name status found).resolve_left nonzero
    exact records.erase (one ▸ found)
  | @complete w task here free =>
    have stored := records.store task
    rwa [← List.map_singleton (f := Prod.snd) (a := (w, task)), ← List.map_append] at stored
  | _ => exact records

theorem Run.recorded (run : Run allowed s) : s.Recorded := by
  induction run with
  | start => exact ⟨fun name => by simp [init], fun name status found => by simp [init] at found⟩
  | next _ _ step ih => exact Recorded.step ih step

end OsLabs.Pool
