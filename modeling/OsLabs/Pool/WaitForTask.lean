import OsLabs.Pool.Turns

namespace OsLabs.Pool
open Interleaving

variable {n : Nat} {Client Name : Type} [DecidableEq Name] [DecidableEq Client]
  {allowed : ThreadPool n Client Name → Request Name → Prop} {s s' : ThreadPool n Client Name}
  {a : Option (Request Name)}

/-- The task of a call of `SubmitTask` that has not filled the maps yet. -/
def Call.unfilled : Call Name → Option (Task Name)
  | .submitting task => some task
  | .pushed task => some task
  | _ => none

/-- The task of a call of `SubmitTask` that has filled the maps. -/
def Call.filled : Call Name → Option (Task Name)
  | .inserted task => some task
  | .mapLeft task => some task
  | _ => none

/-- What the maps hold: both entries of a name from its `SubmitTask` to the end of its
`WaitForTask`, and none outside. -/
structure Entries (condvar status : Name → Option Nat) (called returned : List (Task Name)) (waited : List Name)
    (workers : Fin n → Stage Name) (calls : Thread n Client → Call Name) : Prop where
  present : ∀ name, waited.count name < named name returned → status name ≠ none ∧ condvar name ≠ none
  filled : ∀ x task, (calls x).filled = some task → status task.taskname ≠ none ∧ condvar task.taskname ≠ none
  absent : ∀ name, named name called ≤ waited.count name → status name = none ∧ condvar name = none
  unfilled : ∀ x task, (calls x).unfilled = some task → status task.taskname = none ∧ condvar task.taskname = none
  signalling : ∀ w task, workers w = .signalling task → status task.taskname = some 1

abbrev ThreadPool.Mapped (s : ThreadPool n Client Name) : Prop :=
  Entries s.tasknameToCondvar s.tasknameToStatus s.log.called s.log.returned s.log.waited s.workers s.calls

section Entries
variable {condvar status : Name → Option Nat} {called returned : List (Task Name)} {waited : List Name}
  {workers : Fin n → Stage Name} {calls : Thread n Client → Call Name} {x : Thread n Client}
  {call : Call Name} {w : Fin n}

theorem Entries.keep (entries : Entries condvar status called returned waited workers calls)
    (filled : ∀ task, call.filled = some task → (calls x).filled = some task)
    (unfilled : ∀ task, call.unfilled = some task → (calls x).unfilled = some task) :
    Entries condvar status called returned waited workers (Function.update calls x call) := by
  refine ⟨entries.present, fun y task atTask => ?_, entries.absent, fun y task atTask => ?_, entries.signalling⟩
  · rcases moved Call.filled atTask with ⟨_, new⟩ | ⟨_, old⟩
    · exact entries.filled x task (filled task new)
    · exact entries.filled y task old
  · rcases moved Call.unfilled atTask with ⟨_, new⟩ | ⟨_, old⟩
    · exact entries.unfilled x task (unfilled task new)
    · exact entries.unfilled y task old

omit [DecidableEq Client] in
theorem Entries.work (entries : Entries condvar status called returned waited workers calls) {stage : Stage Name}
    (quiet : ∀ task, stage ≠ .signalling task) :
    Entries condvar status called returned waited (Function.update workers w stage) calls := by
  refine ⟨entries.present, entries.filled, entries.absent, entries.unfilled, fun v task here => ?_⟩
  exact entries.signalling v task ((moved_to here).resolve_left fun ⟨_, signals⟩ => quiet task signals).2

/-- A new submission finds no entries of its name. -/
theorem Entries.submit (entries : Entries condvar status called returned waited workers calls) (task : Task Name)
    (permitted : named task.taskname called ≤ waited.count task.taskname) :
    Entries condvar status (called ++ [task]) returned waited workers
      (Function.update calls x (.submitting task)) := by
  refine ⟨entries.present, fun y other atOther => ?_, fun name settled => ?_, fun y other atOther => ?_,
    entries.signalling⟩
  · rcases moved Call.filled atOther with ⟨_, new⟩ | ⟨_, old⟩
    · cases new
    · exact entries.filled y other old
  · rw [named_append] at settled
    exact entries.absent name ((Nat.le_add_right _ _).trans settled)
  · rcases moved Call.unfilled atOther with ⟨_, new⟩ | ⟨_, old⟩
    · cases new
      exact entries.absent _ permitted
    · exact entries.unfilled y other old

theorem insert_ne_none {V : Type} {m : Name → Option V} {name other : Name} {value : V} (old : m other ≠ none) :
    insert m name value other ≠ none := by
  rw [insert_eq]
  by_cases same : other = name <;> simp [same, old]

/-- The maps are filled for a task whose name has no other submission under way. -/
theorem Entries.fill (entries : Entries condvar status called returned waited workers calls)
    {task : Task Name} {c : Nat}
    (more : waited.count task.taskname < named task.taskname called)
    (only : ∀ y other, y ≠ x → (calls y).unfilled = some other → other.taskname ≠ task.taskname) :
    Entries (insert condvar task.taskname c) (insert status task.taskname 0) called returned waited workers
      (Function.update calls x (.inserted task)) := by
  refine ⟨fun name later => ?_, fun y other atOther => ?_, fun name settled => ?_, fun y other atOther => ?_,
    fun v other signals => ?_⟩
  · obtain ⟨hasStatus, hasCondvar⟩ := entries.present name later
    exact ⟨insert_ne_none hasStatus, insert_ne_none hasCondvar⟩
  · rcases moved Call.filled atOther with ⟨_, new⟩ | ⟨_, old⟩
    · cases new
      simp [insert_eq]
    · obtain ⟨hasStatus, hasCondvar⟩ := entries.filled y other old
      exact ⟨insert_ne_none hasStatus, insert_ne_none hasCondvar⟩
  · have away : name ≠ task.taskname := by
      rintro rfl
      omega
    simpa only [insert_eq, if_neg away] using entries.absent name settled
  · rcases moved Call.unfilled atOther with ⟨_, new⟩ | ⟨away, old⟩
    · cases new
    · simpa only [insert_eq, if_neg (only y other away old)] using entries.unfilled y other old
  · have one := entries.signalling v other signals
    rw [insert_eq]
    by_cases same : other.taskname = task.taskname
    · rw [if_pos same, ← same, one, Option.getD_some]
    · rw [if_neg same, one]

theorem Entries.submitted (entries : Entries condvar status called returned waited workers calls) {task : Task Name}
    (here : (calls x).filled = some task) :
    Entries condvar status called (returned ++ [task]) waited workers (Function.update calls x .outside) := by
  have kept : Entries condvar status called returned waited workers (Function.update calls x .outside) :=
    entries.keep (by simp [Call.filled]) (by simp [Call.unfilled])
  refine ⟨fun name later => ?_, kept.filled, kept.absent, kept.unfilled, kept.signalling⟩
  rw [named_append, named_singleton] at later
  by_cases same : task.taskname = name
  · exact same ▸ entries.filled x task here
  · exact entries.present name (by rwa [if_neg same, Nat.add_zero] at later)

/-- The end of the only wait for a name removes its entries. -/
theorem Entries.erase (entries : Entries condvar status called returned waited workers calls) {name : Name}
    (last : named name returned ≤ waited.count name + 1)
    (only : ∀ y task, (calls y).filled = some task → task.taskname ≠ name)
    (quiet : ∀ w task, workers w ≠ .signalling task) :
    Entries (Function.update condvar name none) (Function.update status name none) called returned
      (waited ++ [name]) workers
      (Function.update calls x .outside) := by
  have kept : Entries condvar status called returned waited workers (Function.update calls x .outside) :=
    entries.keep (by simp [Call.filled]) (by simp [Call.unfilled])
  refine ⟨fun other later => ?_, fun y task atTask => ?_, fun other settled => ?_, fun y task atTask => ?_,
    fun w task signals => absurd signals (quiet w task)⟩
  · rw [count_snoc] at later
    by_cases same : name = other
    · subst same
      rw [if_pos rfl] at later
      omega
    · rw [if_neg same] at later
      simpa only [Function.update_of_ne (Ne.symm same)] using entries.present other later
  · rcases moved Call.filled atTask with ⟨_, new⟩ | ⟨_, old⟩
    · cases new
    · simpa only [Function.update_of_ne (only y task old)] using entries.filled y task old
  · rw [count_snoc] at settled
    by_cases same : other = name
    · simp [same]
    · rw [if_neg (Ne.symm same)] at settled
      simpa only [Function.update_of_ne same] using entries.absent other settled
  · by_cases same : task.taskname = name
    · simp [same]
    · simpa only [Function.update_of_ne same] using kept.unfilled y task atTask

omit [DecidableEq Client] in
/-- A task is recorded as done while its name has entries. -/
theorem Entries.record (entries : Entries condvar status called returned waited workers calls) {task : Task Name}
    (more : waited.count task.taskname < named task.taskname called)
    (only : ∀ y other, (calls y).unfilled = some other → other.taskname ≠ task.taskname) :
    Entries condvar (Function.update status task.taskname (some 1)) called returned waited
      (Function.update workers w (.signalling task)) calls := by
  have present : ∀ name, status name ≠ none → Function.update status task.taskname (some 1) name ≠ none := by
    intro name old
    by_cases same : name = task.taskname
    · simp [same]
    · rwa [Function.update_of_ne same]
  refine ⟨fun name later => ?_, fun y other atOther => ?_, fun name settled => ?_, fun y other atOther => ?_,
    fun v other signals => ?_⟩
  · obtain ⟨hasStatus, hasCondvar⟩ := entries.present name later
    exact ⟨present name hasStatus, hasCondvar⟩
  · obtain ⟨hasStatus, hasCondvar⟩ := entries.filled y other atOther
    exact ⟨present _ hasStatus, hasCondvar⟩
  · have away : name ≠ task.taskname := by
      rintro rfl
      omega
    simpa only [Function.update_of_ne away] using entries.absent name settled
  · simpa only [Function.update_of_ne (only y other atOther)] using entries.unfilled y other atOther
  · rcases moved_to signals with ⟨_, new⟩ | ⟨_, old⟩
    · rw [Stage.signalling.injEq] at new
      rw [new, Function.update_self]
    · by_cases same : other.taskname = task.taskname
      · rw [same, Function.update_self]
      · rw [Function.update_of_ne same]
        exact entries.signalling v other old

omit [DecidableEq Client] in
/-- A signal creates no condition variable for a name without entries. -/
theorem Entries.signal (entries : Entries condvar status called returned waited workers calls)
    {task : Task Name} {c : Nat}
    (here : workers w = .signalling task) :
    Entries (insert condvar task.taskname c) status called returned waited
      (Function.update workers w .closing) calls := by
  have one := entries.signalling w task here
  have worked : Entries condvar status called returned waited (Function.update workers w .closing) calls :=
    entries.work (by simp)
  refine ⟨fun name later => ?_, fun y other atOther => ?_, fun name settled => ?_, fun y other atOther => ?_,
    worked.signalling⟩
  · obtain ⟨hasStatus, hasCondvar⟩ := entries.present name later
    exact ⟨hasStatus, insert_ne_none hasCondvar⟩
  · obtain ⟨hasStatus, hasCondvar⟩ := entries.filled y other atOther
    exact ⟨hasStatus, insert_ne_none hasCondvar⟩
  · obtain ⟨noStatus, noCondvar⟩ := entries.absent name settled
    have away : name ≠ task.taskname := by
      rintro rfl
      simp [one] at noStatus
    exact ⟨noStatus, by rwa [insert_eq, if_neg away]⟩
  · obtain ⟨noStatus, noCondvar⟩ := entries.unfilled y other atOther
    have away : other.taskname ≠ task.taskname := by
      intro same
      simp [same, one] at noStatus
    exact ⟨noStatus, by rwa [insert_eq, if_neg away]⟩

end Entries

section Submissions
variable {x y : Thread n Client} {task other : Task Name}

omit [DecidableEq Name] [DecidableEq Client] in
theorem Call.submission_of_unfilled {call : Call Name} (unfilled : call.unfilled = some task) :
    call.submission = some task := by
  cases call <;> simp_all [Call.unfilled, Call.submission]

omit [DecidableEq Name] [DecidableEq Client] in
theorem Call.submission_of_filled {call : Call Name} (filled : call.filled = some task) :
    call.submission = some task := by
  cases call <;> simp_all [Call.filled, Call.submission]

/-- While a task is being submitted, its name has more calls than returns of `SubmitTask`. -/
theorem Run.open_submission (run : Run allowed s) (inside : (s.calls x).submission = some task) :
    named task.taskname s.log.returned < named task.taskname s.log.called := by
  have subs := run.submitted
  obtain ⟨known, opened⟩ := subs.under x task inside
  exact named_lt subs.ended subs.finished known opened

/-- One task of a name is submitted at a time. -/
theorem Run.one_submission (run : Run waitsOnce s) (inside : (s.calls x).submission = some task)
    (inside' : (s.calls y).submission = some other) (same : other.taskname = task.taskname) : x = y := by
  have subs := run.submitted
  have turns := run.taken.turns
  obtain ⟨known, opened⟩ := subs.under x task inside
  obtain ⟨known', opened'⟩ := subs.under y other inside'
  by_contra away
  have apart : task ≠ other := by
    rintro rfl
    exact away (subs.alone x y task inside inside')
  have two := named_lt_two subs.ended subs.finished known opened known' opened' apart same
  have submits := turns.submits task.taskname
  have asked := turns.asked task.taskname
  have answered := turns.answered task.taskname
  omega

/-- The task a worker is about to record has been submitted and not been waited for. -/
theorem Run.about_to_record (run : Run waitsOnce s) {w : Fin n} (here : s.workers w = .deleted task) :
    task ∈ s.log.called ∧ task ∈ s.log.returned ∧ task ∉ s.log.completed.map Prod.snd := by
  have worked := run.worked
  have onceDeleted := Handover.subperm_nodup (Handover.subperm_map Prod.snd
    ((run.deleted_ran.trans run.ran_run).trans run.run_popped)) run.popped_once
  have busy : task ∈ (Stage.toComplete ∘ s.workers) w := by simp [here, Stage.toComplete]
  have inDeleted := worked.completed.mem_iff.mpr (.inr busy)
  have inPopped := ((run.deleted_ran.trans run.ran_run).trans run.run_popped).subset inDeleted
  have returned : task ∈ s.log.returned := run.handedOver.popped (List.mem_map.mpr ⟨(w, task), inPopped, rfl⟩)
  refine ⟨run.submitted.finished returned, returned, fun recorded => ?_⟩
  obtain ⟨⟨v, other⟩, entry, rfl⟩ := List.mem_map.mp recorded
  exact worked.completed.fresh onceDeleted busy entry

end Submissions

theorem Run.mapped (run : Run waitsOnce s) : s.Mapped := by
  induction run with
  | start =>
    exact ⟨fun name later => absurd later (Nat.not_lt_zero _), by simp [init, Call.filled], fun _ _ => ⟨rfl, rfl⟩,
      by simp [init, Call.unfilled], by simp [init]⟩
  | @next s s' a earlier permitted step entries =>
    have subs := earlier.submitted
    have turns := earlier.taken.turns
    have counted := earlier.returned_called
    cases step with
    | submit x name ready => exact entries.submit ⟨_, name⟩ (permitted _ rfl)
    | lockQueue here => exact entries.keep (by simp [Call.filled]) (by rw [here]; exact fun _ same => same)
    | @lockMap x task here =>
      have inside : (s.calls x).submission = some task := by rw [here]; rfl
      have opened := earlier.open_submission inside
      have asked := turns.asked task.taskname
      have answered := turns.answered task.taskname
      refine entries.fill (by omega) fun y other away unfilled same => away ?_
      exact (earlier.one_submission inside (Call.submission_of_unfilled unfilled) same).symm
    | unlockMap here => exact entries.keep (by rw [here]; exact fun _ same => same) (by simp [Call.unfilled])
    | unlockQueue here => exact entries.submitted (by rw [here]; rfl)
    | @finish x name status here found nonzero =>
      have waiter := turns.waiter x name (by rw [here]; rfl)
      have asked := turns.asked name
      have submits := turns.submits name
      have returns := counted name
      refine entries.erase (by omega) (fun y task filled same => ?_) fun w task signals => ?_
      · have opened := earlier.open_submission (Call.submission_of_filled filled)
        rw [same] at opened
        omega
      · have locked := earlier.locked
        have equal := locked.agree.exclusive (x := x) (y := .worker w) (l := .map)
          (by rw [Frame.holds, frame_call_eq, here, Call.holds, Bool.or_true])
          (by simp [Frame.holds, frame, signals, Stage.holds])
        obtain ⟨_, running⟩ := locked.settled.running here (by simp) w equal
        simp [signals] at running
    | @complete w task here =>
      obtain ⟨known, returned, missing⟩ := earlier.about_to_record here
      have sub := earlier.completed_called
      have once := Handover.subperm_nodup sub subs.distinct
      have recorded := earlier.recorded.counted task.taskname
      have more := named_lt once sub.subset known missing
      refine entries.record (by omega) fun y other unfilled same => ?_
      obtain ⟨known', opened⟩ := subs.under y other (Call.submission_of_unfilled unfilled)
      have missing' : other ∉ s.log.completed.map Prod.snd := fun entry =>
        opened (earlier.handedOver.popped ((Handover.subperm_map Prod.snd earlier.completed_popped).subset entry))
      have apart : task ≠ other := by
        rintro rfl
        exact opened returned
      have two := named_lt_two once sub.subset known missing known' missing' apart same
      have submits := turns.submits task.taskname
      omega
    | signalNobody here => exact entries.signal here
    | signal here asleep => exact (entries.signal here).keep (by simp [Call.filled]) (by simp [Call.unfilled])
    | wait | enter | throw | sleep | spurious | stop | setStop | unlockStop | join | stopped =>
      exact entries.keep (by simp [Call.filled]) (by simp [Call.unfilled])
    | checkStop | popNothing | pop | run | runReturns | delete | leaveMap => exact entries.work (by simp)
    | @leaveStop w stop => exact entries.work (by cases stop <;> simp)
    | @leaveQueue w task => exact entries.work (by cases task <;> simp)

/-- Both lookups of a wait loop find their entries. -/
theorem Run.lookups (run : Run waitsOnce s) {x : Thread n Client} {name : Name} (here : s.calls x = .testing name) :
    s.tasknameToStatus name ≠ none ∧ s.tasknameToCondvar name ≠ none := by
  have turns := run.taken.turns
  have waiter := turns.waiter x name (by rw [here]; rfl)
  have asked := turns.asked name
  exact run.mapped.present name (by omega)

theorem Run.never_throws (run : Run waitsOnce s) : ∀ x, s.calls x ≠ .thrown := by
  induction run with
  | start => simp [init]
  | @next s s' a earlier permitted step ih =>
    have still : ∀ {y : Thread n Client} {call : Call Name}, call ≠ .thrown →
        ∀ x, Function.update s.calls y call x ≠ .thrown := fun other x thrown => other (mover (ih x) thrown).2
    cases step with
    | throw here missing =>
      obtain ⟨hasStatus, hasCondvar⟩ := earlier.lookups here
      rcases missing with noStatus | ⟨_, noCondvar⟩
      · exact absurd noStatus hasStatus
      · exact absurd noCondvar hasCondvar
    | submit | lockQueue | lockMap | unlockMap | unlockQueue | wait | enter | sleep | spurious | finish | signal | stop
      | setStop | unlockStop | join | stopped => exact still (by simp)
    | _ => exact ih

/-- The call of `WaitForTask` that returns has found a status other than 0, and removes the entries. -/
theorem Step.returns {x : Thread n Client} {name : Name} (step : Step s a s') (here : s.calls x = .testing name)
    (left : s'.calls x = .outside) : (∃ status, s.tasknameToStatus name = some status ∧ status ≠ 0) ∧
      s'.log = { s.log with waited := s.log.waited ++ [name] } ∧
      s'.tasknameToStatus name = none ∧ s'.tasknameToCondvar name = none := by
  have inside : s.calls x ≠ .outside := by simp [here]
  cases step with
  | @finish y other status there found nonzero =>
    obtain ⟨rfl, _⟩ := mover inside left
    rw [here, Call.testing.injEq] at there
    subst there
    exact ⟨⟨status, found, nonzero⟩, rfl, Function.update_self .., Function.update_self ..⟩
  | submit | lockQueue | lockMap | unlockMap | wait | enter | throw | sleep | spurious | signal | stop | setStop
    | unlockStop | join => cases (mover inside left).2
  | unlockQueue there | stopped there =>
    obtain ⟨rfl, _⟩ := mover inside left
    simp [here] at there
  | _ =>
    simp only [here] at left
    cases left

/-- The task of the latest call of `SubmitTask` with a name. -/
def ThreadPool.lastSubmitted (s : ThreadPool n Client Name) (name : Name) : Option (Task Name) :=
  (s.log.called.filter fun task => task.taskname = name).getLast?

/-- What callers of `WaitForTask` rely on. -/
structure WaitsSound (s : ThreadPool n Client Name) : Prop where
  lookups : ∀ x name, s.calls x = .testing name → s.tasknameToStatus name ≠ none ∧ s.tasknameToCondvar name ≠ none
  never_throws : ∀ x, s.calls x ≠ .thrown
  returns : ∀ x name a s', Step s a s' → s.calls x = .testing name → s'.calls x = .outside →
    (∃ task w, s'.lastSubmitted name = some task ∧ s'.returnsOf task = [(w, task)] ∧ s'.deletesOf task = [(w, task)]) ∧
      s'.tasknameToStatus name = none ∧ s'.tasknameToCondvar name = none
  clean : ∀ name, named name s.log.called ≤ s.log.waited.count name →
    s.tasknameToStatus name = none ∧ s.tasknameToCondvar name = none
  reuse : ∀ x task a s', Step s a s' → s.calls x = .pushed task → s'.calls x = .inserted task →
    s'.tasknameToStatus task.taskname = some 0

theorem Run.returns (run : Run waitsOnce s) {x : Thread n Client} {name : Name} (step : Step s a s')
    (here : s.calls x = .testing name) (left : s'.calls x = .outside) :
    ∃ task w, s'.lastSubmitted name = some task ∧ s'.returnsOf task = [(w, task)] ∧
      s'.deletesOf task = [(w, task)] := by
  obtain ⟨⟨status, found, nonzero⟩, log, _⟩ := step.returns here left
  have one := (run.recorded.binary name status found).resolve_left nonzero
  have turns := run.taken.turns
  have waiter := turns.waiter x name (by rw [here]; rfl)
  have asked := turns.asked name
  have submits := turns.submits name
  have returned := run.returned_called name
  -- The status is 1, so that all tasks of the name have been recorded as done.
  have counted := run.recorded.counted name
  rw [found, one, if_pos rfl] at counted
  have some_task : s.log.called.filter (fun task => task.taskname = name) ≠ [] := by
    intro none
    have zero : named name s.log.called = 0 := by rw [named, List.countP_eq_length_filter, none, List.length_nil]
    omega
  have last := List.getLast?_eq_some_getLast some_task
  generalize (s.log.called.filter fun task => task.taskname = name).getLast some_task = task at last
  obtain ⟨member, named_so⟩ := List.mem_filter.mp (List.mem_of_getLast? last)
  obtain rfl : task.taskname = name := by simpa using named_so
  obtain ⟨w, completed⟩ := run.all_completed member (by omega)
  obtain ⟨_, ran, deleted⟩ := run.completed_done completed
  refine ⟨task, w, ?_, ?_, ?_⟩
  · rw [ThreadPool.lastSubmitted, log, last]
  · rw [ThreadPool.returnsOf, log]
    exact ran
  · rw [ThreadPool.deletesOf, log]
    exact deleted

/-- Under its contract `WaitForTask` returns only for a task that has been run and deleted, finds
its entries in every iteration, and leaves none behind, so that the name starts anew. -/
theorem waitForTask_sound (run : Run waitsOnce s) : WaitsSound s where
  lookups _ _ := run.lookups
  never_throws := run.never_throws
  returns x name a s' step here left := by
    obtain ⟨_, _, noStatus, noCondvar⟩ := step.returns here left
    exact ⟨run.returns step here left, noStatus, noCondvar⟩
  clean := run.mapped.absent
  reuse x task a s' step here filled := by
    obtain ⟨noStatus, _⟩ := run.mapped.unfilled x task (by rw [here]; rfl)
    have before : s.calls x ≠ .inserted task := by simp [here]
    cases step with
    | @lockMap y other there =>
      obtain ⟨rfl, same⟩ := mover before filled
      rw [Call.inserted.injEq] at same
      subst same
      simp [insert_eq, noStatus]
    | submit | lockQueue | unlockMap | unlockQueue | wait | enter | throw | sleep | spurious | finish | signal | stop
      | setStop | unlockStop | join | stopped => cases (mover before filled).2
    | _ =>
      simp only [here] at filled
      cases filled

/-- A client waits for a task that is done. -/
theorem client_tests : ∃ s : ThreadPool 1 Unit Unit, Run waitsOnce s ∧ s.calls (.client ()) = .testing () ∧
    s.tasknameToStatus () = some 1 := by
  have fresh : Run waitsOnce (init : ThreadPool 1 Unit Unit) := .start
  have called := fresh.request (r := .submitTask ()) le_rfl (.submit (.client ()) () rfl)
  have pushed := called.silent (.lockQueue (x := .client ()) rfl rfl)
  have entered := pushed.silent (.lockMap (x := .client ()) rfl rfl)
  have left := entered.silent (.unlockMap (x := .client ()) rfl)
  have submitted := left.silent (.unlockQueue (x := .client ()) rfl)
  have checked := submitted.silent (.checkStop (w := 0) rfl rfl)
  have goesOn := checked.silent (.leaveStop (w := 0) rfl)
  have popped := goesOn.silent (.pop (w := 0) rfl rfl rfl)
  have taken := popped.silent (.leaveQueue (w := 0) rfl)
  have runs := taken.silent (.run (w := 0) rfl)
  have ran := runs.silent (.runReturns (w := 0) rfl rfl)
  have deleted := ran.silent (.delete (w := 0) rfl)
  have completed := deleted.silent (.complete (w := 0) rfl rfl)
  have signalled := completed.silent (.signalNobody (w := 0) rfl (by rintro (w | c) name asleep <;> cases asleep))
  have closed := signalled.silent (.leaveMap (w := 0) rfl)
  have waiting := closed.request (r := .waitForTask ()) Nat.zero_lt_one (.wait (.client ()) () rfl)
  have tested := waiting.silent (.enter (x := .client ()) (.inl rfl) rfl)
  exact ⟨_, tested, rfl, rfl⟩

theorem client_tests_sound : ∃ s : ThreadPool 1 Unit Unit, s.calls (.client ()) = .testing () ∧
    s.tasknameToStatus () = some 1 ∧ WaitsSound s := by
  obtain ⟨s, run, testing, done⟩ := client_tests
  exact ⟨s, testing, done, waitForTask_sound run⟩

end OsLabs.Pool
