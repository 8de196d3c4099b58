import OsLabs.Pool.History

namespace OsLabs.Pool
open Handover Interleaving

variable {n : Nat} {Client Name : Type} [DecidableEq Name] [DecidableEq Client]
  {allowed : ThreadPool n Client Name → Request Name → Prop} {s s' : ThreadPool n Client Name}
  {a : Option (Request Name)} {w : Fin n} {task : Task Name}

section Logs

theorem Run.popped_once (run : Run allowed s) : (s.log.popped.map Prod.snd).Nodup := by
  have once := run.submitted.once
  rw [run.worked.queue] at once
  exact once.sublist (List.sublist_append_left _ _)

theorem Run.run_popped (run : Run allowed s) : s.log.run.Subperm s.log.popped := run.worked.run.subperm

theorem Run.ran_run (run : Run allowed s) : s.log.ran.Subperm s.log.run := run.worked.ran.subperm

theorem Run.deleted_ran (run : Run allowed s) : s.log.deleted.Subperm s.log.ran := run.worked.deleted.subperm

theorem Run.completed_deleted (run : Run allowed s) : s.log.completed.Subperm s.log.deleted :=
  run.worked.completed.subperm

theorem Run.completed_popped (run : Run allowed s) : s.log.completed.Subperm s.log.popped :=
  ((run.completed_deleted.trans run.deleted_ran).trans run.ran_run).trans run.run_popped

/-- Every task recorded as done has been submitted, and each is recorded once. -/
theorem Run.completed_called (run : Run allowed s) : (s.log.completed.map Prod.snd).Subperm s.log.called := by
  have popped : (s.log.popped.map Prod.snd).Subperm s.log.pushed := by
    rw [run.worked.queue]
    exact (List.sublist_append_left _ _).subperm
  exact ((subperm_map Prod.snd run.completed_popped).trans popped).trans
    (List.subperm_of_subset run.submitted.once run.submitted.origin)

end Logs

/-- The calls of `Run` of a task, with the workers that make them. -/
def ThreadPool.runsOf (s : ThreadPool n Client Name) (task : Task Name) : List (Fin n × Task Name) :=
  s.log.run.filter fun entry => entry.2 = task

def ThreadPool.returnsOf (s : ThreadPool n Client Name) (task : Task Name) : List (Fin n × Task Name) :=
  s.log.ran.filter fun entry => entry.2 = task

def ThreadPool.deletesOf (s : ThreadPool n Client Name) (task : Task Name) : List (Fin n × Task Name) :=
  s.log.deleted.filter fun entry => entry.2 = task

/-- How far the worker that has popped a task has come with it. It goes on with the loop only
after it has called `Run` once, `Run` has returned, and the task has been deleted once. -/
inductive Progress (s : ThreadPool n Client Name) (w : Fin n) (task : Task Name) : Prop
  | taken (stage : task ∈ (s.workers w).toRun) (run : s.runsOf task = []) (ran : s.returnsOf task = [])
    (deleted : s.deletesOf task = [])
  | running (stage : task ∈ (s.workers w).toReturn) (run : s.runsOf task = [(w, task)]) (ran : s.returnsOf task = [])
    (deleted : s.deletesOf task = [])
  | ran (stage : task ∈ (s.workers w).toDelete) (run : s.runsOf task = [(w, task)])
    (ran : s.returnsOf task = [(w, task)]) (deleted : s.deletesOf task = [])
  | deleted (run : s.runsOf task = [(w, task)]) (ran : s.returnsOf task = [(w, task)])
    (deleted : s.deletesOf task = [(w, task)])

/-- The tasks are popped in the order in which they were pushed and no task twice, each popped
task has its `Run` called once and is then deleted once, and no other task has. -/
structure RunsOnce (s : ThreadPool n Client Name) : Prop where
  order : s.log.popped.map Prod.snd <+: s.log.pushed
  once : (s.log.popped.map Prod.snd).Nodup
  progress : ∀ w task, (w, task) ∈ s.log.popped → Progress s w task
  only : ∀ w task, (w, task) ∈ s.log.run → (w, task) ∈ s.log.popped

theorem Run.progress (run : Run allowed s) (member : (w, task) ∈ s.log.popped) : Progress s w task := by
  have once := run.popped_once
  have onceRun := subperm_nodup (subperm_map Prod.snd run.run_popped) once
  have onceRan := subperm_nodup (subperm_map Prod.snd run.ran_run) onceRun
  have onceDeleted := subperm_nodup (subperm_map Prod.snd run.deleted_ran) onceRan
  have absentRan : (∀ v, (v, task) ∉ s.log.run) → ∀ v, (v, task) ∉ s.log.ran :=
    fun absent v inside => absent v (run.ran_run.subset inside)
  have absentDeleted : (∀ v, (v, task) ∉ s.log.ran) → ∀ v, (v, task) ∉ s.log.deleted :=
    fun absent v inside => absent v (run.deleted_ran.subset inside)
  rcases run.worked.run.mem_iff.mp member with inRun | stage
  · rcases run.worked.ran.mem_iff.mp inRun with inRan | stage
    · rcases run.worked.deleted.mem_iff.mp inRan with inDeleted | stage
      · exact .deleted (entries_of_mem onceRun inRun) (entries_of_mem onceRan inRan)
          (entries_of_mem onceDeleted inDeleted)
      · have fresh := fun v => @Follows.fresh _ _ _ w v task _ _ _ run.worked.deleted onceRan stage
        exact .ran stage (entries_of_mem onceRun inRun) (entries_of_mem onceRan inRan) (entries_of_not_mem fresh)
    · have fresh := fun v => @Follows.fresh _ _ _ w v task _ _ _ run.worked.ran onceRun stage
      exact .running stage (entries_of_mem onceRun inRun) (entries_of_not_mem fresh)
        (entries_of_not_mem (absentDeleted fresh))
  · have fresh := fun v => @Follows.fresh _ _ _ w v task _ _ _ run.worked.run once stage
    exact .taken stage (entries_of_not_mem fresh) (entries_of_not_mem (absentRan fresh))
      (entries_of_not_mem (absentDeleted (absentRan fresh)))

theorem Run.runsOnce (run : Run allowed s) : RunsOnce s where
  order := ⟨s.taskQueue, run.worked.queue.symm⟩
  once := run.popped_once
  progress _ _ := run.progress
  only _ _ member := run.run_popped.subset member

/-- As many calls of `WaitForTask` have returned as tasks were submitted, name by name. -/
def ThreadPool.AllWaited (s : ThreadPool n Client Name) : Prop :=
  ∀ name, named name s.log.called ≤ s.log.waited.count name

/-- `Stop` is called only after every submitted task has been waited for. -/
def stopLast (s : ThreadPool n Client Name) : Request Name → Prop
  | .submitTask _ => s.log.stops = 0
  | .waitForTask _ => True
  | .stop => s.AllWaited

/-- Every submitted task has been run and deleted, and every worker has left its loop. -/
structure Done (s : ThreadPool n Client Name) : Prop where
  tasks : ∀ task ∈ s.log.called, ∃ w, s.runsOf task = [(w, task)] ∧ s.returnsOf task = [(w, task)] ∧
    s.deletesOf task = [(w, task)]
  workers : ∀ w, s.workers w = .exited

/-- The number of workers that a call of `Stop` has joined. -/
def Call.joined : Call Name → Option Nat
  | .stopping => some 0
  | .stopSet => some 0
  | .joining i => some i
  | _ => none

/-- A thread inside `Stop` has called it, and the workers it has joined have left their loops. -/
def Stopping (stops : Nat) (workers : Fin n → Stage Name) (calls : Thread n Client → Call Name) : Prop :=
  ∀ x i, (calls x).joined = some i → stops ≠ 0 ∧ ∀ w : Fin n, w.val < i → workers w = .exited

section Stopping
variable {stops : Nat} {workers : Fin n → Stage Name} {calls : Thread n Client → Call Name} {x : Thread n Client}

omit [DecidableEq Name] in
theorem Stopping.move (stopping : Stopping stops workers calls) {call : Call Name}
    (sound : ∀ i, call.joined = some i → stops ≠ 0 ∧ ∀ w : Fin n, w.val < i → workers w = .exited) :
    Stopping stops workers (Function.update calls x call) := by
  intro y i inside
  rcases moved Call.joined inside with ⟨_, here⟩ | ⟨_, stayed⟩
  · exact sound i here
  · exact stopping y i stayed

omit [DecidableEq Name] [DecidableEq Client] in
/-- A worker that has left its loop does not come back. -/
theorem Stopping.work (stopping : Stopping stops workers calls) {stage next : Stage Name} (here : workers w = stage)
    (inLoop : stage ≠ .exited) : Stopping stops (Function.update workers w next) calls := by
  intro y i inside
  obtain ⟨called, exited⟩ := stopping y i inside
  refine ⟨called, fun v below => ?_⟩
  by_cases same : v = w
  · exact absurd (here ▸ same ▸ exited v below) inLoop
  · rw [Function.update_of_ne same]
    exact exited v below

end Stopping

theorem Stopping.step (stopping : Stopping s.log.stops s.workers s.calls) (step : Step s a s') :
    Stopping s'.log.stops s'.workers s'.calls := by
  cases step with
  | submit | lockQueue | lockMap | unlockMap | unlockQueue | wait | enter | throw | sleep | spurious | finish | stopped =>
    exact stopping.move (by simp [Call.joined])
  | checkStop here | leaveStop here | popNothing here | pop here | leaveQueue here | run here | runReturns here
    | delete here | complete here | signalNobody here | leaveMap here => exact stopping.work here (by simp)
  | signal here =>
    exact (stopping.work here (by simp)).move (by simp [Call.joined])
  | stop c ready =>
    have counted : Stopping (s.log.stops + 1) s.workers s.calls :=
      fun x i inside => ⟨Nat.succ_ne_zero _, (stopping x i inside).2⟩
    exact counted.move (by simp [Call.joined])
  | setStop here =>
    exact stopping.move fun i zero => stopping _ i (by rw [here]; exact zero)
  | unlockStop here =>
    exact stopping.move fun i zero => stopping _ i (by rw [here]; exact zero)
  | @join c w here exited =>
    refine stopping.move fun i next => ?_
    obtain ⟨called, earlier⟩ := stopping _ w (by rw [here]; rfl)
    obtain rfl : w.val + 1 = i := by simpa [Call.joined] using next
    refine ⟨called, fun v below => ?_⟩
    rcases Nat.lt_succ_iff_lt_or_eq.mp below with before | same
    · exact earlier v before
    · exact Fin.ext same ▸ exited

theorem Run.stopping (run : Run allowed s) : Stopping s.log.stops s.workers s.calls := by
  induction run with
  | start => exact fun x i inside => by simp [init, Call.joined] at inside
  | next _ _ step ih => exact ih.step step

/-- Once `Stop` has been called, every task submitted has been waited for. -/
theorem Run.allWaited (run : Run stopLast s) : s.log.stops ≠ 0 → s.AllWaited := by
  induction run with
  | start => exact fun called => absurd rfl called
  | @next s s' a earlier permitted step ih =>
    cases step with
    | submit x name => exact fun called => absurd (permitted _ rfl) called
    | @finish x name =>
      intro called other
      refine (ih called other).trans ?_
      rw [List.count_append]
      exact Nat.le_add_right _ _
    | stop c => exact fun _ => permitted _ rfl
    | _ => exact ih

/-- When as many tasks of a name are recorded as done as were submitted, all of them are. -/
theorem Run.all_completed (run : Run allowed s) (member : task ∈ s.log.called)
    (all : named task.taskname s.log.called ≤ named task.taskname (s.log.completed.map Prod.snd)) :
    ∃ w, (w, task) ∈ s.log.completed := by
  have sub := run.completed_called
  unfold named at all
  rw [List.countP_eq_length_filter, List.countP_eq_length_filter] at all
  have perm := (sub.filter fun other => other.taskname = task.taskname).perm_of_length_le all
  have inside : task ∈ s.log.completed.map Prod.snd := by
    have found := perm.mem_iff.mpr (List.mem_filter.mpr ⟨member, by simp⟩)
    exact (List.mem_filter.mp found).1
  obtain ⟨⟨w, other⟩, entry, rfl⟩ := List.mem_map.mp inside
  exact ⟨w, entry⟩

/-- A task recorded as done has been run and deleted by the worker that recorded it. -/
theorem Run.completed_done (run : Run allowed s) (completed : (w, task) ∈ s.log.completed) :
    s.runsOf task = [(w, task)] ∧ s.returnsOf task = [(w, task)] ∧ s.deletesOf task = [(w, task)] := by
  have entry : (w, task) ∈ s.deletesOf task := List.mem_filter.mpr ⟨run.completed_deleted.subset completed, by simp⟩
  cases run.progress (run.completed_popped.subset completed) with
  | taken _ _ _ none | running _ _ _ none | ran _ _ _ none => simp [none] at entry
  | deleted run ran deleted => exact ⟨run, ran, deleted⟩

theorem Run.done (run : Run stopLast s) {c : Client} (joined : s.calls (.client c) = .joining n) : Done s := by
  obtain ⟨called, exited⟩ := run.stopping (.client c) n (by rw [joined]; rfl)
  refine ⟨fun task member => ?_, fun w => exited w w.isLt⟩
  have waited := run.allWaited called task.taskname
  have counted := run.recorded.counted task.taskname
  obtain ⟨w, completed⟩ := run.all_completed member (by omega)
  exact ⟨w, run.completed_done completed⟩

/-- A pool of any size runs every task exactly once, in the order of submission, and is done
with all of them when `Stop` returns. -/
theorem tasks_run_once (n : Nat) (Client Name : Type) [DecidableEq Client] [DecidableEq Name] :
    (∀ s : ThreadPool n Client Name, Run anyUse s → RunsOnce s) ∧
    (∀ s : ThreadPool 1 Client Name, Run anyUse s → s.log.run.map Prod.snd <+: s.log.pushed) ∧
    ∀ s : ThreadPool n Client Name, Run stopLast s → ∀ c, s.calls (.client c) = .joining n → Done s := by
  refine ⟨fun s run => run.runsOnce, fun s run => ?_, fun s run c joined => run.done joined⟩
  have order : s.log.run.map Prod.snd <+: s.log.popped.map Prod.snd :=
    run.worked.run.in_order (k := (0 : Fin 1)) fun w => Subsingleton.elim w 0
  exact order.trans run.runsOnce.order

/-- A client submits a task, waits for it and stops the pool. -/
theorem oneTask_stops : ∃ s : ThreadPool 1 Unit Unit, Run stopLast s ∧ s.log.called = [⟨0, ()⟩] ∧
    s.calls (.client ()) = .joining 1 := by
  have fresh : Run stopLast (init : ThreadPool 1 Unit Unit) := .start
  have called := fresh.request (r := .submitTask ()) rfl (.submit (.client ()) () rfl)
  have pushed := called.silent (.lockQueue (x := .client ()) rfl rfl)
  have entered := pushed.silent (.lockMap (x := .client ()) rfl rfl)
  have left := entered.silent (.unlockMap (x := .client ()) rfl)
  have submitted := left.silent (.unlockQueue (x := .client ()) rfl)
  have checked := submitted.silent (.checkStop (w := 0) rfl rfl)
  have goesOn := checked.silent (.leaveStop (w := 0) rfl)
  have popped := goesOn.silent (.pop (w := 0) rfl rfl rfl)
  have taken := popped.silent (.leaveQueue (w := 0) rfl)
  have runs := taken.silent (.run (w := 0) rfl)
  have ran := runs.silent (.runReturns (w := 0) rfl rfl)
  have deleted := ran.silent (.delete (w := 0) rfl)
  have completed := deleted.silent (.complete (w := 0) rfl rfl)
  have signalled := completed.silent (.signalNobody (w := 0) rfl (by rintro (w | c) name asleep <;> cases asleep))
  have closed := signalled.silent (.leaveMap (w := 0) rfl)
  have waiting := closed.request (r := .waitForTask ()) trivial (.wait (.client ()) () rfl)
  have tested := waiting.silent (.enter (x := .client ()) (.inl rfl) rfl)
  have waited := tested.silent (.finish (x := .client ()) rfl rfl (by decide))
  have stopping := waited.request (r := .stop) (fun _ => le_rfl) (.stop () rfl)
  have stopSet := stopping.silent (.setStop (c := ()) rfl rfl)
  have unlocked := stopSet.silent (.unlockStop (c := ()) rfl)
  have sees := unlocked.silent (.checkStop (w := 0) rfl rfl)
  have exits := sees.silent (.leaveStop (w := 0) rfl)
  have joined := exits.silent (.join (c := ()) (w := 0) rfl rfl)
  exact ⟨_, joined, rfl, rfl⟩

theorem oneTask_done : ∃ s : ThreadPool 1 Unit Unit, Run stopLast s ∧ s.log.called = [⟨0, ()⟩] ∧ Done s := by
  obtain ⟨s, run, called, joined⟩ := oneTask_stops
  exact ⟨s, run, called, (tasks_run_once 1 Unit Unit).2.2 s run () joined⟩

end OsLabs.Pool
