import OsLabs.Pool.RunOnce
import OsLabs.Pool.Wakeup

namespace OsLabs.Pool
open Interleaving

variable {n : Nat} {Client Name : Type} [DecidableEq Name] [DecidableEq Client]
  {allowed : ThreadPool n Client Name → Request Name → Prop} {s s' : ThreadPool n Client Name}
  {a : Option (Request Name)}

/-- Each submitted task is waited for at most once and after its `SubmitTask` has returned, and a
name is submitted again only after its previous task has been waited for. -/
def waitsOnce (s : ThreadPool n Client Name) : Request Name → Prop
  | .submitTask name => named name s.log.called ≤ s.log.waited.count name
  | .waitForTask name => s.log.waits.count name < named name s.log.returned
  | .stop => True

omit [DecidableEq Client] in
theorem named_le {l m : List (Task Name)} (sub : l.Subperm m) (name : Name) : named name l ≤ named name m :=
  sub.countP_le _

omit [DecidableEq Client] in
/-- A task missing from the smaller list makes the count smaller. -/
theorem named_lt {l m : List (Task Name)} (once : l.Nodup) (sub : l ⊆ m) {task : Task Name} (inside : task ∈ m)
    (missing : task ∉ l) : named task.taskname l < named task.taskname m := by
  have more : (task :: l).Subperm m := List.subperm_of_subset (List.nodup_cons.mpr ⟨missing, once⟩)
    (List.cons_subset.mpr ⟨inside, sub⟩)
  have count := named_le more task.taskname
  unfold named at count ⊢
  rw [List.countP_cons_of_pos (by simp)] at count
  omega

omit [DecidableEq Client] in
/-- Two tasks of one name missing from the smaller list. -/
theorem named_lt_two {l m : List (Task Name)} (once : l.Nodup) (sub : l ⊆ m) {task other : Task Name}
    (inside : task ∈ m)
    (missing : task ∉ l) (inside' : other ∈ m) (missing' : other ∉ l) (apart : task ≠ other)
    (same : other.taskname = task.taskname) : named task.taskname l + 2 ≤ named task.taskname m := by
  have bigger : named other.taskname (task :: l) < named other.taskname m :=
    named_lt (List.nodup_cons.mpr ⟨missing, once⟩) (List.cons_subset.mpr ⟨inside, sub⟩) inside'
      (by simp [missing', Ne.symm apart])
  rw [same] at bigger
  unfold named at bigger ⊢
  rw [List.countP_cons_of_pos (by simp)] at bigger
  omega

/-- The task of a submission that holds the queue lock. -/
def Call.guarded : Call Name → Option (Task Name)
  | .pushed task => some task
  | .inserted task => some task
  | .mapLeft task => some task
  | _ => none

/-- A pushed task stays under the queue lock until its `SubmitTask` has returned, so that a popped
one has been submitted. -/
structure Handed (pushed popped returned : List (Task Name)) (calls : Thread n Client → Call Name) : Prop where
  pushed : ∀ task ∈ pushed, task ∈ returned ∨ ∃ x, (calls x).guarded = some task
  popped : popped ⊆ returned

section Handed
variable {pushed popped returned : List (Task Name)} {calls : Thread n Client → Call Name} {x : Thread n Client}
  {call : Call Name} {task : Task Name}

omit [DecidableEq Name] in
theorem Handed.move (handed : Handed pushed popped returned calls)
    (same : ∀ task, (calls x).guarded = some task → call.guarded = some task) :
    Handed pushed popped returned (Function.update calls x call) := by
  refine ⟨fun task member => ?_, handed.popped⟩
  rcases handed.pushed task member with old | ⟨y, guards⟩
  · exact .inl old
  · refine .inr ⟨y, ?_⟩
    by_cases moved : y = x
    · rw [moved, Function.update_self, same task (moved ▸ guards)]
    · rw [Function.update_of_ne moved, guards]

omit [DecidableEq Name] in
theorem Handed.push (handed : Handed pushed popped returned calls) (here : calls x = .submitting task) :
    Handed (pushed ++ [task]) popped returned (Function.update calls x (.pushed task)) := by
  have moved : Handed pushed popped returned (Function.update calls x (.pushed task)) :=
    handed.move (by rw [here]; simp [Call.guarded])
  refine ⟨fun other member => ?_, moved.popped⟩
  rcases List.mem_append.mp member with old | new
  · exact moved.pushed other old
  · refine .inr ⟨x, ?_⟩
    rw [Function.update_self, List.mem_singleton.mp new, Call.guarded]

omit [DecidableEq Name] in
theorem Handed.finish (handed : Handed pushed popped returned calls) (here : calls x = .mapLeft task) :
    Handed pushed popped (returned ++ [task]) (Function.update calls x .outside) := by
  refine ⟨fun other member => ?_, fun other member => List.mem_append_left _ (handed.popped member)⟩
  rcases handed.pushed other member with old | ⟨y, guards⟩
  · exact .inl (List.mem_append_left _ old)
  · by_cases moved : y = x
    · rw [moved, here, Call.guarded, Option.some.injEq] at guards
      exact .inl (List.mem_append_right _ (by simp [guards]))
    · exact .inr ⟨y, by rw [Function.update_of_ne moved, guards]⟩

omit [DecidableEq Name] [DecidableEq Client] in
theorem Call.holds_of_guarded (guards : call.guarded = some task) : call.holds .queue = true := by
  cases call <;> simp_all [Call.guarded, Call.holds]

end Handed

abbrev ThreadPool.HandedOver (s : ThreadPool n Client Name) : Prop :=
  Handed s.log.pushed (s.log.popped.map Prod.snd) s.log.returned s.calls

theorem HandedOver.step (handed : s.HandedOver) (locked : Locked s) (worked : Worked s) (step : Step s a s') :
    s'.HandedOver := by
  cases step with
  | submit x name ready | wait x name ready | stop c ready =>
    exact handed.move (by rw [ready.outside]; simp [Call.guarded])
  | lockQueue here => exact handed.push here
  | unlockQueue here => exact handed.finish here
  | lockMap here | unlockMap here => exact handed.move (by rw [here]; exact fun _ same => same)
  | throw here | sleep here | spurious here | finish here | setStop here | unlockStop here | join here | stopped here =>
    exact handed.move (by rw [here]; simp [Call.guarded])
  | enter here =>
    rcases here with here | here <;>
    exact handed.move (by rw [here]; simp [Call.guarded])
  | signal here asleep => exact handed.move (by rw [asleep]; simp [Call.guarded])
  | @pop w task rest here free front =>
    refine ⟨handed.pushed, fun other member => ?_⟩
    simp only [List.map_append, List.map_cons, List.map_nil] at member
    rcases List.mem_append.mp member with old | new
    · exact handed.popped old
    · obtain rfl := List.mem_singleton.mp new
      have queued : other ∈ s.log.pushed := by
        rw [worked.queue, front]
        simp
      refine (handed.pushed other queued).resolve_right fun ⟨x, guards⟩ => ?_
      have held : (frame s.workers s.calls x).holds .queue = true := by
        rw [Frame.holds, frame_call_eq, Call.holds_of_guarded guards, Bool.or_true]
      rw [← locked.agree, free] at held
      cases held
  | _ => exact handed

theorem Run.handedOver (run : Run allowed s) : s.HandedOver := by
  induction run with
  | start => exact ⟨by simp [init], by simp [init]⟩
  | next earlier _ step ih => exact HandedOver.step ih earlier.locked earlier.worked step

/-- Name by name, the submissions and the waits take turns: `waited` follows `waits`, which
follows the returns of `SubmitTask`, and at most one task has not been waited for. -/
structure Turns (called returned : List (Task Name)) (waits waited : List Name) (calls : Thread n Client → Call Name) :
    Prop where
  submits : ∀ name, named name called ≤ waited.count name + 1
  asked : ∀ name, waits.count name ≤ named name returned
  answered : ∀ name, waited.count name ≤ waits.count name
  waiter : ∀ x name, (calls x).awaited = some name → waits.count name = waited.count name + 1

section Turns
variable {called returned : List (Task Name)} {waits waited : List Name} {calls : Thread n Client → Call Name}
  {x : Thread n Client} {call : Call Name}

theorem Turns.keep (turns : Turns called returned waits waited calls)
    (same : ∀ name, call.awaited = some name → (calls x).awaited = some name) :
    Turns called returned waits waited (Function.update calls x call) := by
  refine ⟨turns.submits, turns.asked, turns.answered, fun y name atName => ?_⟩
  rcases moved Call.awaited atName with ⟨_, new⟩ | ⟨_, old⟩
  · exact turns.waiter x name (same name new)
  · exact turns.waiter y name old

omit [DecidableEq Client] in
theorem Turns.submit (turns : Turns called returned waits waited calls) (task : Task Name)
    (permitted : named task.taskname called ≤ waited.count task.taskname) :
    Turns (called ++ [task]) returned waits waited calls := by
  refine ⟨fun name => ?_, turns.asked, turns.answered, turns.waiter⟩
  have old := turns.submits name
  rw [named_append, named_singleton]
  by_cases same : task.taskname = name
  · subst same
    rw [if_pos rfl]
    omega
  · rw [if_neg same]
    exact old

omit [DecidableEq Client] in
theorem Turns.submitted (turns : Turns called returned waits waited calls) (task : Task Name) :
    Turns called (returned ++ [task]) waits waited calls := by
  refine ⟨turns.submits, fun name => ?_, turns.answered, turns.waiter⟩
  rw [named_append]
  exact (turns.asked name).trans (Nat.le_add_right _ _)

omit [DecidableEq Client] in
/-- Nobody waits for a name that may be waited for. -/
theorem Turns.nobody (turns : Turns called returned waits waited calls) {name : Name}
    (counted : named name returned ≤ named name called) (permitted : waits.count name < named name returned)
    (x : Thread n Client) : (calls x).awaited ≠ some name := by
  intro atName
  have waiter := turns.waiter x name atName
  have submits := turns.submits name
  omega

theorem Turns.wait (turns : Turns called returned waits waited calls) {name : Name}
    (counted : named name returned ≤ named name called) (permitted : waits.count name < named name returned) :
    Turns called returned (waits ++ [name]) waited (Function.update calls x (.waiting name)) := by
  refine ⟨turns.submits, fun other => ?_, fun other => ?_, fun y other atOther => ?_⟩
  · have asked := turns.asked other
    rw [count_snoc]
    by_cases same : name = other
    · subst same
      rw [if_pos rfl]
      omega
    · rw [if_neg same]
      exact asked
  · rw [count_snoc]
    exact (turns.answered other).trans (Nat.le_add_right _ _)
  · rw [count_snoc]
    by_cases same : name = other
    · subst same
      have submits := turns.submits name
      have answered := turns.answered name
      rw [if_pos rfl]
      omega
    · rw [if_neg same, Nat.add_zero]
      rcases moved Call.awaited atOther with ⟨_, new⟩ | ⟨_, old⟩
      · exact absurd (Option.some.inj new) same
      · exact turns.waiter y other old

theorem Turns.finish (turns : Turns called returned waits waited calls) (alone : Alone calls) {name : Name}
    (here : (calls x).awaited = some name) :
    Turns called returned waits (waited ++ [name]) (Function.update calls x .outside) := by
  have mine := turns.waiter x name here
  refine ⟨fun other => ?_, turns.asked, fun other => ?_, fun y other atOther => ?_⟩
  · have submits := turns.submits other
    rw [count_snoc]
    omega
  · have answered := turns.answered other
    rw [count_snoc]
    by_cases same : name = other
    · subst same
      rw [if_pos rfl]
      omega
    · rw [if_neg same]
      exact answered
  · rcases moved Call.awaited atOther with ⟨_, new⟩ | ⟨apart, old⟩
    · cases new
    · have away : name ≠ other := by
        rintro rfl
        exact apart (alone y x name old here)
      rw [count_snoc, if_neg away]
      exact turns.waiter y other old

end Turns

/-- The counts of every name and who waits for it. -/
structure Taken (s : ThreadPool n Client Name) : Prop where
  turns : Turns s.log.called s.log.returned s.log.waits s.log.waited s.calls
  alone : Alone s.calls

theorem Run.returned_called (run : Run allowed s) (name : Name) :
    named name s.log.returned ≤ named name s.log.called :=
  named_le (List.subperm_of_subset run.submitted.ended run.submitted.finished) name

theorem Run.taken (run : Run waitsOnce s) : Taken s := by
  induction run with
  | start =>
    exact ⟨⟨fun _ => Nat.zero_le _, fun _ => le_rfl, fun _ => le_rfl,
      fun _ _ atName => by simp [init, Call.awaited] at atName⟩,
      fun _ _ _ atName => by simp [init, Call.awaited] at atName⟩
  | @next s s' a earlier permitted step ih =>
    obtain ⟨turns, alone⟩ := ih
    have counted := earlier.returned_called
    refine ⟨?_, alone.step step fun name request => turns.nobody (counted name) (permitted _ request)⟩
    cases step with
    | submit x name ready => exact (turns.submit ⟨_, name⟩ (permitted _ rfl)).keep (by simp [Call.awaited])
    | unlockQueue here => exact (turns.submitted _).keep (by simp [Call.awaited])
    | wait x name ready => exact turns.wait (counted name) (permitted _ rfl)
    | finish here => exact turns.finish alone (by rw [here]; rfl)
    | lockQueue | lockMap | unlockMap | throw | stop | setStop | unlockStop | join | stopped =>
      exact turns.keep (by simp [Call.awaited])
    | sleep here | spurious here => exact turns.keep (by rw [here]; exact fun _ same => same)
    | enter here =>
      rcases here with here | here <;>
      exact turns.keep (by rw [here]; exact fun _ same => same)
    | signal here asleep => exact turns.keep (by rw [asleep]; exact fun _ same => same)
    | _ => exact turns

end OsLabs.Pool
