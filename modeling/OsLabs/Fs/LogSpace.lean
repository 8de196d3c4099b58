import OsLabs.Fs.Log
import OsLabs.Lib.Interleaving
import OsLabs.Lib.Totals

namespace OsLabs.Fs
open Interleaving Totals

variable {ι : Type} {area : LogArea} {budget : Nat} {log log' : Log} {stage stage' : Stage}
  {proc : ι → Pos} {i : ι}

/-- `commit` and the end of `end_op`. -/
def Stage.Committing : Stage → Prop
  | .writeLog _ | .writeHead | .install _ | .clear | .committed => True
  | _ => False

/-- Nothing is logged in memory. -/
def Stage.Empty (outstanding : Nat) : Stage → Prop
  | .reclear | .clear | .committed => True
  | .serving => outstanding = 0
  | _ => False

def Pos.active : Pos → Nat
  | .inside _ | .appending _ _ _ => 1
  | _ => 0

/-- The blocks that a system call may still touch. -/
def Pos.unused (budget : Nat) : Pos → Nat
  | .inside touched | .appending touched _ _ => budget - touched.length
  | _ => 0

/-- The most blocks that a transaction can gather when every system call touches at most `budget`. -/
def logBound (budget : Nat) : Nat := LOGSIZE - 2 * (MAXOPBLOCKS - budget)

/-- What a system call has touched is logged. -/
def Pos.Logged (area : LogArea) (budget : Nat) (lh : List Nat) : Pos → Prop
  | .inside touched => touched ⊆ lh ∧ touched.length ≤ budget
  | .appending touched b _ =>
    touched ⊆ lh ∧ touched.length ≤ budget ∧ area.Home b ∧ (b ∈ touched ∨ touched.length < budget)
  | _ => True

/-- The log's counters and the processes' positions in every state of a run. -/
structure Space [Fintype ι] (area : LogArea) (budget : Nat) (log : Log) (stage : Stage) (proc : ι → Pos) : Prop where
  counted : log.outstanding = ∑ i, (proc i).active
  flag : log.committing = true ↔ stage.Committing
  quiet : stage.Committing → log.outstanding = 0
  committer : stage.Committing → ∃ i, proc i = .committing
  booting : ¬ stage.Running → ∀ i, proc i = .outside
  room : stage.Running → log.lh.length + ∑ i, (proc i).unused budget ≤ logBound budget
  empty : stage.Empty log.outstanding → log.lh = []
  once : stage.Running → log.lh.Nodup
  home : stage.Running → ∀ b ∈ log.lh, area.Home b
  logged : ∀ i, (proc i).Logged area budget log.lh
  waits : ∀ i, proc i = .asleep →
    log.committing = true ∨ LOGSIZE < log.lh.length + (log.outstanding + 1) * MAXOPBLOCKS

section Calls

theorem beginOp_none (full : beginOp log = none) :
    log.committing = true ∨ LOGSIZE < log.lh.length + (log.outstanding + 1) * MAXOPBLOCKS := by
  unfold beginOp at full
  split at full
  · exact .inl ‹_›
  split at full
  · exact .inr ‹_›
  · cases full

theorem beginOp_some (room : beginOp log = some log') :
    log.committing = false ∧ log.lh.length + (log.outstanding + 1) * MAXOPBLOCKS ≤ LOGSIZE ∧
      log' = { log with outstanding := log.outstanding + 1 } := by
  unfold beginOp at room
  split at room
  · cases room
  split at room
  · cases room
  · exact ⟨Bool.eq_false_iff.mpr ‹_›, Nat.le_of_not_gt ‹_›, (Option.some.inj room).symm⟩

theorem endOp_more (ended : endOp log = .ok (log', false)) :
    log.committing = false ∧ log.outstanding - 1 ≠ 0 ∧ log' = { log with outstanding := log.outstanding - 1 } := by
  unfold endOp at ended
  dsimp only at ended
  split at ended
  · cases ended
  split at ended
  · cases ended
  · cases ended
    exact ⟨Bool.eq_false_iff.mpr ‹_›, ‹_›, rfl⟩

theorem endOp_last (ended : endOp log = .ok (log', true)) :
    log.committing = false ∧ log.outstanding - 1 = 0 ∧ log' = ⟨log.outstanding - 1, true, log.lh⟩ := by
  unfold endOp at ended
  dsimp only at ended
  split at ended
  · cases ended
  split at ended
  · cases ended
    exact ⟨Bool.eq_false_iff.mpr ‹_›, ‹_›, rfl⟩
  · cases ended

theorem endOp_error {msg : String} (ended : endOp log = .error msg) : log.committing = true := by
  unfold endOp at ended
  dsimp only at ended
  split at ended
  · assumption
  split at ended <;> cases ended

theorem logWriteChecks_error {msg : String} (checked : logWriteChecks area log = .error msg) :
    LOGSIZE ≤ log.lh.length ∨ area.size - 1 ≤ log.lh.length ∨ log.outstanding = 0 := by
  unfold logWriteChecks at checked
  split at checked
  · rcases ‹_ ∨ _› with most | most
    · exact .inl most
    · exact .inr (.inl most)
  split at checked
  · exact .inr (.inr (by omega))
  · cases checked

theorem absorb_length (b : Nat) (log : Log) : log.lh.length ≤ (absorb b log).lh.length := by
  unfold absorb
  dsimp only
  split
  · exact le_rfl
  · rw [List.length_append]
    exact Nat.le_add_right ..

theorem absorb_subset (b : Nat) (log : Log) : log.lh ⊆ (absorb b log).lh := by
  unfold absorb
  dsimp only
  split
  · exact List.Subset.refl _
  · exact List.subset_append_left ..

theorem mem_absorb {b c : Nat} : c ∈ (absorb b log).lh ↔ c = b ∨ c ∈ log.lh := by
  unfold absorb
  dsimp only
  split
  · exact ⟨.inr, fun member => member.elim (· ▸ ‹_›) id⟩
  · rw [List.mem_append, List.mem_singleton, or_comm]

theorem absorb_nodup (b : Nat) (once : log.lh.Nodup) : (absorb b log).lh.Nodup := by
  unfold absorb
  dsimp only
  split
  · exact once
  · exact List.nodup_append.mpr ⟨once, List.nodup_singleton b, fun c inside d same =>
      List.mem_singleton.mp same ▸ fun eq => ‹b ∉ log.lh› (eq ▸ inside)⟩

end Calls

theorem Pos.Logged.mono {lh lh' : List Nat} {pos : Pos} (logged : pos.Logged area budget lh) (more : lh ⊆ lh') :
    pos.Logged area budget lh' := by
  cases pos with
  | inside touched => exact ⟨List.Subset.trans logged.1 more, logged.2⟩
  | appending touched b data => exact ⟨List.Subset.trans logged.1 more, logged.2⟩
  | outside | asleep | woken | committing => trivial

@[simp] theorem Pos.active_wake (pos : Pos) : pos.wake.active = pos.active := by cases pos <;> rfl

@[simp] theorem Pos.unused_wake (pos : Pos) : pos.wake.unused budget = pos.unused budget := by cases pos <;> rfl

theorem Pos.Logged.wake {lh : List Nat} {pos : Pos} (logged : pos.Logged area budget lh) :
    pos.wake.Logged area budget lh := by cases pos <;> exact logged

theorem Pos.wake_ne_asleep (pos : Pos) : pos.wake ≠ .asleep := by cases pos <;> nofun

theorem Pos.unused_le (pos : Pos) : pos.unused budget ≤ pos.active * budget := by
  cases pos <;> simp [Pos.unused, Pos.active]

/-- `begin_op`'s check reserves `MAXOPBLOCKS` for every call in progress; a lone call finds an empty log. -/
theorem reserved {n calls : Nat} (few : budget ≤ MAXOPBLOCKS) (fits : n + (calls + 1) * MAXOPBLOCKS ≤ LOGSIZE)
    (alone : calls = 0 → n = 0) : n + calls * budget + budget ≤ logBound budget := by
  have all : (calls + 1) * MAXOPBLOCKS = calls * budget + budget + (calls + 1) * (MAXOPBLOCKS - budget) := by
    rw [← Nat.succ_mul, ← Nat.mul_add, Nat.add_sub_cancel' few]
  unfold logBound
  rcases Nat.eq_zero_or_pos calls with none | others
  · rw [alone none, none]
    unfold LOGSIZE MAXOPBLOCKS at *
    omega
  · have two : 2 * (MAXOPBLOCKS - budget) ≤ (calls + 1) * (MAXOPBLOCKS - budget) := Nat.mul_le_mul_right _ (by omega)
    omega

namespace Space
variable [Fintype ι]

theorem restart : Space area budget ⟨0, false, []⟩ .readHead (fun _ : ι => .outside) where
  counted := by simp [Pos.active]
  flag := by simp [Stage.Committing]
  quiet := nofun
  committer := nofun
  booting := fun _ _ => rfl
  room := nofun
  empty := nofun
  once := nofun
  home := nofun
  logged := fun _ => trivial
  waits := nofun

/-- During recovery no process is in a system call. -/
theorem recovering {lh : List Nat} (space : Space area budget log stage proc) (before : ¬ stage.Running)
    (quiet : ¬ stage.Committing) (after : ¬ stage'.Running) (quiet' : ¬ stage'.Committing)
    (empty : stage'.Empty log.outstanding → lh = []) :
    Space area budget { log with lh } stage' proc := by
  have outside := space.booting before
  refine ⟨space.counted, ⟨fun on => absurd (space.flag.mp on) quiet, fun on => absurd on quiet'⟩,
    fun on => absurd on quiet', fun on => absurd on quiet', fun _ => outside, fun runs => absurd runs after, empty,
    fun runs => absurd runs after, fun runs => absurd runs after, fun i => ?_, fun i asleep => ?_⟩
  · rw [outside i]
    trivial
  · rw [outside i] at asleep
    cases asleep

/-- Recovery ends with an empty log. -/
theorem recovered (space : Space area budget log .reclear proc) : Space area budget log .serving proc := by
  have outside := space.booting nofun
  have none := space.empty trivial
  refine ⟨space.counted, ⟨fun on => absurd (space.flag.mp on) nofun, nofun⟩, nofun, nofun,
    fun halted => absurd trivial halted, fun _ => ?_, fun _ => none, fun _ => ?_, fun _ b logged => ?_, space.logged,
    space.waits⟩
  · simp [none, outside, Pos.unused]
  · rw [none]
    exact List.nodup_nil
  · rw [none] at logged
    cases logged

/-- The commit goes on, with or without what it has installed. -/
theorem commits (space : Space area budget log stage proc) (before : stage.Committing) (after : stage'.Committing)
    (runs : stage.Running) (runs' : stage'.Running) (empty : stage'.Empty log.outstanding → log.lh = []) :
    Space area budget log stage' proc :=
  ⟨space.counted, ⟨fun _ => after, fun _ => space.flag.mpr before⟩, fun _ => space.quiet before,
    fun _ => space.committer before, fun halted => absurd runs' halted, fun _ => space.room runs, empty,
    fun _ => space.once runs, fun _ => space.home runs, space.logged, space.waits⟩

/-- While a commit runs no process is inside a system call. -/
theorem none_inside (space : Space area budget log stage proc) (commit : stage.Committing) (i : ι) :
    (proc i).active = 0 := by
  have total := le_sum Pos.active proc i
  rw [← space.counted, space.quiet commit] at total
  exact Nat.le_zero.mp total

theorem cleared (space : Space area budget log stage proc) (before : stage.Committing) (after : stage'.Committing)
    (runs : stage.Running) (runs' : stage'.Running) : Space area budget { log with lh := [] } stage' proc := by
  refine ⟨space.counted, ⟨fun _ => after, fun _ => space.flag.mpr before⟩, fun _ => space.quiet before,
    fun _ => space.committer before, fun halted => absurd runs' halted, fun _ => ?_, fun _ => rfl,
    fun _ => List.nodup_nil, nofun, fun i => ?_, fun _ _ => .inl (space.flag.mpr before)⟩
  · have room := space.room runs
    simp only [List.length_nil]
    omega
  · have idle := space.none_inside before i
    cases pos : proc i <;> first | trivial | (rw [pos] at idle; cases idle)

/-- A system call in progress keeps the log from committing. -/
theorem busy (space : Space area budget log stage proc) (here : (proc i).active = 1) :
    0 < log.outstanding ∧ log.committing = false := by
  have total := le_sum Pos.active proc i
  rw [← space.counted, here] at total
  refine ⟨total, Bool.eq_false_iff.mpr fun on => ?_⟩
  rw [space.quiet (space.flag.mp on)] at total
  exact absurd total (by decide)

theorem serving (space : Space area budget log stage proc) (runs : stage.Running) (free : log.committing = false) :
    stage = .serving := by
  have still : ¬ stage.Committing := fun commit => by simp [space.flag.mpr commit] at free
  cases stage <;> first | rfl | exact absurd trivial still | exact absurd runs id

theorem wakes (space : Space area budget log stage proc) :
    Space area budget log stage fun j => (proc j).wake := by
  refine ⟨?_, space.flag, space.quiet, fun commit => ?_, fun halted j => ?_, fun runs => ?_, space.empty, space.once,
    space.home, fun j => (space.logged j).wake, fun j asleep => absurd asleep (proc j).wake_ne_asleep⟩
  · simp only [Pos.active_wake]
    exact space.counted
  · obtain ⟨j, here⟩ := space.committer commit
    exact ⟨j, by rw [here]; rfl⟩
  · rw [space.booting halted j]
    rfl
  · simp only [Pos.unused_wake]
    exact space.room runs

section Move
variable [DecidableEq ι] {pos : Pos}

/-- A process moves in or out of a call that neither is a system call in progress nor ends the commit. -/
theorem move (space : Space area budget log stage proc) (runs : stage.Running)
    (same : pos.active = (proc i).active) (unused : pos.unused budget ≤ (proc i).unused budget)
    (stays : proc i ≠ .committing) (logged : pos.Logged area budget log.lh)
    (waits : pos = .asleep → log.committing = true ∨ LOGSIZE < log.lh.length + (log.outstanding + 1) * MAXOPBLOCKS) :
    Space area budget log stage (Function.update proc i pos) := by
  have active := sum_moved Pos.active proc i pos
  have left := sum_moved (Pos.unused budget) proc i pos
  refine ⟨?_, space.flag, space.quiet, fun commit => ?_, fun halted => absurd runs halted, fun _ => ?_, space.empty,
    space.once, space.home, forall_moved (P := fun _ => Pos.Logged area budget log.lh) logged fun j _ => space.logged j,
    fun j asleep => ?_⟩
  · rw [space.counted]
    omega
  · obtain ⟨j, here⟩ := space.committer commit
    have apart : j ≠ i := fun same => stays (same ▸ here)
    exact ⟨j, by rw [Function.update_of_ne apart, here]⟩
  · have room := space.room runs
    omega
  · rcases moved_to asleep with ⟨_, slept⟩ | ⟨_, slept⟩
    · exact waits slept
    · exact space.waits j slept

theorem begins (space : Space area budget log stage proc) (runs : stage.Running) (few : budget ≤ MAXOPBLOCKS)
    (here : proc i = .outside ∨ proc i = .woken) (room : beginOp log = some log') :
    Space area budget log' stage (Function.update proc i (.inside [])) := by
  obtain ⟨free, fits, rfl⟩ := beginOp_some room
  cases space.serving runs free
  have idle : (proc i).active = 0 ∧ (proc i).unused budget = 0 := by
    rcases here with here | here <;> rw [here] <;> exact ⟨rfl, rfl⟩
  have entered : (Pos.inside []).active = 1 ∧ (Pos.inside []).unused budget = budget := ⟨rfl, rfl⟩
  have active := sum_moved Pos.active proc i (.inside [])
  have left := sum_moved (Pos.unused budget) proc i (.inside [])
  have most : ∑ j, (proc j).unused budget ≤ log.outstanding * budget := by
    rw [space.counted, Finset.sum_mul]
    exact Finset.sum_le_sum fun j _ => Pos.unused_le _
  have total := reserved few fits fun alone => by rw [space.empty alone, List.length_nil]
  refine ⟨?_, space.flag, nofun, nofun, fun halted => absurd trivial halted, fun _ => ?_,
    fun none => absurd none (Nat.succ_ne_zero _), space.once, space.home,
    forall_moved (P := fun _ => Pos.Logged area budget log.lh) ⟨List.nil_subset _, Nat.zero_le _⟩
      fun j _ => space.logged j, fun j asleep => ?_⟩
  · rw [idle.1, entered.1] at active
    exact (congrArg (· + 1) space.counted).trans active.symm
  · rw [idle.2, entered.2] at left
    dsimp only
    omega
  · rcases moved_to asleep with ⟨_, slept⟩ | ⟨_, slept⟩
    · cases slept
    · refine (space.waits j slept).imp id fun full => ?_
      simp only [Nat.add_mul] at full ⊢
      omega

theorem appends {touched : List Nat} {b : Nat} {data : Block} (space : Space area budget log stage proc)
    (runs : stage.Running) (here : proc i = .appending touched b data) :
    Space area budget (absorb b log) stage (Function.update proc i (.inside (touched.insert b))) := by
  obtain ⟨subset, most, home, few⟩ : (Pos.appending touched b data).Logged area budget log.lh := here ▸ space.logged i
  have active := sum_moved Pos.active proc i (.inside (touched.insert b))
  have left := sum_moved (Pos.unused budget) proc i (.inside (touched.insert b))
  have busy := space.busy (i := i) (by rw [here]; rfl)
  cases space.serving runs busy.2
  have room := space.room trivial
  have grown : (absorb b log).lh.length + ((budget - (touched.insert b).length : Nat) : Nat) ≤
      log.lh.length + (budget - touched.length) ∧ (touched.insert b).length ≤ budget := by
    by_cases old : b ∈ touched
    · rw [List.insert_of_mem old, absorb, if_pos (subset old)]
      exact ⟨le_rfl, most⟩
    · have less := few.resolve_left old
      have longer : (absorb b log).lh.length ≤ log.lh.length + 1 := by
        unfold absorb
        dsimp only
        split <;> simp
      rw [List.insert_of_not_mem old, List.length_cons]
      omega
  have was : (Pos.appending touched b data).unused budget = budget - touched.length := rfl
  have is : (Pos.inside (touched.insert b)).unused budget = budget - (touched.insert b).length := rfl
  rw [here] at active left
  refine ⟨space.counted.trans (by simpa only [Pos.active, Nat.add_right_cancel_iff] using active.symm), space.flag,
    nofun, nofun, fun halted => absurd trivial halted, fun _ => ?_, fun none => absurd none (Nat.ne_of_gt busy.1),
    fun _ => absorb_nodup b (space.once trivial), fun _ c logged => ?_,
    forall_moved (P := fun _ => Pos.Logged area budget (absorb b log).lh) ⟨fun c inside => ?_, grown.2⟩
      fun j _ => (space.logged j).mono (absorb_subset b log), fun j asleep => ?_⟩
  · rw [was, is] at left
    omega
  · rcases mem_absorb.mp logged with rfl | old
    · exact home
    · exact space.home trivial c old
  · rcases List.mem_insert_iff.mp inside with rfl | old
    · exact mem_absorb.mpr (.inl rfl)
    · exact mem_absorb.mpr (.inr (subset old))
  · rcases moved_to asleep with ⟨_, slept⟩ | ⟨_, slept⟩
    · cases slept
    · exact (space.waits j slept).imp id fun full => Nat.lt_of_lt_of_le full
        (Nat.add_le_add_right (absorb_length b log) _)

/-- A system call ends while others go on; those asleep are woken. -/
theorem finishes {touched : List Nat} (space : Space area budget log stage proc) (runs : stage.Running)
    (here : proc i = .inside touched) (ended : endOp log = .ok (log', false)) :
    Space area budget log' stage (Function.update (fun j => (proc j).wake) i .outside) := by
  obtain ⟨free, more, rfl⟩ := endOp_more ended
  cases space.serving runs free
  have woken := space.wakes
  have active := sum_moved Pos.active (fun j => (proc j).wake) i .outside
  have left := sum_moved (Pos.unused budget) (fun j => (proc j).wake) i .outside
  have was : ((proc i).wake).active = 1 := by rw [here]; rfl
  have gone : Pos.outside.active = 0 ∧ Pos.outside.unused budget = 0 := ⟨rfl, rfl⟩
  refine ⟨?_, space.flag, nofun, nofun, fun halted => absurd trivial halted, fun _ => ?_, fun none => absurd none more,
    space.once, space.home, forall_moved (P := fun _ => Pos.Logged area budget log.lh) trivial
      fun j _ => woken.logged j, fun j asleep => ?_⟩
  · have counted := woken.counted
    rw [was, gone.1] at active
    dsimp only
    omega
  · have room := woken.room trivial
    rw [gone.2] at left
    dsimp only at left ⊢
    omega
  · rcases moved_to asleep with ⟨_, slept⟩ | ⟨_, slept⟩
    · cases slept
    · exact absurd slept (proc j).wake_ne_asleep

/-- The last system call in progress ends and its process commits. -/
theorem finishesLast {touched : List Nat} (space : Space area budget log stage proc) (runs : stage.Running)
    (here : proc i = .inside touched) (ended : endOp log = .ok (log', true)) :
    Space area budget log' (if log'.lh.length > 0 then .writeLog 0 else .committed)
      (Function.update proc i .committing) := by
  obtain ⟨free, last, rfl⟩ := endOp_last ended
  cases space.serving runs free
  have active := sum_moved Pos.active proc i .committing
  have left := sum_moved (Pos.unused budget) proc i .committing
  have was : (proc i).active = 1 := by rw [here]; rfl
  have busy := space.busy was
  have gone : Pos.committing.active = 0 ∧ Pos.committing.unused budget = 0 := ⟨rfl, rfl⟩
  have commits : (if log.lh.length > 0 then Stage.writeLog 0 else Stage.committed).Committing := by
    split <;> trivial
  have goes : (if log.lh.length > 0 then Stage.writeLog 0 else Stage.committed).Running := by
    split <;> trivial
  refine ⟨?_, ⟨fun _ => commits, fun _ => rfl⟩, fun _ => last, fun _ => ⟨i, Function.update_self ..⟩,
    fun halted => absurd goes halted, fun _ => ?_, fun none => ?_, fun _ => space.once trivial,
    fun _ => space.home trivial, forall_moved (P := fun _ => Pos.Logged area budget log.lh) trivial
      fun j _ => space.logged j, fun _ _ => .inl rfl⟩
  · have counted := space.counted
    rw [was, gone.1] at active
    dsimp only
    omega
  · have room := space.room trivial
    rw [gone.2] at left
    dsimp only
    omega
  · by_cases some : log.lh.length > 0
    · rw [if_pos some] at none
      exact none.elim
    · exact List.eq_nil_of_length_eq_zero (Nat.eq_zero_of_not_pos some)

/-- The end of `end_op` after a commit. -/
theorem release (space : Space area budget log .committed proc) (here : proc i = .committing) :
    Space area budget { log with committing := false } .serving
      (Function.update (fun j => (proc j).wake) i .outside) := by
  have none := space.empty trivial
  have idle := space.quiet trivial
  have active := sum_moved Pos.active (fun j => (proc j).wake) i .outside
  have left := sum_moved (Pos.unused budget) (fun j => (proc j).wake) i .outside
  have was : ((proc i).wake).active = 0 := by rw [here]; rfl
  have gone : Pos.outside.active = 0 ∧ Pos.outside.unused budget = 0 := ⟨rfl, rfl⟩
  refine ⟨?_, ⟨nofun, nofun⟩, nofun, nofun, fun halted => absurd trivial halted, fun _ => ?_, fun _ => none,
    fun _ => space.once trivial, fun _ => space.home trivial,
    forall_moved (P := fun _ => Pos.Logged area budget log.lh) trivial fun j _ => space.wakes.logged j,
    fun j asleep => ?_⟩
  · have counted := space.wakes.counted
    rw [was, gone.1] at active
    dsimp only
    omega
  · have room := space.wakes.room trivial
    rw [gone.2] at left
    dsimp only at left ⊢
    omega
  · rcases moved_to asleep with ⟨_, slept⟩ | ⟨_, slept⟩
    · cases slept
    · exact absurd slept (proc j).wake_ne_asleep

end Move

end Space

/-- The budget leaves the largest transaction below both of `log_write`'s limits. -/
def Fits (area : LogArea) (budget : Nat) : Prop := logBound budget < LOGSIZE ∧ logBound budget + 1 < area.size

theorem fits_mkfsLog (small : budget < MAXOPBLOCKS) : Fits mkfsLog budget := by
  unfold Fits logBound mkfsLog LOGSIZE MAXOPBLOCKS at *
  dsimp only
  omega

namespace Space
variable [Fintype ι] [DecidableEq ι] {s t : State ι} {event : Option (RedoLog.Event Nat Block)}

omit [DecidableEq ι] in
/-- No check of `log_write` fails for a system call in progress. -/
theorem checks (fits : Fits area budget) (space : Space area budget log stage proc) (runs : stage.Running)
    (here : (proc i).active = 1) (msg : String) : logWriteChecks area log ≠ .error msg := by
  intro failed
  have room := space.room runs
  have busy := space.busy here
  obtain ⟨most, within⟩ := fits
  rcases logWriteChecks_error failed with long | long | none <;> omega

theorem step (fits : Fits area budget) (space : Space area budget s.log s.stage s.proc)
    (step : Step area budget s event t) : Space area budget t.log t.stage t.proc := by
  have few : budget ≤ MAXOPBLOCKS := by
    have most := fits.1
    unfold logBound LOGSIZE MAXOPBLOCKS at most
    unfold MAXOPBLOCKS
    omega
  cases step with
  | crash => exact .restart
  | readHead stage =>
    rw [stage] at space
    exact space.recovering id id id id nofun
  | reinstall tail b stage =>
    rw [stage] at space
    exact space.recovering id id id id nofun
  | reinstalled tail stage =>
    rw [stage] at space
    exact space.recovering id id id id fun _ => rfl
  | reclear stage =>
    rw [stage] at space
    exact space.recovered
  | read | evict => exact space
  | sleep i runs here full =>
    have idle : (s.proc i).active = 0 ∧ (s.proc i).unused budget = 0 ∧ s.proc i ≠ .committing := by
      rcases here with here | here <;> rw [here] <;> exact ⟨rfl, rfl, nofun⟩
    exact space.move runs idle.1.symm (Nat.zero_le _) idle.2.2 trivial fun _ => beginOp_none full
  | begin i log runs here room => exact space.begins runs few here room
  | check i touched b data runs here home room checked =>
    have logged : (Pos.inside touched).Logged area budget s.log.lh := here ▸ space.logged i
    exact space.move runs (by rw [here]; rfl) (by rw [here]; exact le_rfl) (by rw [here]; nofun)
      ⟨logged.1, logged.2, home, room⟩ nofun
  | checkPanic i touched b msg runs here home room failed =>
    exact absurd failed (space.checks (i := i) fits runs (by rw [here]; rfl) msg)
  | append i touched b data runs here => exact space.appends runs here
  | finish i touched log runs here ended => exact space.finishes runs here ended
  | finishLast i touched log runs here ended => exact space.finishesLast runs here ended
  | finishPanic i touched msg runs here ended =>
    have busy := space.busy (i := i) (by rw [here]; rfl)
    rw [endOp_error ended] at busy
    exact absurd busy.2 nofun
  | writeLog tail b stage | wroteLog tail stage | writeHead stage | install tail b stage =>
    rw [stage] at space
    exact space.commits trivial trivial trivial trivial nofun
  | installed tail stage =>
    rw [stage] at space
    exact space.cleared trivial trivial trivial trivial
  | clear stage =>
    rw [stage] at space
    exact space.commits trivial trivial trivial trivial fun _ => space.empty trivial
  | committed i stage here =>
    rw [stage] at space
    exact space.release here

/-- Every check of the log passes. -/
theorem alive (fits : Fits area budget) (space : Space area budget s.log s.stage s.proc)
    (before : ∀ msg, s.stage ≠ .panicked msg) (step : Step area budget s event t) (msg : String) :
    t.stage ≠ .panicked msg := by
  cases step with
  | checkPanic i touched b msg runs here home room failed =>
    exact absurd failed (space.checks (i := i) fits runs (by rw [here]; rfl) msg)
  | finishPanic i touched msg runs here ended =>
    have busy := space.busy (i := i) (by rw [here]; rfl)
    rw [endOp_error ended] at busy
    exact absurd busy.2 nofun
  | finishLast i touched log runs here ended =>
    simp only [State.move]
    split <;> nofun
  | read | evict | sleep | begin | check | append | finish => exact before msg
  | _ => nofun

theorem run {disk : Nat → Block} {events : List (RedoLog.Event Nat Block)} (fits : Fits area budget)
    (run : Run area budget disk events s) : Space area budget s.log s.stage s.proc := by
  induction run with
  | start => exact .restart
  | next _ step ih => exact ih.step fits step

end Space

end OsLabs.Fs
