import OsLabs.Fs.LogSpace

namespace OsLabs.Fs

variable {ι : Type} [DecidableEq ι] {area : LogArea} {budget calls : Nat} {disk : Nat → Block} {lh : List Nat}
  {s : State ι} {proc : ι → Pos} {i j : ι}

/-- No check of the log fails in any run in which every system call keeps to a budget that fits. -/
theorem Run.alive [Fintype ι] {events : List (RedoLog.Event Nat Block)} (fits : Fits area budget)
    (run : Run area budget disk events s) (msg : String) : s.stage ≠ .panicked msg := by
  induction run generalizing msg with
  | start => nofun
  | next run step ih => exact (Space.run fits run).alive fits ih step msg

/-- Some run serves with this log and these processes. -/
def Serves (area : LogArea) (budget : Nat) (disk : Nat → Block) (calls : Nat) (lh : List Nat) (proc : ι → Pos) : Prop :=
  ∃ events s, Run area budget disk events s ∧ s.stage = .serving ∧ s.log = ⟨calls, false, lh⟩ ∧ s.proc = proc

/-- Recovery of a disk with an empty log header. -/
theorem Serves.boot (empty : (disk area.start).word 0 ≤ 0) :
    Serves area budget disk 0 [] (fun _ : ι => .outside) := by
  have header := getHeader_empty empty
  have found : ((State.restart (ι := ι) disk).readHead area).log = ⟨0, false, []⟩ := by
    simp [State.readHead, State.restart, State.contents, State.bread, header]
  have first : Run area budget disk _ _ := (Run.start (ι := ι)).next (.readHead _ rfl)
  have second := first.next (.reinstalled _ 0 rfl (by simp only [found]; exact le_rfl))
  exact ⟨_, _, second.next (.reclear _ rfl), rfl, congrArg (fun log : Log => { log with lh := [] }) found, rfl⟩

namespace Serves

theorem begins (serves : Serves area budget disk calls lh proc) (here : proc i = .outside)
    (room : lh.length + (calls + 1) * MAXOPBLOCKS ≤ LOGSIZE) :
    Serves area budget disk (calls + 1) lh (Function.update proc i (.inside [])) := by
  obtain ⟨events, s, run, stage, log, rfl⟩ := serves
  have passes : beginOp s.log = some ⟨calls + 1, false, lh⟩ := by
    rw [log, beginOp, if_neg Bool.false_ne_true, if_neg (Nat.not_lt.mpr room)]
  exact ⟨_, _, run.next (.begin s i _ (by rw [stage]; trivial) (.inl here) passes), stage, rfl, rfl⟩

theorem ends {touched : List Nat} (serves : Serves area budget disk (calls + 1) lh proc)
    (here : proc i = .inside touched) (more : calls ≠ 0) :
    Serves area budget disk calls lh (Function.update (fun j => (proc j).wake) i .outside) := by
  obtain ⟨events, s, run, stage, log, rfl⟩ := serves
  have passes : endOp s.log = .ok (⟨calls, false, lh⟩, false) := by
    rw [log, endOp]
    simp [more]
  exact ⟨_, _, run.next (.finish s i touched _ (by rw [stage]; trivial) here passes), stage, rfl, rfl⟩

/-- A system call logs new blocks one after another. -/
theorem logs {blocks touched : List Nat} (serves : Serves area budget disk (calls + 1) lh proc)
    (here : proc i = .inside touched) (once : blocks.Nodup)
    (fresh : ∀ b ∈ blocks, b ∉ lh ∧ b ∉ touched ∧ area.Home b) (few : touched.length + blocks.length ≤ budget)
    (room : lh.length + blocks.length < LOGSIZE) (within : lh.length + blocks.length < area.size) :
    Serves area budget disk (calls + 1) (lh ++ blocks)
      (Function.update proc i (.inside (blocks.reverse ++ touched))) := by
  induction blocks generalizing lh proc touched with
  | nil => rwa [List.append_nil, List.reverse_nil, List.nil_append, ← here, Function.update_eq_self]
  | cons b blocks ih =>
    obtain ⟨unlogged, untouched, home⟩ := fresh b List.mem_cons_self
    obtain ⟨apart, once⟩ := List.nodup_cons.mp once
    rw [List.length_cons] at few room within
    obtain ⟨events, s, run, stage, log, rfl⟩ := serves
    have passes : logWriteChecks area s.log = .ok () := by
      rw [log, logWriteChecks, if_neg (by dsimp only; omega), if_neg (by dsimp only; omega)]
    let data : Block := fun _ => 0
    have checked := run.next (.check s i touched b data (by rw [stage]; trivial) here home (.inr (by omega)) passes)
    have appended := checked.next (.append _ i touched b data (by rw [State.move, stage]; trivial)
      (Function.update_self ..))
    have grown : absorb b s.log = ⟨calls + 1, false, lh ++ [b]⟩ := by rw [log, absorb, if_neg unlogged]
    have next : Serves area budget disk (calls + 1) (lh ++ [b]) (Function.update s.proc i (.inside (b :: touched))) :=
      ⟨_, _, appended, stage, grown, by
        simp only [State.move, State.logWrite, Function.update_idem, List.insert_of_not_mem untouched]⟩
    have last := ih next (Function.update_self ..) once
      (fun c later => by
        obtain ⟨cold, away, home⟩ := fresh c (List.mem_cons_of_mem _ later)
        have other : c ≠ b := fun same => apart (same ▸ later)
        exact ⟨by simp [cold, other], by simp [away, other], home⟩)
      (by rw [List.length_cons]; omega) (by rw [List.length_append, List.length_singleton]; omega)
      (by rw [List.length_append, List.length_singleton]; omega)
    rwa [List.append_assoc, List.singleton_append, Function.update_idem, ← List.singleton_append (l := touched),
      ← List.append_assoc, ← List.reverse_cons] at last

/-- With `nlog = LOGSIZE` and system calls that touch `MAXOPBLOCKS` blocks, one call held open lets two others
log that many blocks each; the open call then finds the log full. -/
theorem overflows (size : area.size = LOGSIZE) (room : area.start + 2 * LOGSIZE ≤ FSSIZE)
    (large : MAXOPBLOCKS ≤ budget) (apart : i ≠ j) (empty : (disk area.start).word 0 ≤ 0) :
    ∃ events, ∃ s : State ι, Run area budget disk events s ∧ s.stage = .panicked "too big a transaction" := by
  have fresh : ∀ k m, k + m ≤ LOGSIZE → ∀ b ∈ List.range' (area.start + LOGSIZE + k) m,
      b ∉ List.range' (area.start + LOGSIZE) k ∧ b ∉ ([] : List Nat) ∧ area.Home b := by
    intro k m bound b member
    rw [List.mem_range'_1] at member
    refine ⟨fun before => ?_, List.not_mem_nil, by omega, .inr (by omega)⟩
    rw [List.mem_range'_1] at before
    omega
  have joined : ∀ k m, List.range' (area.start + LOGSIZE) k ++ List.range' (area.start + LOGSIZE + k) m =
      List.range' (area.start + LOGSIZE) (k + m) := fun _ _ => List.range'_append_1
  unfold MAXOPBLOCKS at large
  have booted : Serves area budget disk 0 [] fun _ : ι => .outside := .boot empty
  have opened := (booted.begins (i := i) rfl (by decide)).begins (i := j) (Function.update_of_ne apart.symm ..)
    (by decide)
  have first := (opened.logs (i := j) (Function.update_self ..) List.nodup_range' (fresh 0 10 (by decide))
    (by simp only [List.length_nil, List.length_range']; omega) (by simp only [List.length_nil, List.length_range']; decide)
    (by simp only [List.length_nil, List.length_range', size]; decide)).ends (i := j) (Function.update_self ..) (by decide)
  rw [List.nil_append, Nat.add_zero] at first
  have again := first.begins (i := j) (Function.update_self ..) (by simp only [List.length_range']; decide)
  have second := again.logs (i := j) (Function.update_self ..) List.nodup_range' (fresh 10 10 (by decide))
    (by simp only [List.length_nil, List.length_range']; omega) (by simp only [List.length_range']; decide)
    (by simp only [List.length_range', size]; decide)
  rw [joined] at second
  have third := second.logs (i := i) (show _ = Pos.inside [] by simp [Function.update_of_ne apart, Pos.wake])
    List.nodup_range' (fresh 20 9 (by decide))
    (by simp only [List.length_nil, List.length_range']; omega) (by simp only [List.length_range']; decide)
    (by simp only [List.length_range', size]; decide)
  rw [joined] at third
  obtain ⟨events, s, run, stage, log, there⟩ := third
  have full : logWriteChecks area s.log = .error "too big a transaction" := by
    rw [log, logWriteChecks, if_pos (by simp only [List.length_range', size]; decide)]
  exact ⟨_, _, run.next (.checkPanic s i _ (area.start + LOGSIZE) _ (by rw [stage]; trivial)
    (by rw [there, Function.update_self]) ⟨by unfold LOGSIZE MAXOPBLOCKS at room ⊢; omega, .inr (by omega)⟩
    (.inr (by simp only [List.append_nil, List.length_reverse, List.length_range']; omega)) full), rfl⟩

end Serves

/-- With `nlog = LOGSIZE`, no run panics exactly when no system call touches `MAXOPBLOCKS` blocks. -/
theorem never_panics_iff [Fintype ι] [Nontrivial ι] (size : area.size = LOGSIZE)
    (room : area.start + 2 * LOGSIZE ≤ FSSIZE) :
    (∀ disk events, ∀ s : State ι, Run area budget disk events s → ∀ msg, s.stage ≠ .panicked msg) ↔
      budget < MAXOPBLOCKS := by
  constructor
  · intro never
    by_contra large
    obtain ⟨i, j, apart⟩ := exists_pair_ne ι
    obtain ⟨events, s, run, panicked⟩ := @Serves.overflows ι _ area budget (fun _ _ => 0) _ _ size room (Nat.not_lt.mp large)
      apart (by decide)
    exact never _ _ s run _ panicked
  · intro small disk events s run
    have fits := fits_mkfsLog small
    exact run.alive ⟨fits.1, by rw [size]; exact fits.2⟩

theorem never_panics_mkfs :
    (∀ disk events, ∀ s : State Bool, Run mkfsLog 9 disk events s → ∀ msg, s.stage ≠ .panicked msg) ↔
      9 < MAXOPBLOCKS := never_panics_iff rfl (by decide)

/-- A process asleep in `begin_op` would be sent to sleep again, and some process is inside a system call or
commits, whose `end_op` wakes it. -/
theorem asleep_waits [Fintype ι] {events : List (RedoLog.Event Nat Block)} (fits : Fits area budget)
    (run : Run area budget disk events s) (asleep : s.proc i = .asleep) :
    beginOp s.log = none ∧ ∃ j, (s.proc j).active = 1 ∨ s.proc j = .committing := by
  have space := Space.run fits run
  have waits := space.waits i asleep
  have runs : s.stage.Running := by
    by_contra halted
    rw [space.booting halted i] at asleep
    cases asleep
  constructor
  · unfold beginOp
    rcases waits with commit | full
    · rw [if_pos commit]
    · rw [if_pos full, ite_self]
  · by_cases commit : s.log.committing = true
    · obtain ⟨j, here⟩ := space.committer (space.flag.mp commit)
      exact ⟨j, .inr here⟩
    · have serving := space.serving runs (Bool.eq_false_iff.mpr commit)
      have full := waits.resolve_left commit
      have some : s.log.outstanding ≠ 0 := fun none => by
        rw [space.empty (by rw [serving]; exact none), none] at full
        exact absurd full (by decide)
      rw [space.counted] at some
      obtain ⟨j, -, busy⟩ := Finset.exists_ne_zero_of_sum_ne_zero some
      refine ⟨j, .inl ?_⟩
      cases pos : s.proc j <;> first | rfl | (rw [pos] at busy; exact absurd rfl busy)

theorem asleep_waits_fourth : ∃ events, ∃ s : State (Fin 4), Run mkfsLog 9 (fun _ _ => 0) events s ∧
    s.proc 3 = .asleep ∧ beginOp s.log = none ∧ ∃ j, (s.proc j).active = 1 ∨ s.proc j = .committing := by
  have opened : Serves mkfsLog 9 (fun _ _ => 0) 3 [] _ := (((Serves.boot (ι := Fin 4) (by decide)).begins (i := 0)
    rfl (by decide)).begins (i := 1) rfl (by decide)).begins (i := 2) rfl (by decide)
  obtain ⟨events, s, run, stage, log, proc⟩ := opened
  have slept := run.next (.sleep s 3 (by rw [stage]; trivial) (.inl (by rw [proc]; rfl)) (by rw [log]; rfl))
  exact ⟨_, _, slept, rfl, asleep_waits (i := 3) (fits_mkfsLog (by decide)) slept rfl⟩

end OsLabs.Fs
