import OsLabs.Fs.Pipe

namespace OsLabs.Pipes
open Interleaving WrappingRing

variable {p p' : Pipe} {bytes rest : List UInt8} {n : Nat}

/-- The bytes in the pipe, the oldest first. -/
def Pipe.queue (p : Pipe) : List UInt8 := window p.data p.nread (used p.nread p.nwrite)

theorem Pipe.queue_length (p : Pipe) : p.queue.length = used p.nread p.nwrite := window_length

theorem divides : PIPESIZE ∣ 2 ^ 32 := ⟨2 ^ 23, by decide⟩

theorem Pipe.full_iff : p.full = true ↔ p.queue.length = PIPESIZE := by
  rw [Pipe.queue_length, used_eq (by decide), Pipe.full, beq_iff_eq]

theorem Pipe.empty_iff : p.empty = true ↔ p.queue = [] := by
  rw [← List.length_eq_zero_iff, Pipe.queue_length, used_eq_zero, Pipe.empty, beq_iff_eq]

/-- Only the contents differ. -/
def SameEnds (p p' : Pipe) : Prop := p'.readopen = p.readopen ∧ p'.writeopen = p.writeopen

theorem Pipe.queue_push {b : UInt8} (room : p.queue.length < PIPESIZE) : (p.push b).queue = p.queue ++ [b] := by
  rw [Pipe.queue_length] at room
  have longer : used p.nread (p.nwrite + 1) = used p.nread p.nwrite + 1 :=
    used_push (by unfold PIPESIZE at room; omega)
  unfold Pipe.queue Pipe.push
  dsimp only
  rw [longer, show slot PIPESIZE p.nwrite = slot PIPESIZE (p.nread + UInt32.ofNat (used p.nread p.nwrite)) by
    rw [← last_eq], window_push divides room]

theorem Pipe.queue_pop (some : p.empty = false) :
    p.queue = p.data (slot PIPESIZE p.nread) :: Pipe.queue { p with nread := p.nread + 1 } := by
  have apart : p.nread ≠ p.nwrite := fun same => by simp [Pipe.empty, same] at some
  unfold Pipe.queue
  rw [← used_pop apart, window_pop]

/-- `pipewrite`'s loop puts the first bytes behind those in the pipe, and leaves some only in a full pipe. -/
theorem fill_spec (within : p.queue.length ≤ PIPESIZE) (run : fill p bytes = (p', rest)) :
    ∃ front, bytes = front ++ rest ∧ p'.queue = p.queue ++ front ∧ p'.queue.length ≤ PIPESIZE ∧
      (rest ≠ [] → p'.queue.length = PIPESIZE) ∧ SameEnds p p' := by
  induction bytes generalizing p with
  | nil =>
    cases run
    exact ⟨[], rfl, (List.append_nil _).symm, within, fun some => absurd rfl some, rfl, rfl⟩
  | cons b bytes ih =>
    unfold fill at run
    split at run
    · cases run
      exact ⟨[], rfl, (List.append_nil _).symm, within, fun _ => Pipe.full_iff.mp ‹_›, rfl, rfl⟩
    · have room : p.queue.length < PIPESIZE := Nat.lt_of_le_of_ne within (mt Pipe.full_iff.mpr ‹_›)
      have pushed := Pipe.queue_push (b := b) room
      obtain ⟨front, split, queue, less, left, ends⟩ := ih (by rw [pushed, List.length_append]; exact room) run
      refine ⟨b :: front, by rw [split]; rfl, ?_, less, left, ends⟩
      rw [queue, pushed, List.append_assoc]
      rfl

/-- `piperead`'s loop takes the oldest bytes, up to `n` or all of them. -/
theorem drain_spec (run : drain p n = (p', bytes)) :
    p.queue = bytes ++ p'.queue ∧ bytes.length ≤ n ∧ (bytes.length < n → p'.queue = []) ∧ SameEnds p p' := by
  induction n generalizing p bytes with
  | zero =>
    cases run
    exact ⟨rfl, Nat.le_refl 0, fun less => absurd less (Nat.lt_irrefl 0), rfl, rfl⟩
  | succ n ih =>
    unfold drain at run
    split at run
    · cases run
      exact ⟨rfl, Nat.zero_le _, fun _ => Pipe.empty_iff.mp ‹_›, rfl, rfl⟩
    · have popped := Pipe.queue_pop (Bool.eq_false_iff.mpr ‹_›)
      cases inner : drain { p with nread := p.nread + 1 } n with
      | mk q more =>
        rw [inner] at run
        cases run
        obtain ⟨queue, few, left, ends⟩ := ih inner
        refine ⟨?_, Nat.succ_le_succ few, fun less => left (Nat.lt_of_succ_lt_succ less), ends⟩
        rw [popped, queue]
        rfl

/-- What a turn of `pipewrite` does. -/
inductive Writes (p : Pipe) (killed : Bool) (n : Nat) (bytes : List UInt8) :
    Pipe × List UInt8 × Option Int × Bool → Prop
  | done (q : Pipe) (queue : q.queue = p.queue ++ bytes) (within : q.queue.length ≤ PIPESIZE) (ends : SameEnds p q) :
      Writes p killed n bytes (q, [], some n, true)
  | fails (q : Pipe) (front left : List UInt8) (split : bytes = front ++ left) (queue : q.queue = p.queue ++ front)
      (full : q.queue.length = PIPESIZE) (ends : SameEnds p q) (why : p.readopen = false ∨ killed = true) :
      Writes p killed n bytes (q, left, some (-1), false)
  | sleeps (q : Pipe) (front left : List UInt8) (split : bytes = front ++ left) (queue : q.queue = p.queue ++ front)
      (full : q.queue.length = PIPESIZE) (ends : SameEnds p q) (opened : p.readopen = true) :
      Writes p killed n bytes (q, left, none, true)

theorem pipewrite_spec {killed : Bool} (within : p.queue.length ≤ PIPESIZE) :
    Writes p killed n bytes (pipewrite p killed n bytes) := by
  unfold pipewrite
  cases run : fill p bytes with
  | mk q rest =>
    obtain ⟨front, split, queue, less, left, ends⟩ := fill_spec within run
    dsimp only
    cases rest with
    | nil =>
      rw [List.append_nil] at split
      exact .done q (by rw [queue, split]) less ends
    | cons b rest =>
      rw [if_neg (by simp)]
      by_cases stop : (!q.readopen || killed) = true
      · rw [if_pos stop]
        refine .fails q front _ split queue (left (by simp)) ends ?_
        rw [← ends.1]
        simpa using stop
      · rw [if_neg stop]
        simp only [Bool.or_eq_true, Bool.not_eq_true', not_or, Bool.not_eq_false, Bool.not_eq_true] at stop
        exact .sleeps q front _ split queue (left (by simp)) ends (ends.1 ▸ stop.1)

/-- What a turn of `piperead` does. -/
inductive Reads (p : Pipe) (killed : Bool) (n : Nat) : Pipe × List UInt8 × Option Int → Prop
  | fails (dry : p.queue = []) (opened : p.writeopen = true) (why : killed = true) : Reads p killed n (p, [], some (-1))
  | sleeps (dry : p.queue = []) (opened : p.writeopen = true) : Reads p killed n (p, [], none)
  | done (q : Pipe) (read : List UInt8) (queue : p.queue = read ++ q.queue) (few : read.length ≤ n)
      (left : read.length < n → q.queue = []) (ends : SameEnds p q) (closed : p.queue = [] → p.writeopen = false) :
      Reads p killed n (q, read, some read.length)

theorem piperead_spec {killed : Bool} : Reads p killed n (piperead p killed n) := by
  unfold piperead
  by_cases waits : (p.empty && p.writeopen) = true
  · rw [if_pos waits]
    obtain ⟨none, opened⟩ := Bool.and_eq_true_iff.mp waits
    cases killed with
    | true => exact .fails (Pipe.empty_iff.mp none) opened rfl
    | false => exact .sleeps (Pipe.empty_iff.mp none) opened
  · rw [if_neg waits]
    cases run : drain p n with
    | mk q bytes =>
      obtain ⟨queue, few, left, ends⟩ := drain_spec run
      refine .done q bytes queue few left ends fun none => Bool.eq_false_iff.mpr fun opened => waits ?_
      rw [Pipe.empty_iff.mpr none, opened]
      rfl

/-- Why a call has to sleep: the pipe is full, or empty, and its other end open. -/
def Call.Waits (p : Pipe) : Call → Prop
  | .writing _ _ _ => p.queue.length = PIPESIZE ∧ p.readopen = true
  | .reading _ _ => p.queue = [] ∧ p.writeopen = true
  | _ => False

/-- A sleeping writer has to wait, and so has a sleeping reader, unless a writer gave up; a write fails and a read ends
only for the reasons given. -/
def Call.Legal (p : Pipe) (killed gaveUp : Bool) : Call → Prop
  | .idle => True
  | .writing asleep n rest => p.writeopen = true ∧ (asleep = true → (Call.writing true n rest).Waits p)
  | .reading asleep n => p.readopen = true ∧ (asleep = true → gaveUp = true ∨ (Call.reading true n).Waits p)
  | .wrote n ret => ret = n ∨ ret = -1 ∧ (killed = true ∨ p.readopen = false)
  | .got n ret bytes => ret = -1 ∧ killed = true ∧ bytes = [] ∨
      ret = bytes.length ∧ bytes.length ≤ n ∧ (bytes = [] → 0 < n → p.writeopen = false ∧ p.queue = [])

structure Inv {ι : Type} (s : State ι) : Prop where
  within : s.pipe.queue.length ≤ PIPESIZE
  fifo : s.sent = s.received ++ s.pipe.queue
  held : ∀ i, s.lock = some i → (s.call i).Waits s.pipe
  calls : ∀ i, (s.call i).Legal s.pipe (s.killed i) s.gaveUp

section Legal
variable {killed gaveUp gaveUp' : Bool} {call : Call} {front : List UInt8}

/-- After a turn of `pipewrite` that wakes the readers. -/
theorem Call.Legal.written (legal : call.Legal p killed gaveUp) (opened : p.writeopen = true)
    (queue : p'.queue = p.queue ++ front) (within : p'.queue.length ≤ PIPESIZE) (ends : SameEnds p p') :
    call.wakeReader.Legal p' killed gaveUp' := by
  rw [queue, List.length_append] at within
  cases call with
  | idle => trivial
  | writing asleep n rest =>
    refine ⟨ends.2 ▸ legal.1, fun sleeps => ?_⟩
    obtain ⟨full, readopen⟩ := legal.2 sleeps
    exact ⟨by rw [queue, List.length_append]; omega, ends.1 ▸ readopen⟩
  | reading asleep n => exact ⟨ends.1 ▸ legal.1, nofun⟩
  | wrote n ret => exact legal.imp id fun ⟨fails, why⟩ => ⟨fails, ends.1 ▸ why⟩
  | got n ret bytes =>
    refine legal.imp id fun ⟨all, few, last⟩ => ⟨all, few, fun none some => ?_⟩
    rw [(last none some).1] at opened
    cases opened

/-- After a turn of `pipewrite` that fails. -/
theorem Call.Legal.failed (legal : call.Legal p killed gaveUp) (opened : p.writeopen = true)
    (queue : p'.queue = p.queue ++ front) (within : p'.queue.length ≤ PIPESIZE) (ends : SameEnds p p') :
    call.Legal p' killed (gaveUp || p.readopen) := by
  cases call with
  | reading asleep n =>
    refine ⟨ends.1 ▸ legal.1, fun _ => .inl ?_⟩
    rw [legal.1]
    simp
  | idle | writing | wrote | got => exact legal.written opened queue within ends

/-- After a turn of `piperead` that wakes the writers. -/
theorem Call.Legal.read (legal : call.Legal p killed gaveUp) (queue : p.queue = bytes ++ p'.queue)
    (ends : SameEnds p p') : call.wakeWriter.Legal p' killed gaveUp := by
  have dry : p.queue = [] → p'.queue = [] := fun none => (List.append_eq_nil_iff.mp (queue ▸ none)).2
  cases call with
  | idle => trivial
  | writing asleep n rest => exact ⟨ends.2 ▸ legal.1, nofun⟩
  | reading asleep n =>
    refine ⟨ends.1 ▸ legal.1, fun sleeps => (legal.2 sleeps).imp id fun ⟨before, opened⟩ => ?_⟩
    exact ⟨dry before, ends.2 ▸ opened⟩
  | wrote n ret => exact legal.imp id fun ⟨fails, why⟩ => ⟨fails, ends.1 ▸ why⟩
  | got n ret bytes =>
    refine legal.imp id fun ⟨all, few, last⟩ => ⟨all, few, fun none some => ?_⟩
    exact ⟨ends.2 ▸ (last none some).1, dry (last none some).2⟩

theorem Call.Legal.kill (legal : call.Legal p killed gaveUp) :
    (call.wakeReader.wakeWriter).Legal p true gaveUp := by
  cases call with
  | idle => trivial
  | writing asleep n rest => exact ⟨legal.1, nofun⟩
  | reading asleep n => exact ⟨legal.1, nofun⟩
  | wrote n ret => exact legal.imp id fun ⟨fails, _⟩ => ⟨fails, .inl rfl⟩
  | got n ret bytes => exact legal.imp (fun ⟨fails, _, nothing⟩ => ⟨fails, rfl, nothing⟩) id

theorem Call.Legal.fallAsleep (legal : call.Legal p killed gaveUp) (waits : call.Waits p) :
    call.fallAsleep.Legal p killed gaveUp := by
  cases call with
  | idle | wrote | got => exact legal
  | writing asleep n rest => exact ⟨legal.1, fun _ => waits⟩
  | reading asleep n => exact ⟨legal.1, fun _ => .inr waits⟩

theorem Call.Legal.closeWrite (legal : call.Legal p killed gaveUp)
    (unused : ∀ asleep n rest, call ≠ .writing asleep n rest) :
    call.wakeReader.Legal { p with writeopen := false } killed gaveUp := by
  cases call with
  | idle => trivial
  | writing asleep n rest => exact absurd rfl (unused asleep n rest)
  | reading asleep n => exact ⟨legal.1, nofun⟩
  | wrote n ret => exact legal
  | got n ret bytes =>
    exact legal.imp id fun ⟨all, few, last⟩ => ⟨all, few, fun none some => ⟨rfl, (last none some).2⟩⟩

theorem Call.Legal.closeRead (legal : call.Legal p killed gaveUp) (unused : ∀ asleep n, call ≠ .reading asleep n) :
    call.wakeWriter.Legal { p with readopen := false } killed gaveUp := by
  cases call with
  | idle => trivial
  | writing asleep n rest => exact ⟨legal.1, nofun⟩
  | reading asleep n => exact absurd rfl (unused asleep n)
  | wrote n ret => exact legal.imp id fun ⟨fails, _⟩ => ⟨fails, .inr rfl⟩
  | got n ret bytes => exact legal

end Legal

section Runs
variable {ι : Type} {s t : State ι}

theorem Inv.boot : Inv (State.boot (ι := ι)) := by
  have dry : pipealloc.queue = [] := by simp [pipealloc, Pipe.queue]
  refine ⟨?_, ?_, nofun, fun _ => trivial⟩
  · rw [State.boot, dry]
    exact Nat.zero_le _
  · rw [State.boot, dry]
    rfl

/-- A call that has to wait is in progress. -/
theorem Call.Waits.not_over {call : Call} (waits : call.Waits p) : ¬ call.Over := by
  cases call with
  | idle | wrote | got => exact waits.elim
  | writing | reading => exact id

theorem Call.Waits.wake {call : Call} (waits : call.Waits p) : call.wakeReader.wakeWriter.Waits p := by
  cases call with
  | idle | wrote | got => exact waits.elim
  | writing | reading => exact waits

variable [DecidableEq ι]

theorem take_front {front rest : List UInt8} (split : bytes = front ++ rest) :
    bytes.take (bytes.length - rest.length) = front := by
  rw [split, List.length_append, Nat.add_sub_cancel, List.take_left']
  rfl

/-- A call that starts is not the one that holds the lock. -/
theorem Inv.start {i : ι} {call : Call} (inv : Inv s) (here : (s.call i).Over)
    (legal : call.Legal s.pipe (s.killed i) s.gaveUp) :
    Inv { s with call := Function.update s.call i call } := by
  refine ⟨inv.within, inv.fifo, fun j holds => ?_,
    forall_moved (P := fun j => Call.Legal s.pipe (s.killed j) s.gaveUp) legal fun j _ => inv.calls j⟩
  have waits := inv.held j holds
  have other : j ≠ i := fun same => waits.not_over (same ▸ here)
  dsimp only
  rwa [Function.update_of_ne other]

theorem Inv.step (inv : Inv s) (step : Step s t) : Inv t := by
  have ⟨within, fifo, held, calls⟩ := inv
  cases step with
  | startWrite i bytes here opened => exact inv.start here ⟨opened, nofun⟩
  | startRead i n here opened => exact inv.start here ⟨opened, nofun⟩
  | write i n bytes p rest ret wakes free here run =>
    have opened : s.pipe.writeopen = true := by
      have mine := calls i
      rw [here] at mine
      exact mine.1
    have spec : Writes s.pipe (s.killed i) n bytes _ := pipewrite_spec within
    rw [run] at spec
    cases spec with
    | done _ queue less ends =>
      refine ⟨less, ?_, nofun, forall_moved (P := fun j => Call.Legal p (s.killed j) _) (.inl rfl) fun j _ =>
        (calls j).written opened queue less ends⟩
      rw [fifo, List.length_nil, Nat.sub_zero, List.take_length, queue, List.append_assoc]
    | fails _ front _ split queue full ends why =>
      refine ⟨full.le, ?_, nofun, forall_moved (P := fun j => Call.Legal p (s.killed j) _) (.inr ⟨rfl, ?_⟩) fun j _ =>
        (calls j).failed opened queue full.le ends⟩
      · rw [fifo, take_front split, queue, List.append_assoc]
      · exact why.symm.imp id fun closed => ends.1.trans closed
    | sleeps _ front _ split queue full ends readopen =>
      refine ⟨full.le, ?_, fun j holds => ?_, forall_moved (P := fun j => Call.Legal p (s.killed j) _)
        ⟨ends.2.trans opened, nofun⟩ fun j _ => (calls j).written opened queue full.le ends⟩
      · rw [fifo, take_front split, queue, List.append_assoc]
      · obtain rfl : i = j := Option.some.inj holds
        simp only [Function.update_self]
        exact ⟨full, ends.1.trans readopen⟩
  | read i n p bytes ret free here run =>
    have opened : s.pipe.readopen = true := by
      have mine := calls i
      rw [here] at mine
      exact mine.1
    have spec : Reads s.pipe (s.killed i) n _ := piperead_spec
    rw [run] at spec
    cases spec with
    | fails dry writeopen why =>
      refine ⟨within, by rw [fifo, List.append_nil], nofun, forall_moved
        (P := fun j => Call.Legal s.pipe (s.killed j) s.gaveUp) (.inl ⟨rfl, why, rfl⟩) fun j _ => ?_⟩
      exact calls j
    | sleeps dry writeopen =>
      refine ⟨within, by rw [fifo, List.append_nil], fun j holds => ?_, forall_moved
        (P := fun j => Call.Legal s.pipe (s.killed j) s.gaveUp) ⟨opened, nofun⟩ fun j _ => calls j⟩
      obtain rfl : i = j := Option.some.inj holds
      simp only [Function.update_self]
      exact ⟨dry, writeopen⟩
    | done _ _ queue few left ends closed =>
      refine ⟨?_, ?_, nofun, forall_moved (P := fun j => Call.Legal p (s.killed j) s.gaveUp)
        (.inr ⟨rfl, few, fun none some => ?_⟩) fun j _ => ?_⟩
      · rw [queue, List.length_append] at within
        exact Nat.le_trans (Nat.le_add_left ..) within
      · rw [fifo, queue, List.append_assoc]
      · have dry := left (by rw [none]; exact some)
        rw [none, dry] at queue
        exact ⟨ends.2.trans (closed queue), dry⟩
      · rw [if_pos rfl]
        exact (calls j).read queue ends
  | sleep i holds =>
    exact ⟨within, fifo, nofun, forall_moved (P := fun j => Call.Legal s.pipe (s.killed j) s.gaveUp)
      ((calls i).fallAsleep (held i holds)) fun j _ => calls j⟩
  | kill i =>
    refine ⟨within, fifo, fun j holds => ?_, fun j => ?_⟩
    · by_cases same : j = i
      · subst same
        simp only [Function.update_self]
        exact (held j holds).wake
      · simp only [Function.update_of_ne same]
        exact held j holds
    · by_cases same : j = i
      · subst same
        simp only [Function.update_self]
        exact (calls j).kill
      · simp only [Function.update_of_ne same]
        exact calls j
  | closeWrite free unused =>
    exact ⟨within, fifo, fun j holds => (Option.some_ne_none j (holds.symm.trans free)).elim,
      fun j => (calls j).closeWrite (unused j)⟩
  | closeRead free unused =>
    exact ⟨within, fifo, fun j holds => (Option.some_ne_none j (holds.symm.trans free)).elim,
      fun j => (calls j).closeRead (unused j)⟩

theorem Inv.run (run : Relation.ReflTransGen Step State.boot s) : Inv s :=
  run_keeps run .boot fun _ _ inv step => inv.step step

/-- Under every interleaving the bytes read are the first of the bytes written, in order, the rest is in the pipe,
and a reader that is told the end of the file has missed none. -/
theorem pipe_fifo (run : Relation.ReflTransGen Step State.boot s) :
    s.sent = s.received ++ s.pipe.queue ∧ s.pipe.queue.length ≤ PIPESIZE ∧
      ∀ i n bytes, s.call i = .got n 0 bytes → 0 < n → s.received = s.sent ∧ s.pipe.writeopen = false := by
  have inv := Inv.run run
  refine ⟨inv.fifo, inv.within, fun i n bytes here some => ?_⟩
  have mine := inv.calls i
  rw [here] at mine
  rcases mine with ⟨fails, -⟩ | ⟨all, -, last⟩
  · exact absurd fails (by decide)
  · obtain ⟨closed, dry⟩ := last (List.length_eq_zero_iff.mp (by omega)) some
    exact ⟨by rw [inv.fifo, dry, List.append_nil], closed⟩

/-- Three bytes are written and read; then a reader that finds nothing is killed on its way into `sleep`. -/
theorem written_read : ∃ s : State Bool, Relation.ReflTransGen Step State.boot s ∧
    s.call false = .got 3 3 [10, 11, 12] ∧
    s.call true = .reading true 1 ∧ s.killed true = true := by
  have start := Relation.ReflTransGen.single (Step.startWrite (State.boot (ι := Bool)) true [10, 11, 12] trivial rfl)
  have wrote := start.tail (.write _ true 3 [10, 11, 12] _ [] (some 3) true rfl rfl rfl)
  have start' := wrote.tail (.startRead _ false 3 trivial rfl)
  have read := start'.tail (.read _ false 3 _ [10, 11, 12] (some 3) rfl rfl rfl)
  have start'' := read.tail (.startRead _ true 1 trivial rfl)
  have waits := start''.tail (.read _ true 1 _ [] none rfl rfl rfl)
  have killed := waits.tail (.kill _ true)
  exact ⟨_, killed.tail (.sleep _ true rfl), rfl, rfl, rfl⟩

theorem pipe_fifo_three : ∃ s : State Bool, s.call false = .got 3 3 [10, 11, 12] ∧
    s.sent = s.received ++ s.pipe.queue ∧ s.pipe.queue.length ≤ PIPESIZE ∧
      ∀ i n bytes, s.call i = .got n 0 bytes → 0 < n → s.received = s.sent ∧ s.pipe.writeopen = false := by
  obtain ⟨s, run, read, -⟩ := written_read
  exact ⟨s, read, pipe_fifo run⟩

/-- A process asleep in `pipewrite` finds the pipe full and its read end open. One asleep in `piperead` finds the pipe
empty and its write end open, unless a killed process has left a write of which the pipe took a part. A write that
fails was killed or has no reader left, and a read that fails was killed. -/
theorem pipe_sleepers (run : Relation.ReflTransGen Step State.boot s) (i : ι) :
    (∀ n rest, s.call i = .writing true n rest → s.pipe.full = true ∧ s.pipe.readopen = true) ∧
      (∀ n, s.call i = .reading true n → s.gaveUp = true ∨ s.pipe.empty = true ∧ s.pipe.writeopen = true) ∧
      (∀ n ret, s.call i = .wrote n ret → ret ≠ n → s.killed i = true ∨ s.pipe.readopen = false) ∧
      ∀ n ret bytes, s.call i = .got n ret bytes → ret ≠ bytes.length → s.killed i = true := by
  have mine := (Inv.run run).calls i
  refine ⟨fun n rest here => ?_, fun n here => ?_, fun n ret here fails => ?_, fun n ret bytes here fails => ?_⟩ <;>
    rw [here] at mine
  · exact (mine.2 rfl).imp Pipe.full_iff.mpr id
  · exact (mine.2 rfl).imp id fun ⟨dry, opened⟩ => ⟨Pipe.empty_iff.mpr dry, opened⟩
  · exact (mine.resolve_left fails).2
  · exact (mine.resolve_right fun all => fails all.1).2.1

theorem pipe_sleepers_read : ∃ s : State Bool, s.call false = .got 3 3 [10, 11, 12] ∧
    s.call true = .reading true 1 ∧ s.killed true = true ∧ ∀ i,
      (∀ n rest, s.call i = .writing true n rest → s.pipe.full = true ∧ s.pipe.readopen = true) ∧
      (∀ n, s.call i = .reading true n → s.gaveUp = true ∨ s.pipe.empty = true ∧ s.pipe.writeopen = true) ∧
      (∀ n ret, s.call i = .wrote n ret → ret ≠ n → s.killed i = true ∨ s.pipe.readopen = false) ∧
      ∀ n ret bytes, s.call i = .got n ret bytes → ret ≠ bytes.length → s.killed i = true := by
  obtain ⟨s, run, read, asleep, killed⟩ := written_read
  exact ⟨s, read, asleep, killed, fun i => pipe_sleepers run i⟩

end Runs

end OsLabs.Pipes
