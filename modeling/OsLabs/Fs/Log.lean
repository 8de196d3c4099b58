import OsLabs.Fs.Block
import OsLabs.Lib.RedoLog

namespace OsLabs.Fs

/-- The superblock's `logstart` and `nlog`: the header and the logged blocks behind it. -/
structure LogArea where
  start : Nat
  size : Nat
  within : start + size ≤ FSSIZE

/-- The log of `mkfs`. -/
def mkfsLog : LogArea := ⟨2, LOGSIZE, by decide⟩

/-- A block that a buffer can hold and that is not part of the log. -/
def LogArea.Home (area : LogArea) (b : Nat) : Prop := b < FSSIZE ∧ (b < area.start ∨ area.start + area.size ≤ b)

/-- `struct log`; `lh` lists `lh.block[0]` to `lh.block[lh.n - 1]`. -/
structure Log where
  outstanding : Nat
  committing : Bool
  lh : List Nat

/-- The data and the `B_DIRTY` flag of a valid buffer. -/
structure Buf where
  data : Block
  dirty : Bool

/-- Where a process stands in the calls of one file-system system call. `touched` are the blocks it has logged
since `begin_op`; after `log_write`'s checks it is `appending`. -/
inductive Pos
  | outside
  | asleep
  | woken
  | inside (touched : List Nat)
  | appending (touched : List Nat) (b : Nat) (data : Block)
  | committing

/-- Where `recover_from_log` and `commit` stand. -/
inductive Stage
  | readHead
  | reinstall (tail : Nat)
  | reclear
  | serving
  | writeLog (tail : Nat)
  | writeHead
  | install (tail : Nat)
  | clear
  | committed
  | panicked (msg : String)

/-- Processes may run: recovery has ended and nobody has panicked. -/
def Stage.Running : Stage → Prop
  | .readHead | .reinstall _ | .reclear | .panicked _ => False
  | _ => True

structure State (ι : Type) where
  disk : Nat → Block
  cache : Nat → Option Buf
  log : Log
  stage : Stage
  proc : ι → Pos

section Log

/-- One turn of `begin_op`'s loop; `none` when it sleeps. -/
def beginOp (log : Log) : Option Log :=
  if log.committing then none
  else if log.lh.length + (log.outstanding + 1) * MAXOPBLOCKS > LOGSIZE then none
  else some { log with outstanding := log.outstanding + 1 }

/-- `end_op` up to `release`, with `do_commit`. -/
def endOp (log : Log) : Except String (Log × Bool) :=
  let log := { log with outstanding := log.outstanding - 1 }
  if log.committing then .error "log.committing"
  else if log.outstanding = 0 then .ok ({ log with committing := true }, true)
  else .ok (log, false)

/-- `log_write` before it takes the lock. -/
def logWriteChecks (area : LogArea) (log : Log) : Except String Unit :=
  if log.lh.length ≥ LOGSIZE ∨ log.lh.length ≥ area.size - 1 then .error "too big a transaction"
  else if log.outstanding < 1 then .error "log_write outside of trans"
  else .ok ()

/-- `log_write` under the lock, with its log absorption. -/
def absorb (b : Nat) (log : Log) : Log := { log with lh := if b ∈ log.lh then log.lh else log.lh ++ [b] }

end Log

/-- `wakeup(&log)`. -/
def Pos.wake : Pos → Pos
  | .asleep => .woken
  | pos => pos

namespace State
variable {ι : Type} [DecidableEq ι]

/-- The data of the buffer that `bread` returns. -/
def contents (s : State ι) (b : Nat) : Block :=
  match s.cache b with
  | some buf => buf.data
  | none => s.disk b

def bread (b : Nat) (s : State ι) : State ι :=
  { s with cache := Function.update s.cache b (some ((s.cache b).getD ⟨s.disk b, false⟩)) }

def bwrite (b : Nat) (data : Block) (s : State ι) : State ι :=
  { s with disk := Function.update s.disk b data, cache := Function.update s.cache b (some ⟨data, false⟩) }

/-- One turn of `write_log`'s or `install_trans`'s loop: both blocks are read, one is copied and written. -/
def copyBlock (dst src : Nat) (s : State ι) : State ι :=
  let s := (s.bread dst).bread src
  s.bwrite dst (s.contents src)

def writeHead (area : LogArea) (s : State ι) : State ι :=
  let s := s.bread area.start
  s.bwrite area.start (putHeader s.log.lh (s.contents area.start))

/-- `read_head`. -/
def readHead (area : LogArea) (s : State ι) : State ι :=
  let s := s.bread area.start
  { s with log := { s.log with lh := getHeader (s.contents area.start) } }

/-- The caller changes a block's data and `log_write` records the block and sets `B_DIRTY`. -/
def logWrite (b : Nat) (data : Block) (s : State ι) : State ι :=
  { s with log := absorb b s.log, cache := Function.update s.cache b (some ⟨data, true⟩) }

def move (i : ι) (pos : Pos) (s : State ι) : State ι := { s with proc := Function.update s.proc i pos }

def wakeAll (s : State ι) : State ι := { s with proc := fun j => (s.proc j).wake }

/-- Memory after a restart, with `recover_from_log` still to run. -/
def restart (disk : Nat → Block) : State ι :=
  ⟨disk, fun _ => none, ⟨0, false, []⟩, .readHead, fun _ => .outside⟩

end State

open State in
/-- One step of a process, of `commit`, of `recover_from_log` or of the machine. Each system call touches at
most `budget` blocks. Only recovery runs before `serving`; `recover_from_log` and `commit` are sequences of
block writes with a crash possible before each. -/
inductive Step {ι : Type} [DecidableEq ι] (area : LogArea) (budget : Nat) :
    State ι → Option (RedoLog.Event Nat Block) → State ι → Prop
  | crash (s) : Step area budget s (some .crash) (restart s.disk)
  | readHead (s) (stage : s.stage = .readHead) :
      Step area budget s none { s.readHead area with stage := .reinstall 0 }
  | reinstall (s) (tail b) (stage : s.stage = .reinstall tail) (logged : s.log.lh[tail]? = some b) :
      Step area budget s none { s.copyBlock b (area.start + tail + 1) with stage := .reinstall (tail + 1) }
  | reinstalled (s) (tail) (stage : s.stage = .reinstall tail) (done : s.log.lh.length ≤ tail) :
      Step area budget s none { s with log := { s.log with lh := [] }, stage := .reclear }
  | reclear (s) (stage : s.stage = .reclear) :
      Step area budget s none { s.writeHead area with stage := .serving }
  | read (s) (b) (real : b < FSSIZE) : Step area budget s none (s.bread b)
  | evict (s) (b data) (clean : s.cache b = some ⟨data, false⟩) :
      Step area budget s none { s with cache := Function.update s.cache b none }
  | sleep (s) (i) (runs : s.stage.Running) (here : s.proc i = .outside ∨ s.proc i = .woken)
      (full : beginOp s.log = none) : Step area budget s none (s.move i .asleep)
  | begin (s) (i log) (runs : s.stage.Running) (here : s.proc i = .outside ∨ s.proc i = .woken)
      (room : beginOp s.log = some log) :
      Step area budget s (some .enter) ({ s with log }.move i (.inside []))
  | check (s) (i touched b data) (runs : s.stage.Running) (here : s.proc i = .inside touched) (home : area.Home b)
      (few : b ∈ touched ∨ touched.length < budget) (checked : logWriteChecks area s.log = .ok ()) :
      Step area budget s none (s.move i (.appending touched b data))
  | checkPanic (s) (i touched b msg) (runs : s.stage.Running) (here : s.proc i = .inside touched) (home : area.Home b)
      (few : b ∈ touched ∨ touched.length < budget) (checked : logWriteChecks area s.log = .error msg) :
      Step area budget s none { s with stage := .panicked msg }
  | append (s) (i touched b data) (runs : s.stage.Running) (here : s.proc i = .appending touched b data) :
      Step area budget s (some (.write b data)) ((s.logWrite b data).move i (.inside (touched.insert b)))
  | finish (s) (i touched log) (runs : s.stage.Running) (here : s.proc i = .inside touched)
      (ended : endOp s.log = .ok (log, false)) :
      Step area budget s (some .leave) ({ s with log }.wakeAll.move i .outside)
  | finishLast (s) (i touched log) (runs : s.stage.Running) (here : s.proc i = .inside touched)
      (ended : endOp s.log = .ok (log, true)) :
      Step area budget s (some .leave)
        ({ s with log, stage := if log.lh.length > 0 then .writeLog 0 else .committed }.move i .committing)
  | finishPanic (s) (i touched msg) (runs : s.stage.Running) (here : s.proc i = .inside touched)
      (ended : endOp s.log = .error msg) : Step area budget s none { s with stage := .panicked msg }
  | writeLog (s) (tail b) (stage : s.stage = .writeLog tail) (logged : s.log.lh[tail]? = some b) :
      Step area budget s none { s.copyBlock (area.start + tail + 1) b with stage := .writeLog (tail + 1) }
  | wroteLog (s) (tail) (stage : s.stage = .writeLog tail) (done : s.log.lh.length ≤ tail) :
      Step area budget s none { s with stage := .writeHead }
  | writeHead (s) (stage : s.stage = .writeHead) :
      Step area budget s (some .commit) { s.writeHead area with stage := .install 0 }
  | install (s) (tail b) (stage : s.stage = .install tail) (logged : s.log.lh[tail]? = some b) :
      Step area budget s none { s.copyBlock b (area.start + tail + 1) with stage := .install (tail + 1) }
  | installed (s) (tail) (stage : s.stage = .install tail) (done : s.log.lh.length ≤ tail) :
      Step area budget s none { s with log := { s.log with lh := [] }, stage := .clear }
  | clear (s) (stage : s.stage = .clear) :
      Step area budget s none { s.writeHead area with stage := .committed }
  | committed (s) (i) (stage : s.stage = .committed) (here : s.proc i = .committing) :
      Step area budget s none
        ({ s with log := { s.log with committing := false }, stage := .serving }.wakeAll.move i .outside)

/-- The runs of the machine from a restart on a disk, with their events. -/
inductive Run {ι : Type} [DecidableEq ι] (area : LogArea) (budget : Nat) (disk : Nat → Block) :
    List (RedoLog.Event Nat Block) → State ι → Prop
  | start : Run area budget disk [] (State.restart disk)
  | next {events : List (RedoLog.Event Nat Block)} {s t : State ι} {event : Option (RedoLog.Event Nat Block)}
      (run : Run area budget disk events s) (step : Step area budget s event t) :
      Run area budget disk (events ++ event.toList) t

end OsLabs.Fs
