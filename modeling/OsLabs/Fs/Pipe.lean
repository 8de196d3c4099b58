import Mathlib.Logic.Relation
import OsLabs.Lib.Interleaving
import OsLabs.Lib.WrappingRing

namespace OsLabs.Pipes
open Interleaving WrappingRing

def PIPESIZE : Nat := 512

instance : NeZero PIPESIZE := ⟨by decide⟩

/-- `struct pipe` without its lock. -/
structure Pipe where
  data : Fin PIPESIZE → UInt8
  nread : UInt32
  nwrite : UInt32
  readopen : Bool
  writeopen : Bool

/-- `pipealloc`. -/
def pipealloc : Pipe := ⟨fun _ => 0, 0, 0, true, true⟩

def Pipe.full (p : Pipe) : Bool := p.nwrite == p.nread + UInt32.ofNat PIPESIZE

def Pipe.empty (p : Pipe) : Bool := p.nread == p.nwrite

/-- `p->data[p->nwrite++ % PIPESIZE] = b`. -/
def Pipe.push (b : UInt8) (p : Pipe) : Pipe :=
  { p with data := Function.update p.data (slot PIPESIZE p.nwrite) b, nwrite := p.nwrite + 1 }

/-- `pipewrite`'s loop until the pipe is full, with the bytes left. -/
def fill (p : Pipe) : List UInt8 → Pipe × List UInt8
  | [] => (p, [])
  | b :: rest => if p.full then (p, b :: rest) else fill (p.push b) rest

/-- `piperead`'s copy loop, with the bytes copied. -/
def drain (p : Pipe) : Nat → Pipe × List UInt8
  | 0 => (p, [])
  | n + 1 =>
    if p.empty then (p, [])
    else
      let (p', bytes) := drain { p with nread := p.nread + 1 } n
      (p', p.data (slot PIPESIZE p.nread) :: bytes)

/-- `pipewrite` from where it holds the lock to where it returns, or calls `sleep(&p->nwrite)`: the pipe, the bytes
left, the value returned, and whether it has called `wakeup(&p->nread)`. -/
def pipewrite (p : Pipe) (killed : Bool) (n : Nat) (rest : List UInt8) : Pipe × List UInt8 × Option Int × Bool :=
  let (p, rest) := fill p rest
  if rest.isEmpty then (p, [], some n, true)
  else if !p.readopen || killed then (p, rest, some (-1), false)
  else (p, rest, none, true)

/-- `piperead` likewise: the pipe, the bytes read, the value returned. It calls `wakeup(&p->nwrite)` before it returns
what it has read. -/
def piperead (p : Pipe) (killed : Bool) (n : Nat) : Pipe × List UInt8 × Option Int :=
  if p.empty && p.writeopen then
    if killed then (p, [], some (-1)) else (p, [], none)
  else
    let (p, bytes) := drain p n
    (p, bytes, some bytes.length)

/-- A process and its call of `pipewrite` or `piperead`. -/
inductive Call
  | idle
  | writing (asleep : Bool) (n : Nat) (rest : List UInt8)
  | reading (asleep : Bool) (n : Nat)
  | wrote (n : Nat) (ret : Int)
  | got (n : Nat) (ret : Int) (bytes : List UInt8)

/-- `wakeup(&p->nread)`. -/
def Call.wakeReader : Call → Call
  | .reading _ n => .reading false n
  | call => call

/-- `wakeup(&p->nwrite)`. -/
def Call.wakeWriter : Call → Call
  | .writing _ n rest => .writing false n rest
  | call => call

/-- The process is marked `SLEEPING`. -/
def Call.fallAsleep : Call → Call
  | .writing _ n rest => .writing true n rest
  | .reading _ n => .reading true n
  | call => call

/-- No call is in progress. -/
def Call.Over : Call → Prop
  | .writing _ _ _ | .reading _ _ => False
  | _ => True

/-- The pipe and its processes. `lock` is the process that holds `p->lock` on its way into `sleep`: it has tested
`killed` and is not asleep yet. Beside them `sent` and `received` are the bytes put into the pipe and taken out, and
`gaveUp` tells that a killed process has left a write without waking the readers. -/
structure State (ι : Type) where
  pipe : Pipe
  lock : Option ι
  killed : ι → Bool
  call : ι → Call
  sent : List UInt8
  received : List UInt8
  gaveUp : Bool

/-- One step: a call starts while its end is open, runs while it holds the lock, `sleep` lets the lock go, a process
is killed, with or without the lock being held, or an end that nobody is using is closed. -/
inductive Step {ι : Type} [DecidableEq ι] : State ι → State ι → Prop
  | startWrite (s) (i) (bytes : List UInt8) (here : (s.call i).Over) (opened : s.pipe.writeopen = true) :
      Step s { s with call := Function.update s.call i (.writing false bytes.length bytes) }
  | startRead (s) (i) (n : Nat) (here : (s.call i).Over) (opened : s.pipe.readopen = true) :
      Step s { s with call := Function.update s.call i (.reading false n) }
  | write (s) (i n bytes p rest ret wakes) (free : s.lock = none) (here : s.call i = .writing false n bytes)
      (run : pipewrite s.pipe (s.killed i) n bytes = (p, rest, ret, wakes)) :
      Step s { s with
        pipe := p
        lock := if ret = none then some i else none
        call := Function.update (if wakes then fun j => (s.call j).wakeReader else s.call) i
          (match ret with | none => .writing false n rest | some ret => .wrote n ret)
        sent := s.sent ++ bytes.take (bytes.length - rest.length)
        gaveUp := s.gaveUp || !wakes && s.pipe.readopen }
  | read (s) (i n p bytes ret) (free : s.lock = none) (here : s.call i = .reading false n)
      (run : piperead s.pipe (s.killed i) n = (p, bytes, ret)) :
      Step s { s with
        pipe := p
        lock := if ret = none then some i else none
        call := Function.update (if ret = some (bytes.length : Int) then fun j => (s.call j).wakeWriter else s.call) i
          (match ret with | none => .reading false n | some ret => .got n ret bytes)
        received := s.received ++ bytes }
  | sleep (s) (i) (holds : s.lock = some i) :
      Step s { s with lock := none, call := Function.update s.call i (s.call i).fallAsleep }
  | kill (s) (i) : Step s { s with
      killed := Function.update s.killed i true
      call := Function.update s.call i (s.call i).wakeReader.wakeWriter }
  | closeWrite (s) (free : s.lock = none) (unused : ∀ i asleep n rest, s.call i ≠ .writing asleep n rest) :
      Step s { s with pipe := { s.pipe with writeopen := false }, call := fun j => (s.call j).wakeReader }
  | closeRead (s) (free : s.lock = none) (unused : ∀ i asleep n, s.call i ≠ .reading asleep n) :
      Step s { s with pipe := { s.pipe with readopen := false }, call := fun j => (s.call j).wakeWriter }

def State.boot {ι : Type} : State ι := ⟨pipealloc, none, fun _ => false, fun _ => .idle, [], [], false⟩

end OsLabs.Pipes
