import Mathlib.Logic.Relation
import OsLabs.Lib.WrappingRing

namespace OsLabs.Console
open WrappingRing

def INPUT_BUF : Nat := 128

instance : NeZero INPUT_BUF := ⟨by decide⟩

/-- Control-x. -/
def C (x : Char) : UInt8 := UInt8.ofNat (x.toNat - '@'.toNat)

def newline : UInt8 := 10
def carriageReturn : UInt8 := 13
def delete : UInt8 := 0x7f

/-- `input`: what is read next, what has been handed to readers, and where the next key goes. -/
structure Input where
  buf : Fin INPUT_BUF → UInt8
  r : UInt32
  w : UInt32
  e : UInt32

/-- `input.buf[input.e++ % INPUT_BUF] = c`. -/
def Input.put (c : UInt8) (input : Input) : Input :=
  { input with buf := Function.update input.buf (slot INPUT_BUF input.e) c, e := input.e + 1 }

/-- Kill line. -/
def killLine (input : Input) : Input :=
  if edited : input.e ≠ input.w ∧ input.buf (slot INPUT_BUF (input.e - 1)) ≠ newline then
    have := used_back edited.1.symm
    killLine { input with e := input.e - 1 }
  else input
termination_by used input.w input.e

/-- `consoleintr` for one key, and whether it calls `wakeup(&input.r)`. -/
def consoleintr (c : UInt8) (input : Input) : Input × Bool :=
  if c = C 'P' then (input, false)
  else if c = C 'U' then (killLine input, false)
  else if c = C 'H' ∨ c = delete then
    (if input.e ≠ input.w then { input with e := input.e - 1 } else input, false)
  else if c ≠ 0 ∧ input.e - input.r < UInt32.ofNat INPUT_BUF then
    let c := if c = carriageReturn then newline else c
    let input := input.put c
    if c = newline ∨ c = C 'D' ∨ input.e = input.r + UInt32.ofNat INPUT_BUF then ({ input with w := input.e }, true)
    else (input, false)
  else (input, false)

/-- `consoleread` from where it holds the lock, with `n` bytes to go, to where it returns or calls `sleep(&input.r)`:
the bytes copied, `n` then, and the value returned. -/
def consoleread (killed : Bool) (target : Nat) : Nat → Input → Input × List UInt8 × Nat × Option Int
  | 0, input => (input, [], 0, some target)
  | n + 1, input =>
    if input.r = input.w then (input, [], n + 1, if killed then some (-1) else none)
    else
      let c := input.buf (slot INPUT_BUF input.r)
      let input := { input with r := input.r + 1 }
      if c = C 'D' then
        (if n + 1 < target then { input with r := input.r - 1 } else input, [], n + 1, some (target - (n + 1)))
      else if c = newline then (input, [c], n, some (target - n))
      else
        let (input, bytes, left, ret) := consoleread killed target n input
        (input, c :: bytes, left, ret)

/-- A process and its call of `consoleread`: the bytes asked for, the bytes to go, and the bytes copied. -/
inductive Call
  | idle
  | reading (asleep : Bool) (target n : Nat) (bytes : List UInt8)
  | got (target : Nat) (ret : Int) (bytes : List UInt8)

/-- `wakeup(&input.r)`. -/
def Call.wake : Call → Call
  | .reading _ target n bytes => .reading false target n bytes
  | call => call

def Call.Over : Call → Prop
  | .reading _ _ _ _ => False
  | _ => True

/-- The process is marked `SLEEPING`. -/
def Call.fallAsleep : Call → Call
  | .reading _ target n bytes => .reading true target n bytes
  | call => call

/-- The call after a turn that leaves `n` bytes to go; with no value to return it goes on to `sleep`. -/
def Call.turned (target n : Nat) (bytes : List UInt8) : Option Int → Call
  | none => .reading false target n bytes
  | some ret => .got target ret bytes

/-- The console and its processes. `lock` is the process that holds `cons.lock` on its way into `sleep`: it has tested
`killed` and is not asleep yet. -/
structure State (ι α : Type) where
  input : α
  lock : Option ι
  killed : ι → Bool
  call : ι → Call

section Steps
variable {ι α : Type} [DecidableEq ι]

/-- One step with the given interrupt handler and read: a key, a call that starts, a call that runs while it holds the
lock, `sleep` under `ptable.lock`, which lets `cons.lock` go, or a process that is killed, with or without the lock
being held. -/
inductive Step (intr : UInt8 → α → α × Bool) (read : Bool → Nat → Nat → α → α × List UInt8 × Nat × Option Int) :
    State ι α → State ι α → Prop
  | key (s) (c x woken) (free : s.lock = none) (run : intr c s.input = (x, woken)) :
      Step intr read s { s with input := x, call := if woken then fun j => (s.call j).wake else s.call }
  | start (s) (i) (n : Nat) (here : (s.call i).Over) :
      Step intr read s { s with call := Function.update s.call i (.reading false n n []) }
  | turn (s) (i target n before x bytes left ret) (free : s.lock = none) (here : s.call i = .reading false target n before)
      (run : read (s.killed i) target n s.input = (x, bytes, left, ret)) :
      Step intr read s { s with
        input := x
        lock := if ret = none then some i else none
        call := Function.update s.call i (.turned target left (before ++ bytes) ret) }
  | sleep (s) (i) (holds : s.lock = some i) :
      Step intr read s { s with lock := none, call := Function.update s.call i (s.call i).fallAsleep }
  | kill (s) (i) : Step intr read s { s with
      killed := Function.update s.killed i true
      call := Function.update s.call i (s.call i).wake }

def State.boot (x : α) : State ι α := ⟨x, none, fun _ => false, fun _ => .idle⟩

end Steps

/-- The input buffer at boot. -/
def empty : Input := ⟨fun _ => 0, 0, 0, 0⟩

/-! The line editor that the buffer implements. -/

/-- The text that readers may take, and the line being typed. -/
structure Desk where
  lines : List UInt8
  edit : List UInt8

/-- A key is typed, and whether it ends the line. -/
def Desk.key (c : UInt8) (desk : Desk) : Desk × Bool :=
  if c = C 'P' then (desk, false)
  else if c = C 'U' then ({ desk with edit := [] }, false)
  else if c = C 'H' ∨ c = delete then ({ desk with edit := desk.edit.dropLast }, false)
  else if c ≠ 0 ∧ desk.lines.length + desk.edit.length < INPUT_BUF then
    let c := if c = carriageReturn then newline else c
    let edit := desk.edit ++ [c]
    if c = newline ∨ c = C 'D' ∨ desk.lines.length + edit.length = INPUT_BUF then (⟨desk.lines ++ edit, []⟩, true)
    else (⟨desk.lines, edit⟩, false)
  else (desk, false)

/-- A reader takes a line, the end of the file, or as many bytes as it may. -/
def Desk.read (killed : Bool) (target : Nat) : Nat → Desk → Desk × List UInt8 × Nat × Option Int
  | 0, desk => (desk, [], 0, some target)
  | n + 1, desk =>
    match desk.lines with
    | [] => (desk, [], n + 1, if killed then some (-1) else none)
    | c :: rest =>
      if c = C 'D' then
        (if n + 1 < target then desk else { desk with lines := rest }, [], n + 1, some (target - (n + 1)))
      else if c = newline then ({ desk with lines := rest }, [c], n, some (target - n))
      else
        let (desk, bytes, left, ret) := Desk.read killed target n { desk with lines := rest }
        (desk, c :: bytes, left, ret)

end OsLabs.Console
