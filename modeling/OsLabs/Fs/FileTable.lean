import Mathlib.Data.Fintype.Card
import Mathlib.Logic.Function.Basic

namespace OsLabs.Files

def NOFILE : Nat := 16
def NFILE : Nat := 100

/-- `f->type`, for a pipe with `f->pipe` and `f->writable`. -/
inductive FileType (π : Type)
  | FD_NONE
  | FD_PIPE (pipe : π) (writable : Bool)
  | FD_INODE
  deriving DecidableEq

/-- `struct file`. -/
structure File (π : Type) where
  ref : Nat
  type : FileType π

abbrev Ftable (π : Type) := Fin NFILE → File π

/-- The ends of a pipe; `none` while its page is free. -/
structure Ends where
  readopen : Bool
  writeopen : Bool
  deriving DecidableEq

def Ends.isOpen (ends : Ends) (writable : Bool) : Bool := if writable then ends.writeopen else ends.readopen

section Operations
variable {π : Type}

/-- `filealloc`: the first file without references, with one now. -/
def filealloc (files : Ftable π) : Option (Fin NFILE × Ftable π) :=
  ((List.finRange NFILE).find? fun f => (files f).ref = 0).map fun f =>
    (f, Function.update files f { files f with ref := 1 })

/-- `filedup`. -/
def filedup (f : Fin NFILE) (files : Ftable π) : Except String (Ftable π) :=
  if (files f).ref < 1 then .error "filedup"
  else .ok (Function.update files f { files f with ref := (files f).ref + 1 })

/-- `fileclose` while it holds the lock: the table, and the type of a file that nothing refers to any more. -/
def fileclose (f : Fin NFILE) (files : Ftable π) : Except String (Ftable π × FileType π) :=
  if (files f).ref < 1 then .error "fileclose"
  else if 0 < (files f).ref - 1 then
    .ok (Function.update files f { files f with ref := (files f).ref - 1 }, .FD_NONE)
  else .ok (Function.update files f ⟨0, .FD_NONE⟩, (files f).type)

/-- `fdalloc`: the first free descriptor. -/
def fdalloc (ofile : Fin NOFILE → Option (Fin NFILE)) : Option (Fin NOFILE) :=
  (List.finRange NOFILE).find? fun fd => ofile fd = none

/-- `pipeclose`: the page is freed with the second end. -/
def pipeclose (ends : Ends) (writable : Bool) : Option Ends :=
  let ends := if writable then { ends with writeopen := false } else { ends with readopen := false }
  if ends.readopen || ends.writeopen then some ends else none

end Operations

/-- Where a process is in its system call. -/
inductive Pos (ι : Type)
  /-- no process: `UNUSED` or `ZOMBIE` -/
  | absent
  /-- a child that `fork` has not made `RUNNABLE` yet -/
  | embryo
  | user
  /-- `fileread`, `filewrite` or `filestat` on `f` -/
  | uses (f : Fin NFILE)
  /-- `sys_dup` has set descriptor `fd`, and calls `filedup` -/
  | dup (f : Fin NFILE) (fd : Fin NOFILE)
  /-- `fileclose` of these files is to come -/
  | close (files : List (Fin NFILE))
  /-- `sys_open` has a file -/
  | opens (f : Fin NFILE)
  /-- `pipealloc` has one file -/
  | pipe1 (f0 : Fin NFILE)
  /-- `pipealloc` has two files -/
  | pipe2 (f0 f1 : Fin NFILE)
  /-- `pipealloc` has returned -/
  | piped (f0 f1 : Fin NFILE)
  /-- `fork` has copied the descriptors below `fd` -/
  | fork (child : ι) (fd : Nat)
  /-- `exit` has closed the descriptors below `fd` -/
  | exit (fd : Nat)
  /-- `exit` has called `fileclose` for `fd`, which is still set -/
  | exited (fd : Fin NOFILE)

/-- A process with its descriptors, and the end of a pipe that `fileclose` has still to close. -/
structure Proc (ι π : Type) where
  ofile : Fin NOFILE → Option (Fin NFILE)
  pos : Pos ι
  pending : Option (π × Bool)

structure State (ι π : Type) where
  files : Ftable π
  procs : ι → Proc ι π
  pipes : π → Option Ends
  panicked : Option String

section Steps
variable {ι π : Type}

def FileType.pending : FileType π → Option (π × Bool)
  | .FD_PIPE p writable => some (p, writable)
  | _ => none

/-- Where a process is when `fileclose` has handled the first of its files. -/
def Pos.closed : List (Fin NFILE) → Pos ι
  | [] => .user
  | f :: rest => .close (f :: rest)

def Proc.at (p : Proc ι π) (pos : Pos ι) : Proc ι π := { p with pos := pos }

def Proc.install (p : Proc ι π) (fd : Fin NOFILE) (f : Option (Fin NFILE)) (pos : Pos ι) : Proc ι π :=
  { p with ofile := Function.update p.ofile fd f, pos := pos }

def State.move [DecidableEq ι] (s : State ι π) (i : ι) (p : Proc ι π) : State ι π :=
  { s with procs := Function.update s.procs i p }

variable [DecidableEq ι] [DecidableEq π]

/-- One step of process `i`. Each holds `ftable.lock` or a pipe's lock, or changes what is the process's own. -/
inductive Act (i : ι) : State ι π → State ι π → Prop
  | use (s) (f fd) (here : (s.procs i).pos = .user) (slot : (s.procs i).ofile fd = some f) :
      Act i s (s.move i ((s.procs i).at (.uses f)))
  | used (s) (f) (here : (s.procs i).pos = .uses f) : Act i s (s.move i ((s.procs i).at .user))
  | dup (s) (f fd fd') (here : (s.procs i).pos = .user) (slot : (s.procs i).ofile fd = some f)
      (found : fdalloc (s.procs i).ofile = some fd') :
      Act i s (s.move i ((s.procs i).install fd' (some f) (.dup f fd')))
  | dupRef (s) (f fd files) (here : (s.procs i).pos = .dup f fd) (run : filedup f s.files = .ok files) :
      Act i s { s.move i ((s.procs i).at .user) with files := files }
  | dupPanic (s) (f fd msg) (here : (s.procs i).pos = .dup f fd) (run : filedup f s.files = .error msg) :
      Act i s { s with panicked := some msg }
  | close (s) (f fd) (here : (s.procs i).pos = .user) (slot : (s.procs i).ofile fd = some f) :
      Act i s (s.move i ((s.procs i).install fd none (.close [f])))
  | closeRef (s) (f rest files type) (here : (s.procs i).pos = .close (f :: rest))
      (run : fileclose f s.files = .ok (files, type)) :
      Act i s { s.move i { (s.procs i).at (.closed rest) with pending := type.pending } with files := files }
  | closePanic (s) (f rest msg) (here : (s.procs i).pos = .close (f :: rest))
      (run : fileclose f s.files = .error msg) : Act i s { s with panicked := some msg }
  | openAlloc (s) (f files) (here : (s.procs i).pos = .user)
      (run : filealloc s.files = some (f, files)) :
      Act i s { s.move i ((s.procs i).at (.opens f)) with files := files }
  | openSlot (s) (f fd) (here : (s.procs i).pos = .opens f) (found : fdalloc (s.procs i).ofile = some fd) :
      Act i s { s.move i ((s.procs i).install fd (some f) .user) with
        files := Function.update s.files f { s.files f with type := .FD_INODE } }
  | openFail (s) (f) (here : (s.procs i).pos = .opens f) (full : fdalloc (s.procs i).ofile = none) :
      Act i s (s.move i ((s.procs i).at (.close [f])))
  | pipeFirst (s) (f files) (here : (s.procs i).pos = .user)
      (run : filealloc s.files = some (f, files)) :
      Act i s { s.move i ((s.procs i).at (.pipe1 f)) with files := files }
  | pipeSecond (s) (f0 f1 files) (here : (s.procs i).pos = .pipe1 f0) (run : filealloc s.files = some (f1, files)) :
      Act i s { s.move i ((s.procs i).at (.pipe2 f0 f1)) with files := files }
  | pipeFull (s) (f0) (here : (s.procs i).pos = .pipe1 f0) (full : filealloc s.files = none) :
      Act i s (s.move i ((s.procs i).at (.close [f0])))
  | pipePage (s) (f0 f1 p) (here : (s.procs i).pos = .pipe2 f0 f1) (kalloc : s.pipes p = none) :
      Act i s { s.move i ((s.procs i).at (.piped f0 f1)) with
        files := Function.update (Function.update s.files f0 { s.files f0 with type := .FD_PIPE p false }) f1
          { s.files f1 with type := .FD_PIPE p true }
        pipes := Function.update s.pipes p (some ⟨true, true⟩) }
  | pipeNoPage (s) (f0 f1) (here : (s.procs i).pos = .pipe2 f0 f1) : Act i s (s.move i ((s.procs i).at (.close [f0, f1])))
  | pipeSlots (s) (f0 f1 fd0 fd1) (here : (s.procs i).pos = .piped f0 f1)
      (found : fdalloc (s.procs i).ofile = some fd0)
      (found' : fdalloc (Function.update (s.procs i).ofile fd0 (some f0)) = some fd1) :
      Act i s (s.move i (((s.procs i).install fd0 (some f0) .user).install fd1 (some f1) .user))
  | pipeFail (s) (f0 f1) (here : (s.procs i).pos = .piped f0 f1)
      (full : ∀ fd0, fdalloc (s.procs i).ofile = some fd0 →
        fdalloc (Function.update (s.procs i).ofile fd0 (some f0)) = none) :
      Act i s (s.move i ((s.procs i).at (.close [f0, f1])))
  | fork (s) (c) (here : (s.procs i).pos = .user) (slot : (s.procs c).pos = .absent) :
      Act i s ((s.move i ((s.procs i).at (.fork c 0))).move c ((s.procs c).at .embryo))
  | forkCopy (s) (c f files) (fd : Fin NOFILE) (here : (s.procs i).pos = .fork c fd) (slot : (s.procs i).ofile fd = some f)
      (run : filedup f s.files = .ok files) :
      Act i s { (s.move i ((s.procs i).at (.fork c (fd + 1)))).move c ((s.procs c).install fd (some f) .embryo) with
        files := files }
  | forkPanic (s) (c f msg) (fd : Fin NOFILE) (here : (s.procs i).pos = .fork c fd)
      (slot : (s.procs i).ofile fd = some f) (run : filedup f s.files = .error msg) : Act i s { s with panicked := some msg }
  | forkSkip (s) (c) (fd : Fin NOFILE) (here : (s.procs i).pos = .fork c fd) (slot : (s.procs i).ofile fd = none) :
      Act i s (s.move i ((s.procs i).at (.fork c (fd + 1))))
  | forked (s) (c) (here : (s.procs i).pos = .fork c NOFILE) :
      Act i s ((s.move i ((s.procs i).at .user)).move c ((s.procs c).at .user))
  | exit (s) (here : (s.procs i).pos = .user) :
      Act i s (s.move i ((s.procs i).at (.exit 0)))
  | exitRef (s) (f files type) (fd : Fin NOFILE) (here : (s.procs i).pos = .exit fd)
      (slot : (s.procs i).ofile fd = some f) (run : fileclose f s.files = .ok (files, type)) :
      Act i s { s.move i { (s.procs i).at (.exited fd) with pending := type.pending } with files := files }
  | exitPanic (s) (f msg) (fd : Fin NOFILE) (here : (s.procs i).pos = .exit fd) (slot : (s.procs i).ofile fd = some f)
      (run : fileclose f s.files = .error msg) : Act i s { s with panicked := some msg }
  | exitClear (s) (fd : Fin NOFILE) (here : (s.procs i).pos = .exited fd) :
      Act i s (s.move i ((s.procs i).install fd none (.exit (fd + 1))))
  | exitSkip (s) (fd : Fin NOFILE) (here : (s.procs i).pos = .exit fd) (slot : (s.procs i).ofile fd = none) :
      Act i s (s.move i ((s.procs i).at (.exit (fd + 1))))
  | gone (s) (here : (s.procs i).pos = .exit NOFILE) : Act i s (s.move i ((s.procs i).at .absent))

/-- A step of some process, as long as no kernel code has panicked. In `fileclose` the end of a pipe is closed before
anything else. -/
inductive Step : State ι π → State ι π → Prop
  | act (s t) (i) (calm : s.panicked = none) (ready : (s.procs i).pending = none) (act : Act i s t) : Step s t
  | pipeclose (s) (i p w ends) (calm : s.panicked = none) (here : (s.procs i).pending = some (p, w))
      (live : s.pipes p = some ends) :
      Step s { s.move i { s.procs i with pending := none } with
        pipes := Function.update s.pipes p (pipeclose ends w) }
  | freed (s) (i p w) (calm : s.panicked = none) (here : (s.procs i).pending = some (p, w)) (gone : s.pipes p = none) :
      Step s { s with panicked := some "pipeclose of a freed page" }

/-- After boot: one process, without descriptors. -/
def State.boot (first : ι) : State ι π where
  files _ := ⟨0, .FD_NONE⟩
  procs i := ⟨fun _ => none, if i = first then .user else .absent, none⟩
  pipes _ := none
  panicked := none

end Steps

end OsLabs.Files
