import Mathlib.Data.Fintype.Basic
import OsLabs.Fs.Block
import OsLabs.Lib.Ring

namespace OsLabs.Bio
open Fs (Block MAXOPBLOCKS)

def NBUF : Nat := MAXOPBLOCKS * 3

/-- `struct buf` without its links and its sleep lock. -/
structure Buf where
  valid : Bool
  dirty : Bool
  dev : Nat
  blockno : Nat
  refcnt : Nat
  data : Block

/-- A buffer of the ring, or `&bcache.head`. -/
abbrev Node := Option (Fin NBUF)

/-- `bcache`, with the `next` and `prev` links of the buffers and of the head. -/
structure Bcache where
  buf : Fin NBUF → Buf
  links : (Node → Node) × (Node → Node)

/-- The links after `binit`'s loop. -/
def binitLinks : (Node → Node) × (Node → Node) :=
  (List.finRange NBUF).foldl (fun links b => Ring.pushFront none (some b) links) (fun _ => none, fun _ => none)

def binit : Bcache := ⟨fun _ => ⟨false, false, 0, 0, 0, fun _ => 0⟩, binitLinks⟩

def Bcache.setBuf (c : Bcache) (b : Fin NBUF) (buf : Buf) : Bcache := { c with buf := Function.update c.buf b buf }

section Bget
variable (dev blockno : Nat) (c : Bcache)

/-- `bget`'s first loop stops at the block or at the head. -/
def cachedAt : Node → Bool
  | none => true
  | some b => (c.buf b).dev = dev && (c.buf b).blockno = blockno

/-- `bget`'s second loop stops at an unused buffer or at the head. -/
def unusedAt : Node → Bool
  | none => true
  | some b => (c.buf b).refcnt = 0 && !(c.buf b).dirty

/-- `bget`'s first loop, along `next`; `none` when it takes more than `NBUF` turns. -/
def cachedLoop : Option Node := Ring.walk c.links.1 (cachedAt dev blockno c) (NBUF + 1) (c.links.1 none)

/-- `bget`'s second loop, along `prev`. -/
def recycleLoop : Option Node := Ring.walk c.links.2 (unusedAt c) (NBUF + 1) (c.links.2 none)

/-- `bget` under `bcache.lock`; `none` when it panics. -/
def bget : Option (Fin NBUF × Bcache) :=
  match cachedLoop dev blockno c with
  | some (some b) => some (b, c.setBuf b { c.buf b with refcnt := (c.buf b).refcnt + 1 })
  | _ =>
    match recycleLoop c with
    | some (some b) => some (b, c.setBuf b ⟨false, false, dev, blockno, 1, (c.buf b).data⟩)
    | _ => none

end Bget

/-- `brelse` under `bcache.lock`. -/
def brelse (b : Fin NBUF) (c : Bcache) : Bcache :=
  let c := c.setBuf b { c.buf b with refcnt := (c.buf b).refcnt - 1 }
  if (c.buf b).refcnt = 0 then { c with links := Ring.pushFront none (some b) (Ring.unlink (some b) c.links) } else c

/-- Where a use of a block stands, from `bread` to the end of `brelse`: it waits for the sleep lock, holds it, has
read the block, has modified it, has let the lock go. -/
inductive Phase
  | queued
  | locked
  | reading
  | modified
  | unlocked

/-- The use holds the sleep lock. -/
def Phase.Holds : Phase → Prop
  | .locked | .reading | .modified => True
  | _ => False

inductive Use
  | idle
  | busy (phase : Phase) (b : Fin NBUF) (dev blockno : Nat)

/-- The buffer that a use has counted in `refcnt`. -/
def Use.counted : Use → Option (Fin NBUF)
  | .idle => none
  | .busy _ b _ _ => some b

/-- The cache, the sleep locks, the disks and the uses in progress. Beside them `stored` is what was last put into
each block through a buffer, and `stamp` tells when a buffer last went to the front of the ring. -/
structure State (ι : Type) where
  cache : Bcache
  lock : Fin NBUF → Option ι
  disk : Nat → Nat → Block
  use : ι → Use
  stored : Nat → Nat → Block
  stamp : Fin NBUF → Nat
  clock : Nat

def put (dev blockno : Nat) (data : Block) (disk : Nat → Nat → Block) : Nat → Nat → Block :=
  Function.update disk dev (Function.update (disk dev) blockno data)

namespace State
variable {ι : Type}

def setBuf (s : State ι) (b : Fin NBUF) (buf : Buf) : State ι := { s with cache := s.cache.setBuf b buf }

/-- `iderw` of a buffer that is neither dirty nor valid. -/
def readIn (s : State ι) (b : Fin NBUF) : State ι :=
  let buf := s.cache.buf b
  s.setBuf b { buf with data := s.disk buf.dev buf.blockno, valid := true, dirty := false }

/-- `bwrite`: the buffer is marked dirty and `iderw` writes it. -/
def bwrite (s : State ι) (b : Fin NBUF) : State ι :=
  let buf := s.cache.buf b
  { s.setBuf b { buf with valid := true, dirty := false } with disk := put buf.dev buf.blockno buf.data s.disk }

variable [DecidableEq ι]

def setUse (s : State ι) (u : ι) (use : Use) : State ι := { s with use := Function.update s.use u use }

def setLock (s : State ι) (b : Fin NBUF) (lock : Option ι) : State ι := { s with lock := Function.update s.lock b lock }

def boot (disk : Nat → Nat → Block) : State ι :=
  ⟨binit, fun _ => none, disk, fun _ => .idle, disk, fun b => b, NBUF⟩

end State

open State in
/-- One step of a use; no step where `bget` panics. Devices are numbered from 1, as `ROOTDEV` is. A modified buffer
is written, or marked dirty as `log_write` does, before it is released. -/
inductive Step {ι : Type} [DecidableEq ι] : State ι → State ι → Prop
  | bget (s) (u dev blockno b cache) (here : s.use u = .idle) (real : dev ≠ 0)
      (found : Bio.bget dev blockno s.cache = some (b, cache)) :
      Step s ({ s with cache }.setUse u (.busy .queued b dev blockno))
  | acquire (s) (u b dev blockno) (here : s.use u = .busy .queued b dev blockno) (free : s.lock b = none) :
      Step s ((s.setLock b (some u)).setUse u (.busy .locked b dev blockno))
  | bread (s) (u b dev blockno) (here : s.use u = .busy .locked b dev blockno) :
      Step s ((if (s.cache.buf b).valid then s else s.readIn b).setUse u (.busy .reading b dev blockno))
  | modify (s) (u phase b dev blockno) (data : Block) (here : s.use u = .busy phase b dev blockno)
      (read : phase = .reading ∨ phase = .modified) :
      Step s ({ s.setBuf b { s.cache.buf b with data } with stored := put dev blockno data s.stored }.setUse u
        (.busy .modified b dev blockno))
  | bwrite (s) (u phase b dev blockno) (here : s.use u = .busy phase b dev blockno)
      (read : phase = .reading ∨ phase = .modified) : Step s ((s.bwrite b).setUse u (.busy .reading b dev blockno))
  | mark (s) (u phase b dev blockno) (here : s.use u = .busy phase b dev blockno)
      (read : phase = .reading ∨ phase = .modified) :
      Step s ((s.setBuf b { s.cache.buf b with dirty := true }).setUse u (.busy .reading b dev blockno))
  | release (s) (u b dev blockno) (here : s.use u = .busy .reading b dev blockno) :
      Step s ((s.setLock b none).setUse u (.busy .unlocked b dev blockno))
  | brelse (s) (u b dev blockno) (here : s.use u = .busy .unlocked b dev blockno) :
      Step s ({ s with
        cache := Bio.brelse b s.cache
        stamp := if (s.cache.buf b).refcnt ≤ 1 then Function.update s.stamp b s.clock else s.stamp
        clock := s.clock + 1 }.setUse u .idle)

end OsLabs.Bio
