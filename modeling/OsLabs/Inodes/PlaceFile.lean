import Mathlib.Logic.Function.Basic
import OsLabs.Lib.Bytes

namespace OsLabs.Inodes
open ByteMemory

/-- `struct inode` of inode.h. Only `dblocks[0..11]` and `iblocks[0..2]` are
fields of the structure; larger indices are never read or written. -/
structure Inode where
  mode : Int
  nlink : Int
  uid : Int
  gid : Int
  size : Int
  ctime : Int
  mtime : Int
  atime : Int
  dblocks : Nat → Int
  iblocks : Nat → Int
  i2block : Int
  i3block : Int

/-- The 25 `int` words of an inode in memory order. -/
def Inode.word (ip : Inode) : Nat → Int
  | 0 => ip.mode
  | 1 => ip.nlink
  | 2 => ip.uid
  | 3 => ip.gid
  | 4 => ip.size
  | 5 => ip.ctime
  | 6 => ip.mtime
  | 7 => ip.atime
  | k + 8 => if k < 12 then ip.dblocks k else if k < 15 then ip.iblocks (k - 12)
      else if k = 15 then ip.i2block else ip.i3block

/-- The reasons for which a command calls `exit(-1)` before it is done. -/
inductive Exit
  | noFreeBlock | reservedBlock | inodePosition | slotFilled | fileNotFound | fileTooLarge
  deriving DecidableEq, Repr

/-- The `while` loop of `get_free_block`; the fuel is the number of blocks left. -/
def firstFree (bitmap : Bytes) : Nat → Int → Int
  | 0, i => i
  | k + 1, i => if bitmap i = 0 then i else firstFree bitmap k (i + 1)

def getFreeBlock (bitmap : Bytes) (n m : Int) : Except Exit (Int × Bytes) :=
  let i := firstFree bitmap (n - m).toNat m
  let marked := if i < n then Function.update bitmap i 1 else bitmap
  if i = n then .error .noFreeBlock else .ok (i, marked)

/-- The first seven words decide whether a slot holds an inode. -/
def isInode (offset : Int) (rawdata : Bytes) : Bool :=
  (List.range 7).any fun k => readInt (offset + 4 * k) rawdata != 0

def placeInode (d i m : Int) (rawdata : Bytes) (ip : Inode) : Except Exit Bytes :=
  let offset := wrap32 (wrap32 (d * 1024) + wrap32 (i * 100))
  if m ≤ d then .error .reservedBlock
  else if 10 ≤ i then .error .inodePosition
  else if isInode offset rawdata then .error .slotFilled
  else .ok (memcpy offset (bytesOfWords ip.word) 100 rawdata)

def extractInodeFromData (offset : Int) (rawdata : Bytes) : Inode where
  mode := readInt offset rawdata
  nlink := readInt (offset + 4) rawdata
  uid := readInt (offset + 8) rawdata
  gid := readInt (offset + 12) rawdata
  size := readInt (offset + 16) rawdata
  ctime := readInt (offset + 20) rawdata
  mtime := readInt (offset + 24) rawdata
  atime := readInt (offset + 28) rawdata
  dblocks k := readInt (offset + 32 + 4 * k) rawdata
  iblocks k := readInt (offset + 80 + 4 * k) rawdata
  i2block := readInt (offset + 92) rawdata
  i3block := readInt (offset + 96) rawdata

/-- Everything `place_file` and the functions it calls change: the image, the
bitmap, the inode being built, the read position of the input file, the
buffer and the running byte count. -/
structure Placing where
  rawdata : Bytes
  bitmap : Bytes
  ip : Inode
  fpr : Nat
  buf : Bytes
  nbytes : Int

/-- `fread(buf, 1, BLOCK_SZ, fpr)` and `nbytes += num_bytes_read`. What lies
behind the bytes read stays in the buffer from before. -/
def readChunk (file : List UInt8) (s : Placing) : Placing :=
  let numBytesRead := min 1024 (file.length - s.fpr)
  { s with
    buf := fun k => if 0 ≤ k ∧ k < numBytesRead then file.getD (s.fpr + k.toNat) 0 else s.buf k
    fpr := s.fpr + numBytesRead
    nbytes := wrap32 (s.nbytes + numBytesRead) }

def copyBlock (blockno : Int) (s : Placing) : Placing :=
  { s with rawdata := memcpy (wrap32 (blockno * 1024)) s.buf 1024 s.rawdata }

/-- The loop that fills the 256 entries of a pointer block, shared by the three
`place_..._block` functions: `entry` is its body, up to the final test. The
result says whether the loop was left by that test, which is a `return`. -/
def fillBlock (entry : Int → Placing → Except Exit Placing) (fileSize blockno : Int) :
    Nat → Placing → Except Exit (Bool × Placing)
  | 0, s => .ok (false, s)
  | left + 1, s =>
    if s.nbytes < fileSize then do
      let s ← entry (wrap32 (wrap32 (blockno * 1024) + (256 - (left + 1)) * 4)) s
      if fileSize ≤ s.nbytes then .ok (true, s) else fillBlock entry fileSize blockno left s
    else .ok (false, s)

/-- A pointer block of any level: take a free block, let the inode name it
where the caller wants that, fill it. -/
def placePointerBlock (n m : Int) (name : Int → Inode → Inode)
    (entry : Int → Placing → Except Exit Placing) (fileSize : Int) (s : Placing) :
    Except Exit (Int × Bool × Placing) := do
  let (blockno, bitmap) ← getFreeBlock s.bitmap n m
  let (returned, s) ← fillBlock entry fileSize blockno 256
    { s with bitmap := bitmap, ip := name blockno s.ip }
  .ok (blockno, returned, s)

section Levels
variable (file : List UInt8) (n m fileSize : Int)

def placeDataEntry (position : Int) (s : Placing) : Except Exit Placing := do
  let (dataBlockno, bitmap) ← getFreeBlock s.bitmap n m
  .ok (copyBlock dataBlockno (readChunk file
    { s with bitmap := bitmap, rawdata := writeInt position dataBlockno s.rawdata }))

/-- `num_indirect` is 21 when the block hangs below a doubly indirect block. -/
def placeIndirectBlock (numIndirect : Int) (s : Placing) : Except Exit (Int × Placing) := do
  let name := fun blockno ip => if numIndirect ≠ 21 then
    { ip with iblocks := Function.update ip.iblocks numIndirect.toNat blockno } else ip
  let (blockno, returned, s) ← placePointerBlock n m name (placeDataEntry file n m) fileSize s
  .ok (if returned ∨ numIndirect = 21 then blockno else 0, s)

def placeIndirectEntry (position : Int) (s : Placing) : Except Exit Placing := do
  let (indirectBlockno, s) ← placeIndirectBlock file n m fileSize 21 s
  .ok { s with rawdata := writeInt position indirectBlockno s.rawdata }

def placeDoublyIndirectBlock (tripleFlag : Int) (s : Placing) : Except Exit (Int × Placing) := do
  let name := fun blockno ip => if tripleFlag = 0 then { ip with i2block := blockno } else ip
  let (blockno, returned, s) ← placePointerBlock n m name (placeIndirectEntry file n m fileSize) fileSize s
  .ok (if returned ∨ tripleFlag = 1 then blockno else 0, s)

def placeDoublyEntry (position : Int) (s : Placing) : Except Exit Placing := do
  let (doublyIndirectBlockno, s) ← placeDoublyIndirectBlock file n m fileSize 1 s
  .ok { s with rawdata := writeInt position doublyIndirectBlockno s.rawdata }

def placeTriplyIndirectBlock (s : Placing) : Except Exit Placing := do
  let name := fun blockno ip => { ip with i3block := blockno }
  let (_, _, s) ← placePointerBlock n m name (placeDoublyEntry file n m fileSize) fileSize s
  .ok s

/-- The loop over the direct blocks; the count is of the slots left. -/
def placeDirect : Nat → Placing → Except Exit Placing
  | 0, s => .ok s
  | left + 1, s => do
    let (blockno, bitmap) ← getFreeBlock s.bitmap n m
    let s := copyBlock blockno (readChunk file
      { s with bitmap := bitmap
               ip := { s.ip with dblocks := Function.update s.ip.dblocks (12 - (left + 1)) blockno } })
    if (file.length : Int) ≤ s.nbytes then .ok s else placeDirect left s

def placeIndirects : Nat → Placing → Except Exit Placing
  | 0, s => .ok s
  | left + 1, s =>
    if s.nbytes < file.length then do
      let (_, s) ← placeIndirectBlock file n m (wrap32 file.length) (3 - (left + 1)) s
      placeIndirects left s
    else .ok s

/-- "one doubly indirect block if needed" -/
def placeDoubly (s : Placing) : Except Exit Placing :=
  if s.nbytes < file.length then do
    let (_, s) ← placeDoublyIndirectBlock file n m (wrap32 file.length) 0 s
    .ok s
  else .ok s

/-- "one triply indirect block if needed" -/
def placeTriply (s : Placing) : Except Exit Placing :=
  if s.nbytes < file.length then placeTriplyIndirectBlock file n m (wrap32 file.length) s else .ok s

end Levels

/-- What the program does not compute itself: the contents of the memory
`malloc` returns for the image, the bitmap and the inode, the uninitialised
stack buffer, and the three values of `random()`. -/
structure Heap where
  rawdata : Bytes
  bitmap : Bytes
  ip : Inode
  buf : Bytes
  random : Nat → Int

/-- Memory from `malloc` and a `random()` that return zero throughout. -/
def blankHeap : Heap where
  rawdata _ := 0
  bitmap _ := 0
  ip := ⟨0, 0, 0, 0, 0, 0, 0, 0, fun _ => 0, fun _ => 0, 0, 0⟩
  buf _ := 0
  random _ := 0

/-- The part of `place_file` before `place_inode`. -/
def placeBlocks (heap : Heap) (file : List UInt8) (uid gid m : Int) (rawdata bitmap : Bytes) (n : Int) :
    Except Exit Placing := do
  let ip := { heap.ip with
    mode := 0, nlink := 1, uid := uid, gid := gid
    ctime := wrap32 (heap.random 0), mtime := wrap32 (heap.random 1), atime := wrap32 (heap.random 2) }
  let s ← placeDirect file n m 12 ⟨rawdata, bitmap, ip, 0, heap.buf, 0⟩
  let s ← placeIndirects file n m 3 s
  let s ← placeDoubly file n m s
  let s ← placeTriply file n m s
  if s.nbytes < file.length then .error .fileTooLarge
  else .ok { s with ip := { s.ip with size := s.nbytes } }

/-- `place_file`; the result is the image and the bitmap it leaves. -/
def placeFile (heap : Heap) (input : Option (List UInt8)) (uid gid d i m : Int) (rawdata bitmap : Bytes)
    (n : Int) : Except Exit (Bytes × Bytes) := do
  match input with
  | none => .error .fileNotFound
  | some file =>
    let s ← placeBlocks heap file uid gid m rawdata bitmap n
    let rawdata ← placeInode d i m s.rawdata s.ip
    .ok (rawdata, s.bitmap)

end OsLabs.Inodes
