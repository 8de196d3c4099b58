import OsLabs.Inodes.WalkInsert

namespace OsLabs.Inodes
open ByteMemory PointerTree

/-- The output stream of one extracted file, and the byte ranges of `rawdata`
(offset and length) the extraction has read so far. -/
structure Extraction where
  out : List UInt8
  touched : List (Int × Nat)

def Extraction.ftell (s : Extraction) : Int := s.out.length

/-- `fwrite(rawdata + offset, 1, count, fp)` as documented and without write errors: it reads and appends `count` bytes,
a negative `count` being the `size_t` that it is converted to. -/
def fwrite (rawdata : Bytes) (offset count : Int) (s : Extraction) : Extraction :=
  let size := (count % 2 ^ 64).toNat
  ⟨s.out ++ (List.range size).map (fun k : Nat => rawdata (offset + k)), (offset, size) :: s.touched⟩

/-- A data block is written whole, or up to the remainder of the size once the
stream comes within a block of it. -/
def extractBlock (rawdata : Bytes) (size blockNo : Int) (s : Extraction) : Extraction :=
  let temp := wrap32 (blockNo * 1024)
  if s.ftell + 1024 > size then fwrite rawdata temp (size.tmod 1024) s else fwrite rawdata temp 1024 s

def outOfRange (maxBlock blockNo : Int) : Bool := blockNo < 0 || blockNo > maxBlock

/-- The loop of the three `extract_walk_...` functions: it returns at the first
pointer out of range. -/
def extractEntries (visit : Int → Extraction → Extraction) (rawdata : Bytes) (blockNo maxBlock : Int) :
    Nat → Extraction → Extraction
  | 0, s => s
  | left + 1, s =>
    let block := readEntry rawdata blockNo (256 - (left + 1))
    let s := { s with touched := (wrap32 (wrap32 (blockNo * 1024) + 4 * ↑(256 - (left + 1))), 4) :: s.touched }
    if outOfRange maxBlock block then s else extractEntries visit rawdata blockNo maxBlock left (visit block s)

section Walks
variable (rawdata : Bytes) (maxBlock size : Int)

def extractWalkIndirectBlock (blockNo : Int) (s : Extraction) : Extraction :=
  extractEntries (extractBlock rawdata size) rawdata blockNo maxBlock 256 s

def extractWalkDoublyIndirectBlock (blockNo : Int) (s : Extraction) : Extraction :=
  extractEntries (extractWalkIndirectBlock rawdata maxBlock size) rawdata blockNo maxBlock 256 s

def extractWalkTriplyIndirectBlock (blockNo : Int) (s : Extraction) : Extraction :=
  extractEntries (extractWalkDoublyIndirectBlock rawdata maxBlock size) rawdata blockNo maxBlock 256 s

/-- One of the two loops of `extract_file` over an array of the inode. The flag
is false when a pointer out of range makes the function return. -/
def extractSlots (blocks : Nat → Int) (visit : Int → Extraction → Extraction) (count : Nat) :
    Nat → Extraction → Bool × Extraction
  | 0, s => (true, s)
  | left + 1, s =>
    let blockNo := blocks (count - (left + 1))
    if outOfRange maxBlock blockNo then (false, s) else extractSlots blocks visit count left (visit blockNo s)

/-- The double and triple indirect slots: a pointer out of range is skipped. -/
def extractSlot (visit : Int → Extraction → Extraction) (blockNo : Int) (s : Extraction) : Extraction :=
  if outOfRange maxBlock blockNo then s else visit blockNo s

/-- `extract_file` once it has the inode and the number of blocks. -/
def extractInode (fileInode : Inode) (s : Extraction) : Extraction :=
  match extractSlots maxBlock fileInode.dblocks (extractBlock rawdata size) 12 12 s with
  | (false, s) => s
  | (true, s) =>
    match extractSlots maxBlock fileInode.iblocks (extractWalkIndirectBlock rawdata maxBlock size) 3 3 s with
    | (false, s) => s
    | (true, s) =>
      extractSlot maxBlock (extractWalkTriplyIndirectBlock rawdata maxBlock size) fileInode.i3block
        (extractSlot maxBlock (extractWalkDoublyIndirectBlock rawdata maxBlock size) fileInode.i2block s)

end Walks

/-- `extract_file`; `file_size` is the length of the image. The inode is a
pointer into the image, so its 100 bytes are read as well. -/
def extractFile (inodeOffset : Int) (rawdata : Bytes) (s : Extraction) (fileSize : Int) : Extraction :=
  extractInode rawdata (fileSize.tdiv 1024) (extractInodeFromData inodeOffset rawdata).size
    (extractInodeFromData inodeOffset rawdata) { s with touched := (inodeOffset, 100) :: s.touched }

/-- What visiting the data blocks `bs` in turn does to the stream. -/
def emit (rawdata : Bytes) (size : Int) (bs : List Int) (out : List UInt8) : List UInt8 :=
  bs.foldl (fun out b => (extractBlock rawdata size b ⟨out, []⟩).out) out

@[simp] theorem emit_nil (rawdata : Bytes) (size : Int) (out : List UInt8) : emit rawdata size [] out = out := rfl

@[simp] theorem emit_cons (rawdata : Bytes) (size b : Int) (bs : List Int) (out : List UInt8) :
    emit rawdata size (b :: bs) out = emit rawdata size bs (extractBlock rawdata size b ⟨out, []⟩).out := rfl

theorem emit_append (rawdata : Bytes) (size : Int) (bs cs : List Int) (out : List UInt8) :
    emit rawdata size (bs ++ cs) out = emit rawdata size cs (emit rawdata size bs out) := List.foldl_append

/-- The stream depends on the stream alone, not on what was read before. -/
theorem extractBlock_out (rawdata : Bytes) (size b : Int) (s : Extraction) :
    (extractBlock rawdata size b s).out = emit rawdata size [b] s.out := by
  simp only [emit_cons, emit_nil, extractBlock, Extraction.ftell]
  by_cases past : (s.out.length : Int) + 1024 > size <;> simp [past, fwrite]

theorem extractEntries_out {visit : Int → Extraction → Extraction} {blocks : Int → List Int} {rawdata : Bytes}
    {size maxBlock : Int} (visits : ∀ b s, (visit b s).out = emit rawdata size (blocks b) s.out) (blockNo : Int)
    (left : Nat) (s : Extraction) (bound : left ≤ 256) :
    (extractEntries visit rawdata blockNo maxBlock left s).out =
      emit rawdata size ((((List.range' (256 - left) left).map (readEntries rawdata blockNo)).takeWhile
        (fun p => !outOfRange maxBlock p)).flatMap blocks) s.out := by
  induction left generalizing s with
  | zero => rfl
  | succ left ih =>
    rw [readEntries_succ bound, List.takeWhile_cons]
    unfold extractEntries
    generalize readEntry rawdata blockNo (256 - (left + 1)) = block
    by_cases out : outOfRange maxBlock block
    · simp [out]
    · simp only [out, Bool.false_eq_true, if_false, Bool.not_false, if_true, List.flatMap_cons, emit_append]
      rw [ih _ (by omega), visits]

/-- The data blocks the extractor writes below a pointer `k` levels above the data. -/
abbrev scanned (rawdata : Bytes) (maxBlock : Int) (k : Nat) (b : Int) : List Int :=
  scan (readEntries rawdata) (outOfRange maxBlock) 256 k b

theorem extractEntries_scan {visit : Int → Extraction → Extraction} {rawdata : Bytes} {size maxBlock : Int} {k : Nat}
    (below : ∀ b s, (visit b s).out = emit rawdata size (scanned rawdata maxBlock k b) s.out) (b : Int)
    (s : Extraction) :
    (extractEntries visit rawdata b maxBlock 256 s).out = emit rawdata size
      (scanned rawdata maxBlock (k + 1) b) s.out := by
  rw [extractEntries_out below b 256 s le_rfl, scanned, scan, pointers, List.range_eq_range', Nat.sub_self]

theorem extractWalkIndirectBlock_out (rawdata : Bytes) (maxBlock size b : Int) (s : Extraction) :
    (extractWalkIndirectBlock rawdata maxBlock size b s).out = emit rawdata size
      (scanned rawdata maxBlock 1 b) s.out :=
  extractEntries_scan (extractBlock_out rawdata size) b s

theorem extractWalkDoublyIndirectBlock_out (rawdata : Bytes) (maxBlock size b : Int) (s : Extraction) :
    (extractWalkDoublyIndirectBlock rawdata maxBlock size b s).out =
      emit rawdata size (scanned rawdata maxBlock 2 b) s.out :=
  extractEntries_scan (extractWalkIndirectBlock_out rawdata maxBlock size) b s

theorem extractWalkTriplyIndirectBlock_out (rawdata : Bytes) (maxBlock size b : Int) (s : Extraction) :
    (extractWalkTriplyIndirectBlock rawdata maxBlock size b s).out =
      emit rawdata size (scanned rawdata maxBlock 3 b) s.out :=
  extractEntries_scan (extractWalkDoublyIndirectBlock_out rawdata maxBlock size) b s

end OsLabs.Inodes
