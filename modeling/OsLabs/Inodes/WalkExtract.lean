import OsLabs.Inodes.Extract

namespace OsLabs.Inodes
open ByteMemory PointerTree

/-- The drive `-extract` has read: `length` is what `ftell` returned, a `long`,
and behind the first `length` bytes `rawdata` is whatever memory holds there. -/
structure Drive where
  rawdata : Bytes
  length : Nat
  length_lt : length < 2 ^ 63

/-- `walk_inodes_extract` receives the length as an `int`. -/
def Drive.fileSize (drive : Drive) : Int := wrap32 drive.length

def Drive.maxBlock (drive : Drive) : Int := drive.fileSize.tdiv 1024

/-- What `walk_inodes_extract` changes: the bitmap, `file_count` and the numbered
files of the output directory; with the byte ranges of `rawdata` it has read. -/
structure Survey where
  bitmap : Bytes
  fileCount : Nat
  files : Nat → List UInt8
  touched : List (Int × Nat)

/-- The next numbered file has been written through `fp`. -/
def Survey.fclose (s : Survey) (fp : Extraction) : Survey where
  bitmap := s.bitmap
  fileCount := s.fileCount + 1
  files := Function.update s.files (s.fileCount + 1) fp.out
  touched := fp.touched

@[simp] theorem Survey.fclose_touched (s : Survey) (fp : Extraction) : (s.fclose fp).touched = fp.touched := rfl

/-- The loop of `is_block_empty`, which ends at the first nonzero word, and its reads. -/
def emptyWords (offset : Int) (rawdata : Bytes) : Nat → Bool × List (Int × Nat)
  | 0 => (true, [])
  | left + 1 =>
    let pos := wrap32 (offset + 4 * ↑(64 - (left + 1)))
    if readInt pos rawdata ≠ 0 then (false, [(pos, 4)])
    else ((emptyWords offset rawdata left).1, (emptyWords offset rawdata left).2 ++ [(pos, 4)])

theorem emptyWords_succ {offset pos : Int} {rawdata : Bytes} {left : Nat}
    (word : wrap32 (offset + 4 * ↑(64 - (left + 1))) = pos) : emptyWords offset rawdata (left + 1) =
      if readInt pos rawdata ≠ 0 then (false, [(pos, 4)])
      else ((emptyWords offset rawdata left).1, (emptyWords offset rawdata left).2 ++ [(pos, 4)]) := by
  subst word
  rfl

/-- The result of `is_block_empty`: only the first 256 bytes are looked at. -/
def blockEmpty (offset : Int) (rawdata : Bytes) : Bool := (emptyWords offset rawdata 64).1

def isBlockEmpty (offset : Int) (rawdata : Bytes) (s : Survey) : Bool × Survey :=
  (blockEmpty offset rawdata,
    { s with
      bitmap := Function.update s.bitmap (offset.tdiv 1024) (if blockEmpty offset rawdata then 0 else 1)
      touched := (emptyWords offset rawdata 64).2 ++ s.touched })

theorem isBlockEmpty_fst (offset : Int) (rawdata : Bytes) (s : Survey) :
    (isBlockEmpty offset rawdata s).1 = blockEmpty offset rawdata := by
  simp only [isBlockEmpty]

def isInodeExtract (offset : Int) (rawdata : Bytes) (uid gid : Int) : Bool :=
  (extractInodeFromData offset rawdata).uid == uid && (extractInodeFromData offset rawdata).gid == gid

/-- The group is read when the user matches. -/
def inodeReads (offset : Int) (rawdata : Bytes) (uid : Int) : List (Int × Nat) :=
  if (extractInodeFromData offset rawdata).uid = uid then [(offset + 12, 4), (offset + 8, 4)] else [(offset + 8, 4)]

def inodeOffset (i j : Nat) : Int := wrap32 (wrap32 (i * 1024) + j * 100)

section Walk
variable (rawdata : Bytes) (fileSize uid gid : Int)

/-- The body of the inner loop of `walk_inodes_extract`. The file is opened for
appending, so that its stream begins with what the file already holds. -/
def surveySlot (i : Nat) (s : Survey) (j : Nat) : Survey :=
  let offset := inodeOffset i j
  let reads := inodeReads offset rawdata uid ++ s.touched
  if isInodeExtract offset rawdata uid gid then
    s.fclose (extractFile offset rawdata ⟨s.files (s.fileCount + 1), reads⟩ fileSize)
  else { s with touched := reads }

/-- The body of the outer loop: an empty block is not searched for inodes. -/
def surveyBlock (s : Survey) (i : Nat) : Survey :=
  let checked := isBlockEmpty (wrap32 (i * 1024)) rawdata s
  if checked.1 then checked.2 else (List.range 10).foldl (surveySlot rawdata fileSize uid gid i) checked.2

def walkInodesExtract (s : Survey) : Survey :=
  (List.range (fileSize.tdiv 1024).toNat).foldl (surveyBlock rawdata fileSize uid gid) s

section Steps
variable {rawdata fileSize uid gid} {i j : Nat} {s : Survey}

theorem surveySlot_of_found (found : isInodeExtract (inodeOffset i j) rawdata uid gid = true) :
    surveySlot rawdata fileSize uid gid i s j = s.fclose (extractFile (inodeOffset i j) rawdata
      ⟨s.files (s.fileCount + 1), inodeReads (inodeOffset i j) rawdata uid ++ s.touched⟩ fileSize) := by
  unfold surveySlot
  dsimp only
  generalize inodeOffset i j = offset at found ⊢
  rw [if_pos found]

theorem surveySlot_of_other (other : isInodeExtract (inodeOffset i j) rawdata uid gid = false) :
    surveySlot rawdata fileSize uid gid i s j =
      { s with touched := inodeReads (inodeOffset i j) rawdata uid ++ s.touched } := by
  unfold surveySlot
  dsimp only
  generalize inodeOffset i j = offset at other ⊢
  rw [other, if_neg (by decide)]

theorem surveyBlock_of_empty (empty : blockEmpty (wrap32 (i * 1024)) rawdata = true) :
    surveyBlock rawdata fileSize uid gid s i = (isBlockEmpty (wrap32 (i * 1024)) rawdata s).2 := by
  unfold surveyBlock
  dsimp only
  generalize wrap32 (i * 1024) = offset at empty ⊢
  rw [isBlockEmpty_fst, empty, if_pos rfl]

theorem surveyBlock_of_used (used : blockEmpty (wrap32 (i * 1024)) rawdata = false) :
    surveyBlock rawdata fileSize uid gid s i =
      (List.range 10).foldl (surveySlot rawdata fileSize uid gid i)
        (isBlockEmpty (wrap32 (i * 1024)) rawdata s).2 := by
  unfold surveyBlock
  dsimp only
  generalize wrap32 (i * 1024) = offset at used ⊢
  rw [isBlockEmpty_fst, used, if_neg (by decide)]

/-- What holds after the words of a block are read, and is kept by every slot of a block in use, holds after the block. -/
theorem surveyBlock_induct {P : Survey → Prop} (words : P (isBlockEmpty (wrap32 (i * 1024)) rawdata s).2)
    (slots : blockEmpty (wrap32 (i * 1024)) rawdata = false → ∀ v j, j < 10 → P v →
      P (surveySlot rawdata fileSize uid gid i v j)) : P (surveyBlock rawdata fileSize uid gid s i) := by
  cases empty : blockEmpty (wrap32 (i * 1024)) rawdata with
  | true =>
    rw [surveyBlock_of_empty empty]
    exact words
  | false =>
    rw [surveyBlock_of_used empty]
    exact List.foldlRecOn _ _ words fun v old j slot => slots empty v j (List.mem_range.mp slot) old

end Steps

end Walk

/-- The walk of the `-extract` branch of `main`, for an output directory whose
numbered files hold `files` and for any contents of the fresh bitmap. -/
def mainExtract (drive : Drive) (uid gid : Int) (bitmap : Bytes) (files : Nat → List UInt8) : Survey :=
  walkInodesExtract drive.rawdata drive.fileSize uid gid ⟨bitmap, 0, files, []⟩

/-- The offsets at which the walk takes an inode for one of the files wanted. -/
def Drive.candidates (drive : Drive) (uid gid : Int) : List Int :=
  (List.range drive.maxBlock.toNat).flatMap fun i : Nat =>
    if blockEmpty (wrap32 (i * 1024)) drive.rawdata then []
    else ((List.range 10).map (inodeOffset i)).filter fun offset => isInodeExtract offset drive.rawdata uid gid

section Levels
variable (rawdata : Bytes) (maxBlock size : Int)

/-- The extractor of a pointer `k` levels above the data: for 1, 2 and 3 the
three `extract_walk_...` functions. -/
def extractLevel : Nat → Int → Extraction → Extraction
  | 0 => extractBlock rawdata size
  | k + 1 => fun blockNo => extractEntries (extractLevel k) rawdata blockNo maxBlock 256

/-- The pointers of an array of the inode, up to the first one out of range. -/
def accepted (blocks : Nat → Int) (count : Nat) : List Int :=
  ((List.range count).map blocks).takeWhile fun b => !outOfRange maxBlock b

/-- The block numbers met from a pointer `k` levels above the data that pass a range check. -/
abbrev descend (k : Nat) (b : Int) : List Int := reach (readEntries rawdata) (outOfRange maxBlock) 256 k b

def acceptedSlot (k : Nat) (b : Int) : List Int := if outOfRange maxBlock b then [] else descend rawdata maxBlock k b

/-- Every block number that passes a range check while `extract_file` works on an inode. -/
def followed (ip : Inode) : List Int :=
  accepted maxBlock ip.dblocks 12 ++
    if (accepted maxBlock ip.dblocks 12).length < 12 then [] else
      (accepted maxBlock ip.iblocks 3).flatMap (descend rawdata maxBlock 1) ++
        if (accepted maxBlock ip.iblocks 3).length < 3 then [] else
          acceptedSlot rawdata maxBlock 2 ip.i2block ++ acceptedSlot rawdata maxBlock 3 ip.i3block

end Levels

section Loops
variable {rawdata : Bytes} {maxBlock size : Int} {P : Extraction → Prop}

/-- The read of entry `i` of a pointer block. -/
def Extraction.readEntry (s : Extraction) (b : Int) (i : Nat) : Extraction :=
  { s with touched := (wrap32 (wrap32 (b * 1024) + 4 * i), 4) :: s.touched }

/-- `P` survives what the extractor does at block `b`: reading an entry of it, or copying it. -/
structure KeptAt (rawdata : Bytes) (size : Int) (P : Extraction → Prop) (b : Int) : Prop where
  entry : ∀ i < 256, ∀ s, P s → P (s.readEntry b i)
  data : ∀ s, P s → P (extractBlock rawdata size b s)

theorem extractEntries_keeps {visit : Int → Extraction → Extraction} {blockNo : Int}
    (entry : ∀ i < 256, ∀ s, P s → P (s.readEntry blockNo i)) (left : Nat) (bound : left ≤ 256) :
    ∀ s, (∀ b ∈ ((List.range' (256 - left) left).map (readEntries rawdata blockNo)).takeWhile
        (fun p => !outOfRange maxBlock p), ∀ s, P s → P (visit b s)) →
      P s → P (extractEntries visit rawdata blockNo maxBlock left s) := by
  induction left with
  | zero => exact fun s _ holds => holds
  | succ left ih =>
    intro s visits holds
    have value : readEntries rawdata blockNo (256 - (left + 1)) = readEntry rawdata blockNo (256 - (left + 1)) :=
      if_pos (by omega)
    have advance : 256 - (left + 1) + 1 = 256 - left := by omega
    have read := entry (256 - (left + 1)) (by omega) s holds
    rw [List.range'_succ, List.map_cons, List.takeWhile_cons, value, advance] at visits
    unfold extractEntries
    by_cases out : outOfRange maxBlock (readEntry rawdata blockNo (256 - (left + 1)))
    · rw [if_pos out]
      exact read
    · simp only [out, Bool.not_false, if_true] at visits
      rw [if_neg out]
      exact ih (by omega) _ (fun b member => visits b (List.mem_cons_of_mem _ member))
        (visits _ (List.mem_cons_self ..) _ read)

/-- Extracting from a pointer does nothing but read and copy the blocks it descends to. -/
theorem extractLevel_keeps (k : Nat) : ∀ b, (∀ c ∈ descend rawdata maxBlock k b, KeptAt rawdata size P c) →
    ∀ s, P s → P (extractLevel rawdata maxBlock size k b s) := by
  induction k with
  | zero => exact fun b kept => (kept b (List.mem_cons_self ..)).data
  | succ k ih =>
    intro b kept s holds
    have pointer : ∀ c ∈ pointers (readEntries rawdata) (outOfRange maxBlock) 256 b, ∀ s, P s →
        P (extractLevel rawdata maxBlock size k c s) := fun c member =>
      ih c fun d below => kept d (List.mem_cons_of_mem _ (List.mem_flatMap.mpr ⟨c, member, below⟩))
    have walk := @extractEntries_keeps rawdata maxBlock P (extractLevel rawdata maxBlock size k) b
      (kept b (List.mem_cons_self ..)).entry 256 le_rfl s
    rw [Nat.sub_self, ← List.range_eq_range'] at walk
    exact walk pointer holds

/-- A loop over an array of the inode visits the pointers up to the first one
out of range, and tells whether that was all of them. -/
theorem extractSlots_eq (blocks : Nat → Int) (visit : Int → Extraction → Extraction) (count : Nat) (s : Extraction) :
    extractSlots maxBlock blocks visit count count s =
      (decide (count ≤ (accepted maxBlock blocks count).length),
        (accepted maxBlock blocks count).foldl (fun s b => visit b s) s) := by
  have part : ∀ left ≤ count, ∀ s, extractSlots maxBlock blocks visit count left s =
      (decide (left ≤ (((List.range' (count - left) left).map blocks).takeWhile (!outOfRange maxBlock ·)).length),
        (((List.range' (count - left) left).map blocks).takeWhile (!outOfRange maxBlock ·)).foldl
          (fun s b => visit b s) s) := by
    intro left
    induction left with
    | zero => exact fun _ s => rfl
    | succ left ih =>
      intro bound s
      have advance : count - (left + 1) + 1 = count - left := by omega
      rw [List.range'_succ, List.map_cons, List.takeWhile_cons, advance]
      unfold extractSlots
      by_cases out : outOfRange maxBlock (blocks (count - (left + 1)))
      · simp [out]
      · simp [out, ih (by omega)]
  have whole := part count le_rfl s
  rwa [Nat.sub_self, ← List.range_eq_range'] at whole

/-- The three stages of `extract_file`. -/
theorem extractInode_eq (ip : Inode) (s : Extraction) : extractInode rawdata maxBlock size ip s =
    let direct := (accepted maxBlock ip.dblocks 12).foldl (fun s b => extractBlock rawdata size b s) s
    if (accepted maxBlock ip.dblocks 12).length < 12 then direct else
      let single := (accepted maxBlock ip.iblocks 3).foldl
          (fun s b => extractLevel rawdata maxBlock size 1 b s) direct
      if (accepted maxBlock ip.iblocks 3).length < 3 then single else
        extractSlot maxBlock (extractLevel rawdata maxBlock size 3) ip.i3block
          (extractSlot maxBlock (extractLevel rawdata maxBlock size 2) ip.i2block single) := by
  unfold extractInode
  rw [extractSlots_eq]
  by_cases twelve : (accepted maxBlock ip.dblocks 12).length < 12
  · simp only [if_pos twelve, decide_eq_false (not_le.mpr twelve)]
  · simp only [if_neg twelve, decide_eq_true (not_lt.mp twelve)]
    rw [extractSlots_eq]
    by_cases three : (accepted maxBlock ip.iblocks 3).length < 3
    · simp only [if_pos three, decide_eq_false (not_le.mpr three)]
      rfl
    · simp only [if_neg three, decide_eq_true (not_lt.mp three)]
      rfl

theorem extractSlot_keeps {k : Nat} {b : Int}
    (kept : ∀ c ∈ acceptedSlot rawdata maxBlock k b, KeptAt rawdata size P c) (s : Extraction) (holds : P s) :
    P (extractSlot maxBlock (extractLevel rawdata maxBlock size k) b s) := by
  unfold extractSlot
  by_cases out : outOfRange maxBlock b
  · rwa [if_pos out]
  · rw [if_neg out]
    rw [acceptedSlot, if_neg out] at kept
    exact extractLevel_keeps k b kept s holds

/-- What holds once the direct blocks are copied and survives the work on the
blocks followed holds when `extract_file` returns. -/
theorem extractInode_after {ip : Inode} (kept : ∀ b ∈ followed rawdata maxBlock ip, KeptAt rawdata size P b)
    {s : Extraction} (direct : P
      ((accepted maxBlock ip.dblocks 12).foldl (fun s b => extractBlock rawdata size b s) s)) :
    P (extractInode rawdata maxBlock size ip s) := by
  rw [extractInode_eq]
  by_cases twelve : (accepted maxBlock ip.dblocks 12).length < 12
  · simpa only [if_pos twelve] using direct
  rw [followed, if_neg twelve] at kept
  simp only [if_neg twelve]
  have single : P ((accepted maxBlock ip.iblocks 3).foldl (fun s b => extractLevel rawdata maxBlock size 1 b s)
      ((accepted maxBlock ip.dblocks 12).foldl (fun s b => extractBlock rawdata size b s) s)) :=
    List.foldlRecOn _ _ direct fun s holds b member => extractLevel_keeps 1 b (fun c below =>
      kept c (List.mem_append_right _ (List.mem_append_left _ (List.mem_flatMap.mpr ⟨b, member, below⟩)))) s holds
  by_cases three : (accepted maxBlock ip.iblocks 3).length < 3
  · simpa only [if_pos three] using single
  rw [if_neg three] at kept
  simp only [if_neg three]
  have double := extractSlot_keeps (fun c member => kept c (List.mem_append_right _
    (List.mem_append_right _ (List.mem_append_left _ member)))) _ single
  exact extractSlot_keeps (fun c member => kept c (List.mem_append_right _
    (List.mem_append_right _ (List.mem_append_right _ member)))) _ double

/-- `extract_file` keeps whatever its work on the blocks it follows keeps. -/
theorem extractInode_keeps {ip : Inode} (kept : ∀ b ∈ followed rawdata maxBlock ip, KeptAt rawdata size P b)
    (s : Extraction) (holds : P s) : P (extractInode rawdata maxBlock size ip s) :=
  extractInode_after kept <| List.foldlRecOn _ _ holds fun s holds b member =>
    (kept b (List.mem_append_left _ member)).data s holds

end Loops

end OsLabs.Inodes
