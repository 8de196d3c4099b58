import OsLabs.Inodes.WalkExtract

namespace OsLabs.Inodes
open ByteMemory PointerTree

/-- Every byte of a read lies in an image of the given length. -/
def Within (length : Nat) (read : Int × Nat) : Prop := ∀ k : Nat, k < read.2 → 0 ≤ read.1 + k ∧ read.1 + k < length

def BlockWithin (length : Nat) (b : Int) : Prop := 0 ≤ b ∧ b * 1024 + 1024 ≤ length

theorem Within.of_block {length len : Nat} {b pos : Int} (block : BlockWithin length b) (lower : b * 1024 ≤ pos)
    (upper : pos + len ≤ b * 1024 + 1024) : Within length (pos, len) := by
  intro k below
  obtain ⟨nonneg, fits⟩ := block
  dsimp only at below ⊢
  omega

/-- A loop that visits `a` and then keeps `P` ends with `P`. -/
theorem foldl_visits {A S : Type} {P : S → Prop} {op : S → A → S} {l : List A} {a : A} (member : a ∈ l)
    (visit : ∀ s, P (op s a)) (keep : ∀ s, P s → ∀ c ∈ l, P (op s c)) (s : S) : P (l.foldl op s) := by
  obtain ⟨before, after, rfl⟩ := List.append_of_mem member
  rw [List.foldl_append, List.foldl_cons]
  exact List.foldlRecOn after op (visit _) fun s holds c later => keep s holds c (by simp [later])

/-- Nothing that was read is forgotten. -/
theorem keptAt_read (rawdata : Bytes) (size : Int) (read : Int × Nat) (b : Int) :
    KeptAt rawdata size (fun s => read ∈ s.touched) b where
  entry _ _ _ member := List.mem_cons_of_mem _ member
  data s member := by
    unfold extractBlock
    split <;> exact List.mem_cons_of_mem _ member

section Bounds
variable {drive : Drive}

theorem outOfRange_false {maxBlock b : Int} : outOfRange maxBlock b = false ↔ 0 ≤ b ∧ b ≤ maxBlock := by
  simp [outOfRange]

theorem Drive.fileSize_eq (small : drive.length < 2 ^ 31) : drive.fileSize = drive.length :=
  wrap32_of_range (by omega) (by omega)

theorem Drive.maxBlock_eq (small : drive.length < 2 ^ 31) : drive.maxBlock = drive.length / 1024 := by
  rw [Drive.maxBlock, drive.fileSize_eq small, Int.tdiv_eq_ediv_of_nonneg (Int.natCast_nonneg _)]

/-- The largest offset of a block in range is an `int`. -/
theorem Drive.maxBlock_lt (drive : Drive) : drive.maxBlock < 2 ^ 21 := by
  have size : drive.fileSize < 2 ^ 31 := (wrap32_range _).2
  have bound := Int.tdiv_mul_le drive.fileSize (show (1024 : Int) ≠ 0 by decide)
  unfold Drive.maxBlock
  split at bound <;> omega

/-- A block number in range denotes a whole block of the image, unless it is the
first number past the last block. -/
theorem Drive.blockWithin_iff {b : Int} (range : outOfRange drive.maxBlock b = false) :
    BlockWithin drive.length b ↔ (drive.length < 2 ^ 31 → b ≠ drive.length / 1024) := by
  obtain ⟨lower, upper⟩ := outOfRange_false.mp range
  have bound := drive.maxBlock_lt
  unfold BlockWithin
  by_cases small : drive.length < 2 ^ 31
  · rw [drive.maxBlock_eq small] at upper
    omega
  · omega

theorem Drive.walked_within {i : Nat} (walked : i < drive.maxBlock.toNat) : BlockWithin drive.length i := by
  have bound := drive.maxBlock_lt
  unfold BlockWithin
  by_cases small : drive.length < 2 ^ 31
  · rw [drive.maxBlock_eq small] at walked
    omega
  · omega

/-- The work on a block that lies inside the image reads nothing else, unless the
size of the inode makes the number of bytes to copy negative. -/
theorem keptAt_within {size b : Int} (sound : 0 ≤ size ∨ size.tmod 1024 = 0)
    (range : outOfRange drive.maxBlock b = false) (block : BlockWithin drive.length b) :
    KeptAt drive.rawdata size (fun s => ∀ read ∈ s.touched, Within drive.length read) b := by
  obtain ⟨lower, upper⟩ := outOfRange_false.mp range
  have bound := drive.maxBlock_lt
  have start : wrap32 (b * 1024) = b * 1024 := wrap32_of_range (by omega) (by omega)
  constructor
  · intro i below s inside read member
    rcases List.mem_cons.mp member with rfl | old
    · rw [start, wrap32_of_range (by omega) (by omega)]
      exact Within.of_block block (by omega) (by push_cast; omega)
    · exact inside read old
  · intro s inside read member
    have copied : ∀ count : Int, 0 ≤ count → count ≤ 1024 → read ∈ (fwrite drive.rawdata (b * 1024) count s).touched →
        Within drive.length read := by
      intro count nonneg most member
      rcases List.mem_cons.mp member with rfl | old
      · exact Within.of_block block le_rfl (by omega)
      · exact inside read old
    unfold extractBlock at member
    rw [start] at member
    dsimp only at member
    split at member
    · have most := Int.tmod_lt_of_pos size (show (0 : Int) < 1024 by decide)
      have nonneg : 0 ≤ size.tmod 1024 := by
        rcases sound with positive | whole
        · exact Int.tmod_nonneg _ positive
        · exact whole.ge
      exact copied _ nonneg most.le member
    · exact copied 1024 (by decide) le_rfl member

/-- The blocks followed have all passed a range check. -/
theorem followed_range {rawdata : Bytes} {maxBlock b : Int} {ip : Inode} (member : b ∈ followed rawdata maxBlock ip) :
    outOfRange maxBlock b = false := by
  have array : ∀ (blocks : Nat → Int) (count : Nat), ∀ c ∈ accepted maxBlock blocks count,
      outOfRange maxBlock c = false := fun _ _ _ inside => by simpa using List.mem_takeWhile_imp inside
  have slot : ∀ (k : Nat) (c : Int), b ∈ acceptedSlot rawdata maxBlock k c → outOfRange maxBlock b = false := by
    intro k c inside
    unfold acceptedSlot at inside
    by_cases out : outOfRange maxBlock c
    · simp [out] at inside
    · rw [if_neg out] at inside
      exact reach_pass (by simpa using out) inside
  unfold followed at member
  rcases List.mem_append.mp member with direct | rest
  · exact array _ _ b direct
  split at rest
  · simp at rest
  rcases List.mem_append.mp rest with single | rest
  · obtain ⟨c, inArray, below⟩ := List.mem_flatMap.mp single
    exact reach_pass (array _ _ c inArray) below
  split at rest
  · simp at rest
  rcases List.mem_append.mp rest with double | triple
  · exact slot 2 _ double
  · exact slot 3 _ triple

/-- An inode whose first pointer is out of range leads nowhere. -/
theorem followed_nil {rawdata : Bytes} {maxBlock : Int} {ip : Inode}
    (out : outOfRange maxBlock (ip.dblocks 0) = true) :
    followed rawdata maxBlock ip = [] := by
  have none : accepted maxBlock ip.dblocks 12 = [] := by
    rw [accepted, List.range_succ_eq_map, List.map_cons, List.takeWhile_cons]
    simp [out]
  simp [followed, none]

theorem dblocks_accepted {maxBlock : Int} {ip : Inode} (range : outOfRange maxBlock (ip.dblocks 0) = false) :
    ip.dblocks 0 ∈ accepted maxBlock ip.dblocks 12 := by
  rw [accepted, List.range_succ_eq_map, List.map_cons, List.takeWhile_cons]
  simp [range]

theorem mem_candidates {uid gid offset : Int} : offset ∈ drive.candidates uid gid ↔ ∃ i < drive.maxBlock.toNat,
    blockEmpty (wrap32 (i * 1024)) drive.rawdata = false ∧ ∃ j < 10, inodeOffset i j = offset ∧
      isInodeExtract offset drive.rawdata uid gid = true := by
  unfold Drive.candidates
  simp only [List.mem_flatMap, List.mem_range]
  refine exists_congr fun i => and_congr_right fun _ => ?_
  by_cases empty : blockEmpty (wrap32 (i * 1024)) drive.rawdata = true
  · simp [empty]
  · simp only [empty, Bool.false_eq_true, if_false, List.mem_filter, List.mem_map, List.mem_range, true_and]
    exact ⟨fun ⟨⟨j, below, place⟩, found⟩ => ⟨j, below, place, found⟩,
      fun ⟨j, below, place, found⟩ => ⟨⟨j, below, place⟩, found⟩⟩

end Bounds

/-- Every byte of `rawdata` that an extraction reads lies in the image, and so
does every block whose number passes a range check. -/
structure StaysInside (drive : Drive) (uid gid : Int) (bitmap : Bytes) (files : Nat → List UInt8) : Prop where
  reads : ∀ read ∈ (mainExtract drive uid gid bitmap files).touched, Within drive.length read
  blocks : ∀ offset ∈ drive.candidates uid gid,
    ∀ b ∈ followed drive.rawdata drive.maxBlock (extractInodeFromData offset drive.rawdata), BlockWithin drive.length b

/-- An inode no pointer of which names the block just past the image, and whose
size is not negative with a remainder, unless nothing is copied for it. -/
structure Harmless (drive : Drive) (ip : Inode) : Prop where
  boundary : drive.length < 2 ^ 31 → ∀ b ∈ followed drive.rawdata drive.maxBlock ip, b ≠ drive.length / 1024
  size : 0 ≤ ip.size ∨ ip.size.tmod 1024 = 0 ∨ outOfRange drive.maxBlock (ip.dblocks 0) = true

section Reads
variable {drive : Drive} {uid gid : Int} {bitmap : Bytes} {files : Nat → List UInt8}

theorem word_within {i k : Nat} (walked : i < drive.maxBlock.toNat) (word : k < 64) :
    Within drive.length (wrap32 (wrap32 (i * 1024) + 4 * k), 4) := by
  have limit := drive.maxBlock_lt
  have block := drive.walked_within walked
  rw [wrap32_of_range (x := i * 1024) (by omega) (by omega), wrap32_of_range (by omega) (by omega)]
  exact Within.of_block block (by omega) (by push_cast; omega)

theorem emptyWords_reads {rawdata : Bytes} {offset : Int} {P : Int × Nat → Prop}
    (word : ∀ k : Nat, k < 64 → P (wrap32 (offset + 4 * k), 4)) (left : Nat) (bound : left ≤ 64) :
    ∀ read ∈ (emptyWords offset rawdata left).2, P read := by
  induction left with
  | zero => simp [emptyWords]
  | succ left ih =>
    have here := word (64 - (left + 1)) (by omega)
    intro read member
    rw [emptyWords_succ rfl] at member
    split at member
    · rw [List.mem_singleton.mp member]
      exact here
    · rcases List.mem_append.mp member with later | equal
      · exact ih (by omega) read later
      · rw [List.mem_singleton.mp equal]
        exact here

theorem isBlockEmpty_within {i : Nat} (walked : i < drive.maxBlock.toNat) {s : Survey}
    (inside : ∀ read ∈ s.touched, Within drive.length read) :
    ∀ read ∈ (isBlockEmpty (wrap32 (i * 1024)) drive.rawdata s).2.touched, Within drive.length read := by
  have word := fun k small => @word_within drive i k walked small
  generalize wrap32 (i * 1024) = offset at word ⊢
  intro read member
  rcases List.mem_append.mp member with new | old
  · exact emptyWords_reads word 64 le_rfl read new
  · exact inside read old

theorem inodeOffset_within {i j : Nat} (walked : i < drive.maxBlock.toNat) (slot : j < 10) :
    ∀ (start : Int) (len : Nat), 0 ≤ start → start + len ≤ 100 →
      Within drive.length (inodeOffset i j + start, len) := by
  intro start len lower upper
  have limit := drive.maxBlock_lt
  rw [inodeOffset, wrap32_of_range (x := i * 1024) (by omega) (by omega), wrap32_of_range (by omega) (by omega)]
  exact Within.of_block (drive.walked_within walked) (by omega) (by omega)

theorem inodeReads_within {i j : Nat} (walked : i < drive.maxBlock.toNat) (slot : j < 10) :
    ∀ read ∈ inodeReads (inodeOffset i j) drive.rawdata uid, Within drive.length read := by
  have user := inodeOffset_within walked slot 8 4 (by decide) (by decide)
  have group := inodeOffset_within walked slot 12 4 (by decide) (by decide)
  unfold inodeReads
  split <;> simp [user, group]

/-- Extracting a harmless inode reads bytes of the image only. -/
theorem extractFile_within {i j : Nat} (walked : i < drive.maxBlock.toNat) (slot : j < 10)
    (harmless : Harmless drive (extractInodeFromData (inodeOffset i j) drive.rawdata)) {s : Extraction}
    (inside : ∀ read ∈ s.touched, Within drive.length read) :
    ∀ read ∈ (extractFile (inodeOffset i j) drive.rawdata s drive.fileSize).touched, Within drive.length read := by
  have header := inodeOffset_within walked slot 0 100 le_rfl (by decide)
  rw [Int.add_zero] at header
  refine extractInode_keeps (P := fun s => ∀ read ∈ s.touched, Within drive.length read) (fun b member => ?_) _ ?_
  · have range := followed_range member
    refine keptAt_within ?_ range ((drive.blockWithin_iff range).mpr fun small => harmless.boundary small b member)
    rcases harmless.size with positive | whole | out
    · exact .inl positive
    · exact .inr whole
    · rw [Drive.maxBlock] at out
      rw [followed_nil out] at member
      simp at member
  · intro read member
    rcases List.mem_cons.mp member with rfl | old
    · exact header
    · exact inside read old

theorem surveyBlock_within {i : Nat} (walked : i < drive.maxBlock.toNat)
    (harmless : ∀ offset ∈ drive.candidates uid gid, Harmless drive (extractInodeFromData offset drive.rawdata))
    {s : Survey} (inside : ∀ read ∈ s.touched, Within drive.length read) :
    ∀ read ∈ (surveyBlock drive.rawdata drive.fileSize uid gid s i).touched, Within drive.length read := by
  refine surveyBlock_induct (P := fun s => ∀ read ∈ s.touched, Within drive.length read)
    (isBlockEmpty_within walked inside)
    fun empty s j slot inside => ?_
  have identity : ∀ read ∈ inodeReads (inodeOffset i j) drive.rawdata uid ++ s.touched, Within drive.length read := by
    intro read member
    rcases List.mem_append.mp member with new | old
    · exact inodeReads_within walked slot read new
    · exact inside read old
  cases found : isInodeExtract (inodeOffset i j) drive.rawdata uid gid with
  | false =>
    rw [surveySlot_of_other found]
    exact identity
  | true =>
    have candidate := mem_candidates.mpr ⟨i, walked, empty, j, slot, rfl, found⟩
    rw [surveySlot_of_found found, Survey.fclose_touched]
    exact @extractFile_within drive i j walked slot (harmless _ candidate) ⟨s.files (s.fileCount + 1), _⟩ identity

theorem mainExtract_within
    (harmless : ∀ offset ∈ drive.candidates uid gid, Harmless drive (extractInodeFromData offset drive.rawdata)) :
    ∀ read ∈ (mainExtract drive uid gid bitmap files).touched, Within drive.length read :=
  List.foldlRecOn (motive := fun s : Survey => ∀ read ∈ s.touched, Within drive.length read) _ _
    (fun read member => by simp at member)
    fun _ inside _ walked => surveyBlock_within (List.mem_range.mp walked) harmless inside

theorem extractFile_keeps {offset : Int} {read : Int × Nat} {s : Extraction} (member : read ∈ s.touched) :
    read ∈ (extractFile offset drive.rawdata s drive.fileSize).touched :=
  extractInode_keeps (P := fun s => read ∈ s.touched) (fun b _ => keptAt_read _ _ read b) _
    (List.mem_cons_of_mem _ member)

theorem surveySlot_keeps {i j : Nat} {read : Int × Nat} {s : Survey} (member : read ∈ s.touched) :
    read ∈ (surveySlot drive.rawdata drive.fileSize uid gid i s j).touched := by
  cases found : isInodeExtract (inodeOffset i j) drive.rawdata uid gid with
  | false =>
    rw [surveySlot_of_other found]
    exact List.mem_append_right _ member
  | true =>
    rw [surveySlot_of_found found, Survey.fclose_touched]
    exact @extractFile_keeps drive _ read ⟨s.files (s.fileCount + 1), _⟩ (List.mem_append_right _ member)

theorem surveyBlock_keeps {i : Nat} {read : Int × Nat} {s : Survey} (member : read ∈ s.touched) :
    read ∈ (surveyBlock drive.rawdata drive.fileSize uid gid s i).touched := by
  have words : read ∈ (isBlockEmpty (wrap32 (i * 1024)) drive.rawdata s).2.touched := List.mem_append_right _ member
  exact surveyBlock_induct (P := fun s => read ∈ s.touched) words fun _ _ _ _ old => surveySlot_keeps old

/-- The first block of an inode of negative size is always written in part. -/
theorem extractBlock_negative {size b : Int} (rawdata : Bytes) (negative : size < 0) (s : Extraction) :
    (wrap32 (b * 1024), (size.tmod 1024 % 2 ^ 64).toNat) ∈ (extractBlock rawdata size b s).touched := by
  have past : s.ftell + 1024 > size := by
    unfold Extraction.ftell
    omega
  simp only [extractBlock, if_pos past]
  exact List.mem_cons_self ..

theorem extractFile_negative {offset : Int} {ip : Inode} (atOffset : extractInodeFromData offset drive.rawdata = ip)
    (negative : ip.size < 0) (range : outOfRange drive.maxBlock (ip.dblocks 0) = false) (s : Extraction) :
    (wrap32 (ip.dblocks 0 * 1024), (ip.size.tmod 1024 % 2 ^ 64).toNat) ∈
      (extractFile offset drive.rawdata s drive.fileSize).touched := by
  unfold extractFile
  rw [atOffset]
  exact extractInode_after (P := fun s => _ ∈ s.touched) (fun b _ => keptAt_read _ _ _ b)
    (foldl_visits (dblocks_accepted range) (fun s => extractBlock_negative _ negative s)
      (fun s old b _ => (keptAt_read _ _ _ b).data s old) _)

/-- An extraction reads what any of its candidates makes `extract_file` read. -/
theorem mainExtract_reads {offset : Int} (candidate : offset ∈ drive.candidates uid gid) {read : Int × Nat}
    (reads : ∀ s, read ∈ (extractFile offset drive.rawdata s drive.fileSize).touched) :
    read ∈ (mainExtract drive uid gid bitmap files).touched := by
  obtain ⟨i, walked, used, j, slot, rfl, found⟩ := mem_candidates.mp candidate
  have inSlot : ∀ s, read ∈ (surveySlot drive.rawdata drive.fileSize uid gid i s j).touched := by
    intro s
    rw [surveySlot_of_found found, Survey.fclose_touched]
    exact reads _
  have inBlock : ∀ s, read ∈ (surveyBlock drive.rawdata drive.fileSize uid gid s i).touched := by
    intro s
    rw [surveyBlock_of_used used]
    exact foldl_visits (P := fun s : Survey => read ∈ s.touched) (List.mem_range.mpr slot) inSlot
      (fun _ old _ _ => surveySlot_keeps old) _
  rw [mainExtract, walkInodesExtract]
  exact foldl_visits (P := fun s : Survey => read ∈ s.touched) (List.mem_range.mpr walked) inBlock
    (fun _ old _ _ => surveyBlock_keeps old) _

theorem negative_leaves {size pos : Int} (negative : size < 0) (remainder : size.tmod 1024 ≠ 0) (lower : 0 ≤ pos) :
    ¬ Within drive.length (pos, (size.tmod 1024 % 2 ^ 64).toNat) := by
  have bound := drive.length_lt
  have above := Int.lt_tmod_of_pos size (show (0 : Int) < 1024 by decide)
  have below : 0 ≤ (-size).tmod 1024 := Int.tmod_nonneg _ (by omega)
  rw [Int.neg_tmod] at below
  have count : 2 ^ 63 < (size.tmod 1024 % 2 ^ 64).toNat := by omega
  intro inside
  have last := (inside (2 ^ 63) count).2
  dsimp only at last
  push_cast at last
  omega

end Reads

/-- Extraction stays inside the image exactly when every inode it takes for one
of the files wanted is harmless. -/
theorem staysInside_iff (drive : Drive) (uid gid : Int) (bitmap : Bytes) (files : Nat → List UInt8) :
    StaysInside drive uid gid bitmap files ↔
      ∀ offset ∈ drive.candidates uid gid, Harmless drive (extractInodeFromData offset drive.rawdata) := by
  constructor
  · intro inside offset candidate
    constructor
    · intro small b member
      exact (drive.blockWithin_iff (followed_range member)).mp (inside.blocks offset candidate b member) small
    · by_contra unsound
      simp only [not_or, not_le, Bool.not_eq_true] at unsound
      obtain ⟨negative, remainder, range⟩ := unsound
      obtain ⟨lower, upper⟩ := outOfRange_false.mp range
      have limit := drive.maxBlock_lt
      have read := extractFile_negative rfl negative range
      refine negative_leaves negative remainder ?_ (inside.reads _ (mainExtract_reads candidate read))
      rw [wrap32_of_range (by omega) (by omega)]
      omega
  · intro harmless
    refine ⟨mainExtract_within harmless, fun offset candidate b member => ?_⟩
    exact (drive.blockWithin_iff (followed_range member)).mpr fun small =>
      (harmless offset candidate).boundary small b member

/-- An image of one block, with an inode of user 1 whose first pointer is block 1. -/
def pastEnd : Drive where
  rawdata := bytesOfWords (Inode.word
    ⟨0, 1, 1, 1, 2048, 0, 0, 0, fun k => if k = 0 then 1 else -1, fun _ => -1, -1, 0⟩)
  length := 1024
  length_lt := by decide

/-- The 1024 bytes behind that image are copied into the extracted file. -/
theorem pastEnd_read :
    (1024, 1024) ∈ (mainExtract pastEnd 1 1 (fun _ => 0) fun _ => []).touched ∧
      ¬ StaysInside pastEnd 1 1 (fun _ => 0) fun _ => [] := by
  have read : (1024, 1024) ∈ (mainExtract pastEnd 1 1 (fun _ => 0) fun _ => []).touched := by decide +kernel
  refine ⟨read, fun inside => ?_⟩
  have last := (inside.reads _ read 0 (by decide)).2
  simp [pastEnd] at last

end OsLabs.Inodes
