import OsLabs.Lib.TreeDecode
import OsLabs.Inodes.SessionRoom

namespace OsLabs.Inodes
open ByteMemory PointerTree

section Decoding
variable (rawdata : Bytes) (ip : Inode)

def blockBytes (b : Int) : List UInt8 := (List.range 1024).map fun j : Nat => rawdata (b * 1024 + j)

/-- The blocks at the ends of all pointers of an inode, in index order. -/
def dataBlocks : List Int :=
  (List.range 12).map ip.dblocks ++ (List.range 3).flatMap (fun j => below (entry rawdata) 256 1 (ip.iblocks j)) ++
    below (entry rawdata) 256 2 ip.i2block ++ below (entry rawdata) 256 3 ip.i3block

/-- The first `q` of them with the pointer blocks on the way to them. -/
def usedBlocks (q : Nat) : List Int :=
  (List.range 12).flatMap (fun j => used (entry rawdata) 256 0 (q - j) (ip.dblocks j)) ++
    (List.range 3).flatMap (fun j => used (entry rawdata) 256 1 (q - (12 + 256 * j)) (ip.iblocks j)) ++
    used (entry rawdata) 256 2 (q - 780) ip.i2block ++ used (entry rawdata) 256 3 (q - 66316) ip.i3block

/-- The file that an inode describes: the first `⌈size / 1024⌉` data blocks, cut off at `size` bytes. -/
def fileOf : List UInt8 :=
  (((dataBlocks rawdata ip).take ((ip.size.toNat + 1023) / 1024)).flatMap (blockBytes rawdata)).take ip.size.toNat

end Decoding

section Contents
variable {file : List UInt8} {rawdata : Bytes}

/-- Blocks that hold a file, put behind one another, are the file. -/
theorem flatMap_blockBytes (bs : List Int) : ∀ start : Nat, Carries file rawdata start bs →
    file.length ≤ start + 1024 * bs.length →
    (bs.flatMap (blockBytes rawdata)).take (file.length - start) = file.drop start := by
  induction bs with
  | nil =>
    intro start _ cover
    rw [List.flatMap_nil, List.take_nil, List.drop_eq_nil_of_le (by simpa using cover)]
  | cons b bs ih =>
    intro start carries cover
    rw [List.length_cons] at cover
    have size : (blockBytes rawdata b).length = 1024 := by simp [blockBytes]
    have chunk : (blockBytes rawdata b).take (file.length - start) = (file.drop start).take 1024 := by
      refine List.ext_getElem (by simp [size]; omega) fun j left right => ?_
      simp only [List.length_take, size, lt_min_iff] at left
      have value := carries 0 b rfl j left.2 (by omega)
      rw [Nat.mul_zero, Nat.add_zero, List.getD_eq_getElem?_getD, List.getElem?_eq_getElem (by omega),
        Option.getD_some] at value
      simp only [blockBytes, List.getElem_take, List.getElem_map, List.getElem_range, List.getElem_drop, value]
    have onward := ih (start + 1024) carries.tail (by omega)
    rw [List.flatMap_cons, List.take_append, chunk, size, Nat.sub_sub, onward, ← List.drop_drop,
      List.take_append_drop]

theorem Carries.take {bs : List Int} (carries : Carries file rawdata 0 bs) (q : Nat) :
    Carries file rawdata 0 (bs.take q) := by
  intro k b found
  rw [List.getElem?_take] at found
  split at found
  · exact carries k b found
  · cases found

/-- An inode whose first data blocks hold the file describes it. -/
theorem fileOf_carries {ip : Inode} {bs : List Int} (carries : Carries file rawdata 0 bs)
    (cover : file.length ≤ 1024 * bs.length)
    (size : ip.size = file.length)
    (data : (dataBlocks rawdata ip).take ((file.length + 1023) / 1024) = bs.take ((file.length + 1023) / 1024)) :
    fileOf rawdata ip = file := by
  have whole := flatMap_blockBytes _ 0 (carries.take ((file.length + 1023) / 1024)) (by rw [List.length_take]; omega)
  rw [fileOf, size, Int.toNat_natCast, data]
  simpa using whole

end Contents

section Slots
variable {rawdata : Bytes} {subs : List Sub} {pointer : Nat → Int}
  (levels : ∀ j t, subs[j]? = some t → t.1 = slotLevel j) (named : ∀ j t, subs[j]? = some t → pointer j = t.root)
  (held : ∀ t ∈ subs, Held (entry rawdata) t.2) (packed : ∀ t ∈ subs, Packed 256 t.2)
  (front : ∀ t ∈ subs.dropLast, Full 256 t.2)
include levels named held packed front

/-- The data blocks of the file come first among the blocks that the pointers lead to. -/
theorem below_slots (fits : subs.length ≤ 17) : ∃ rest,
    (List.range 17).flatMap (fun j => below (entry rawdata) 256 (slotLevel j) (pointer j)) = dataOf subs ++ rest := by
  have each : ∀ (j : Nat) (t : Sub), subs[j]? = some t → ∃ rest, below (entry rawdata) 256 (slotLevel j) (pointer j) =
      t.leaves ++ rest ∧ (Full 256 t.2 → rest = []) := by
    intro j t found
    have member := List.mem_of_getElem? found
    rw [← levels j t found, named j t found]
    exact below_tree (held t member) (packed t member)
  rw [range_split _ fits]
  rcases List.eq_nil_or_concat subs with rfl | ⟨init, last, rfl⟩
  · exact ⟨_, rfl⟩
  · rw [List.concat_eq_append] at *
    have whole : (List.range init.length).flatMap (fun j => below (entry rawdata) 256 (slotLevel j) (pointer j)) =
        dataOf init := by
      refine flatMap_positions fun j t found => ?_
      have here : (init ++ [last])[j]? = some t := by
        rw [List.getElem?_append_left (List.getElem?_eq_some_iff.mp found).1, found]
      obtain ⟨rest, value, closed⟩ := each j t here
      rw [value, closed (front t (by simpa using List.mem_of_getElem? found)), List.append_nil]
    obtain ⟨rest, value, _⟩ := each init.length last (by simp)
    rw [List.length_append, List.length_singleton, List.range_succ, List.flatMap_append,
      List.flatMap_singleton, whole, value]
    generalize (List.range (17 - (init.length + 1))).flatMap _ = tail
    refine ⟨rest ++ tail, ?_⟩
    simp [dataOf]

/-- The blocks used for the whole file are among its blocks, in the same order. -/
theorem used_slots : ((List.range 17).flatMap fun j =>
    used (entry rawdata) 256 (slotLevel j) ((dataOf subs).length - start 256 slotLevel j)
      (pointer j)).Sublist (blocksOf subs) :=
  used_forest subs 17 _ slotLevel pointer (fun t member _ => used_sublist (held t member) (packed t member)) packed
    (fun j t found => ⟨(levels j t found).symm, named j t found⟩) front (.inl rfl)

end Slots

section Inode
variable (rawdata : Bytes) (offset : Int)

theorem extractInodeFromData_size : (extractInodeFromData offset rawdata).size = readInt (offset + 16) rawdata := by
  rw [extractInodeFromData]

theorem slotLevel_direct : ∀ j ∈ List.range 12, slotLevel j = 0 ∧ start 256 slotLevel j = j := by decide

theorem slotLevel_single :
    ∀ j ∈ List.range 3, slotLevel (12 + j) = 1 ∧ start 256 slotLevel (12 + j) = 12 + 256 * j := by
  decide

theorem dataBlocks_slots : dataBlocks rawdata (extractInodeFromData offset rawdata) =
    (List.range 17).flatMap fun j => below (entry rawdata) 256 (slotLevel j) (slotPointer rawdata offset j) := by
  obtain ⟨direct, single, double, triple⟩ := extractInodeFromData_pointers rawdata offset
  have first : (List.range 12).flatMap
      (fun j => below (entry rawdata) 256 (slotLevel j) (slotPointer rawdata offset j)) =
      (List.range 12).map (extractInodeFromData offset rawdata).dblocks := by
    rw [List.map_eq_flatMap]
    refine List.flatMap_congr fun j member => ?_
    rw [(slotLevel_direct j member).1, direct, below]
  have second : (List.range 3).flatMap
      (fun j => below (entry rawdata) 256 (slotLevel (12 + j)) (slotPointer rawdata offset (12 + j))) =
      (List.range 3).flatMap fun j => below (entry rawdata) 256 1 ((extractInodeFromData offset rawdata).iblocks j) :=
    List.flatMap_congr fun j member => by rw [(slotLevel_single j member).1, single]
  rw [range_slots, ← List.range_eq_range', ← List.range_eq_range', first, second, dataBlocks, double, triple,
    List.append_assoc, List.append_assoc]
  rfl

theorem usedBlocks_slots (q : Nat) : usedBlocks rawdata (extractInodeFromData offset rawdata) q =
    (List.range 17).flatMap fun j =>
      used (entry rawdata) 256 (slotLevel j) (q - start 256 slotLevel j) (slotPointer rawdata offset j) := by
  obtain ⟨direct, single, double, triple⟩ := extractInodeFromData_pointers rawdata offset
  have first : (List.range 12).flatMap (fun j =>
      used (entry rawdata) 256 (slotLevel j) (q - start 256 slotLevel j) (slotPointer rawdata offset j)) =
      (List.range 12).flatMap fun j =>
        used (entry rawdata) 256 0 (q - j) ((extractInodeFromData offset rawdata).dblocks j) :=
    List.flatMap_congr fun j member => by rw [(slotLevel_direct j member).1, (slotLevel_direct j member).2, direct]
  have second : (List.range 3).flatMap (fun j =>
      used (entry rawdata) 256 (slotLevel (12 + j)) (q - start 256 slotLevel (12 + j))
        (slotPointer rawdata offset (12 + j))) =
      (List.range 3).flatMap fun j =>
        used (entry rawdata) 256 1 (q - (12 + 256 * j)) ((extractInodeFromData offset rawdata).iblocks j) :=
    List.flatMap_congr fun j member => by rw [(slotLevel_single j member).1, (slotLevel_single j member).2, single]
  have starts : start 256 slotLevel 15 = 780 ∧ start 256 slotLevel 16 = 66316 := by decide
  rw [range_slots, ← List.range_eq_range', ← List.range_eq_range', first, second, starts.1, starts.2,
    usedBlocks, double, triple,
    List.append_assoc, List.append_assoc]
  rfl

/-- As many blocks are used as the file needs. -/
theorem length_usedBlocks (ip : Inode) {s : Nat} (short : s < 2 ^ 31) :
    (usedBlocks rawdata ip (max 1 ((s + 1023) / 1024))).length = need s := by
  have counted : ∀ k q (b : Int), (used (entry rawdata) 256 k q b).length = cost 256 k (min q (256 ^ k)) :=
    fun k => length_used (by decide)
  have first : ∀ q, ((List.range 12).flatMap fun j => used (entry rawdata) 256 0 (q - j)
      (ip.dblocks j)).length = min q 12 := by
    intro q
    have total := length_used_entries (by decide) (counted 0) 12 q ip.dblocks
    simpa [cost] using total
  have second : ∀ q, ((List.range 3).flatMap fun j => used (entry rawdata) 256 1 (q - (12 + 256 * j))
      (ip.iblocks j)).length =
      cost 256 1 (min (q - 12) (3 * 256 ^ 1)) := by
    intro q
    have total := length_used_entries (by decide) (counted 1) 3 (q - 12) ip.iblocks
    simpa only [Nat.sub_sub, pow_one, Nat.mul_comm] using total
  have chunks : ∀ q, max (min 1 12) (min q 12) = min (max 1 q) 12 ∧ q - 12 = max 1 q - 12 := by omega
  rw [← need_eq_cost short _ rfl]
  generalize (s + 1023) / 1024 = q
  rw [(chunks q).1, (chunks q).2]
  generalize max 1 q = q
  have third : q - 12 - 3 * 256 ^ 1 = q - 780 := by rw [Nat.sub_sub, show 12 + 3 * 256 ^ 1 = 780 by decide]
  have fourth : q - 780 - 256 ^ 2 = q - 66316 := by rw [Nat.sub_sub, show 780 + 256 ^ 2 = 66316 by decide]
  rw [usedBlocks, List.length_append, List.length_append, List.length_append, first, second, counted,
    counted, third, fourth,
    Nat.add_zero, Nat.add_assoc, Nat.add_assoc]

end Inode

section Placed
variable {file : List UInt8} {n m d i : Int}

/-- The blocks that a run marks are as many as the file needs. -/
theorem length_marked (reserved : 0 ≤ m) (ordered : m ≤ n) (small : n * 1024 < 2 ^ 31) {heap : Heap} {uid gid : Int}
    {raw bitmap : Bytes} {w : Placing} (run : placeBlocks heap file uid gid m raw bitmap n = .ok w) {bs : List Int}
    (nodup : bs.Nodup) (free : ∀ b ∈ bs, bitmap b = 0) (marked : ∀ b, w.bitmap b = if b ∈ bs then 1 else bitmap b) :
    bs.length = need file.length := by
  have enough := (placeBlocks_ok_iff reserved ordered small).mp ⟨w, run⟩
  have distinct : ((spare n m bitmap).take (need file.length)).Nodup :=
    (spare_increasing.imp fun below => below.ne).sublist (List.take_sublist _ _)
  have same : bs.Perm ((spare n m bitmap).take (need file.length)) := by
    refine (List.perm_ext_iff_of_nodup nodup distinct).mpr fun b => ?_
    have value := placeBlocks_bitmap reserved ordered small run b
    rw [marked b] at value
    constructor
    · intro member
      by_contra other
      rw [if_pos member, if_neg other, free b member] at value
      exact absurd value (by decide)
    · intro member
      by_contra other
      rw [if_neg other, if_pos member, (mem_spare.mp (List.mem_of_mem_take member)).2] at value
      exact absurd value (by decide)
  rw [same.length_eq, List.length_take, min_eq_left enough]

/-- The image describes the file, and only the blocks used for it and the inode slot have changed. -/
structure Encoded (n m offset : Int) (raw bitmap raw' bitmap' : Bytes) (file : List UInt8) (used : List Int) : Prop where
  size : (extractInodeFromData offset raw').size = file.length
  decodes : fileOf raw' (extractInodeFromData offset raw') = file
  reached : (dataBlocks raw' (extractInodeFromData offset raw')).take ((file.length + 1023) / 1024) ⊆ used
  distinct : used.Nodup
  free : ∀ b ∈ used, (m ≤ b ∧ b < n) ∧ bitmap b = 0
  marked : ∀ b, bitmap' b = if b ∈ used then 1 else bitmap b
  frame : ∀ p, (∀ b ∈ used, ¬ InBlock b p) → ¬ InSlot offset p → raw' p = raw p

/-- `place_file` encodes the file faithfully. An empty file has a data block too. -/
theorem placeFile_encodes (row : 0 ≤ d) (high : d < m) (ordered : m ≤ n) (small : n * 1024 < 2 ^ 31)
    (column : 0 ≤ i) (wide : i < 10) {heap : Heap} {uid gid : Int} {raw bitmap raw' bitmap' : Bytes}
    (run : placeFile heap (some file) uid gid d i m raw bitmap n = .ok (raw', bitmap')) :
    Encoded n m (slotOffset d i) raw bitmap raw' bitmap' file
      (usedBlocks raw' (extractInodeFromData (slotOffset d i) raw') (max 1 ((file.length + 1023) / 1024))) := by
  obtain ⟨w, place, run⟩ := except_bind_ok run
  obtain ⟨final, inode, run⟩ := except_bind_ok run
  cases run
  obtain ⟨s, subs, rfl, rfl, grew, named, nonempty, fits, _, size, position, short⟩ :=
    placeBlocks_spec (by omega) ordered small place
  obtain ⟨-, -, -, rfl⟩ := placeInode_spec ordered small row column inode
  have sizeWord := @readInt_memcpy_words (slotOffset d i) 100 w.ip.word w.rawdata 4 (by decide)
  rw [show w.ip.word 4 = w.ip.size from rfl, size, wrap32_of_range (by omega) (by omega),
    show (4 : Int) * ((4 : Nat) : Int) = 16 from rfl, ← extractInodeFromData_size] at sizeWord
  have named : ∀ j t, subs[j]? = some t → slotPointer (memcpy (slotOffset d i) (bytesOfWords w.ip.word) 100 w.rawdata)
      (slotOffset d i) j = t.root := by
    intro j t found
    have bound : j < 17 := by
      have below := (List.getElem?_eq_some_iff.mp found).1
      omega
    rw [slotPointer_written ordered small (by omega) grew.grows.area bound (named.pointers j bound), found]
    rfl
  have blocks : ∀ b ∈ blocksOf subs, ∀ p, InBlock b p →
      memcpy (slotOffset d i) (bytesOfWords w.ip.word) 100 w.rawdata p = w.rawdata p := fun b member p inside =>
    memcpy_slot_block high wide (grew.grows.area b member).1 inside
  have other : ∀ p, ¬ InSlot (slotOffset d i) p →
      memcpy (slotOffset d i) (bytesOfWords w.ip.word) 100 w.rawdata p = w.rawdata p := fun p out => memcpy_slot_outside out
  generalize memcpy (slotOffset d i) (bytesOfWords w.ip.word) 100 w.rawdata = raw' at *
  have held : ∀ t ∈ subs, Held (entry raw') t.2 := fun t member =>
    (grew.held t member).congr fun b inside => entry_congr (blocks b (mem_blocksOf member inside))
  have carries : Carries file raw' 0 (dataOf subs) := grew.carries.congr fun b leaf => blocks b (dataOf_subset leaf)
  have chunks := grew.length_dataOf short nonempty position
  have all : usedBlocks raw' (extractInodeFromData (slotOffset d i) raw') (max 1 ((file.length + 1023) / 1024)) =
      blocksOf subs := by
    have listed := used_slots grew.levels named held grew.packed (grew.front short)
    rw [chunks, ← usedBlocks_slots] at listed
    refine listed.eq_of_length ?_
    rw [length_usedBlocks _ _ short]
    exact (length_marked (by omega) ordered small place grew.grows.nodup grew.grows.free grew.grows.bitmap).symm
  have data : (dataBlocks raw' (extractInodeFromData (slotOffset d i) raw')).take ((file.length + 1023) / 1024) =
      (dataOf subs).take ((file.length + 1023) / 1024) := by
    obtain ⟨rest, value⟩ := below_slots grew.levels named held grew.packed (grew.front short) fits
    rw [dataBlocks_slots, value, List.take_append_of_le_length (by omega)]
  rw [all]
  exact ⟨sizeWord, fileOf_carries carries (by omega) sizeWord data,
    fun b member => dataOf_subset (List.mem_of_mem_take (data ▸ member)), grew.grows.nodup,
    fun b member => ⟨grew.grows.area b member, grew.grows.free b member⟩, grew.grows.bitmap,
    fun p out notSlot => by rw [other p notSlot]; exact grew.grows.frame p out⟩

theorem placeFile_encodes_long : ∃ raw bitmap,
    placeFile blankHeap (some longFile) 0 0 0 0 1 (fun _ => 0) (fun _ => 0) 20 = .ok (raw, bitmap) ∧
      fileOf raw (extractInodeFromData (slotOffset 0 0) raw) = longFile := by
  have enough : need longFile.length ≤ (spare 20 1 fun _ => 0).length := by
    rw [need_longFile, length_spare_free fun _ _ _ => rfl]
    decide
  have accepted : ∃ out, placeFile blankHeap (some longFile) 0 0 0 0 1 (fun _ => 0) (fun _ => 0) 20 = .ok out :=
    (placeFile_ok_iff (by decide) (by decide) (by decide) le_rfl le_rfl).mpr
      ⟨by decide, by decide, isInode_zero fun _ _ => rfl, enough⟩
  obtain ⟨⟨raw, bitmap⟩, run⟩ := accepted
  exact ⟨raw, bitmap, run,
    (placeFile_encodes (by decide) (by decide) (by decide) (by decide) (by decide) (by decide) run).decodes⟩

end Placed

end OsLabs.Inodes
