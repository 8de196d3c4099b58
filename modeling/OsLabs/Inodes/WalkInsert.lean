import OsLabs.Inodes.PlacedTree

namespace OsLabs.Inodes
open ByteMemory PointerTree

/-- `read_int((block_no * BLOCK_SZ) + 4 * i, rawdata)`. -/
def readEntry (rawdata : Bytes) (blockNo : Int) (i : Nat) : Int :=
  readInt (wrap32 (wrap32 (blockNo * 1024) + 4 * i)) rawdata

/-- The loop of the three `walk_..._block` functions: it visits the pointers of
a block and breaks at the first zero one. -/
def walkEntries (visit : Int → Bytes → Bytes) (rawdata : Bytes) (blockNo : Int) : Nat → Bytes → Bytes
  | 0, bitmap => bitmap
  | left + 1, bitmap =>
    let block := readEntry rawdata blockNo (256 - (left + 1))
    if block = 0 then bitmap else walkEntries visit rawdata blockNo left (visit block bitmap)

def setUsed (block : Int) (bitmap : Bytes) : Bytes := Function.update bitmap block 1

def walkIndirectBlock (rawdata : Bytes) (blockNo : Int) (bitmap : Bytes) : Bytes :=
  walkEntries setUsed rawdata blockNo 256 (setUsed blockNo bitmap)

def walkDoublyIndirectBlock (rawdata : Bytes) (blockNo : Int) (bitmap : Bytes) : Bytes :=
  walkEntries (walkIndirectBlock rawdata) rawdata blockNo 256 (setUsed blockNo bitmap)

def walkTriplyIndirectBlock (rawdata : Bytes) (blockNo : Int) (bitmap : Bytes) : Bytes :=
  walkEntries (walkDoublyIndirectBlock rawdata) rawdata blockNo 256 (setUsed blockNo bitmap)

/-- One of the two loops of `populate_bitmap_inode` over an array of the inode.
The flag is false when the loop returns from the function at a zero pointer. -/
def populateSlots (blocks : Nat → Int) (visit : Int → Bytes → Bytes) (count : Nat) : Nat → Bytes → Bool × Bytes
  | 0, bitmap => (true, bitmap)
  | left + 1, bitmap =>
    let blockNo := blocks (count - (left + 1))
    if blockNo = 0 then (false, bitmap) else populateSlots blocks visit count left (visit blockNo bitmap)

/-- The double and triple indirect slots are walked unless they are zero. -/
def populateSlot (visit : Int → Bytes → Bytes) (blockNo : Int) (bitmap : Bytes) : Bytes :=
  if blockNo ≠ 0 then visit blockNo bitmap else bitmap

def populateBitmapInode (fileInode : Inode) (rawdata bitmap : Bytes) : Bytes :=
  match populateSlots fileInode.dblocks setUsed 12 12 bitmap with
  | (false, bitmap) => bitmap
  | (true, bitmap) =>
    match populateSlots fileInode.iblocks (walkIndirectBlock rawdata) 3 3 bitmap with
    | (false, bitmap) => bitmap
    | (true, bitmap) =>
      populateSlot (walkTriplyIndirectBlock rawdata) fileInode.i3block
        (populateSlot (walkDoublyIndirectBlock rawdata) fileInode.i2block bitmap)

/-- The body of the double loop of `walk_inodes_insert` for inode `j` of block `i`. -/
def insertSlot (rawdata : Bytes) (bitmap : Bytes) (slot : Nat × Nat) : Bytes :=
  let offset := wrap32 (wrap32 (slot.1 * 1024) + slot.2 * 100)
  if isInode offset rawdata then populateBitmapInode (extractInodeFromData offset rawdata) rawdata bitmap else bitmap

def walkInodesInsert (rawdata bitmap : Bytes) (m : Int) : Bytes :=
  ((List.range m.toNat).flatMap fun i => (List.range 10).map fun j => (i, j)).foldl (insertSlot rawdata) bitmap

/-- The double loop goes through ten inodes in each of the first `m` blocks. -/
theorem mem_inodeSlots {m : Int} {slot : Nat × Nat} :
    slot ∈ ((List.range m.toNat).flatMap fun i => (List.range 10).map fun j => (i, j)) ↔
      (slot.1 : Int) < m ∧ slot.2 < 10 := by
  obtain ⟨i, j⟩ := slot
  simp only [List.mem_flatMap, List.mem_map, List.mem_range, Prod.mk.injEq]
  constructor
  · rintro ⟨i', high, j', wide, rfl, rfl⟩
    exact ⟨by omega, wide⟩
  · rintro ⟨high, wide⟩
    exact ⟨i, by omega, j, wide, rfl, rfl⟩

/-- Every block of the list is marked as used, the rest of the bitmap kept. -/
def marks (bs : List Int) (bitmap : Bytes) : Bytes := bs.foldl (fun bitmap b => setUsed b bitmap) bitmap

@[simp] theorem marks_nil (bitmap : Bytes) : marks [] bitmap = bitmap := rfl

@[simp] theorem marks_cons (b : Int) (bs : List Int) (bitmap : Bytes) :
    marks (b :: bs) bitmap = marks bs (setUsed b bitmap) := rfl

theorem marks_append (bs cs : List Int) (bitmap : Bytes) : marks (bs ++ cs) bitmap = marks cs (marks bs bitmap) :=
  List.foldl_append

theorem marks_apply (bs : List Int) (bitmap : Bytes) (b : Int) :
    marks bs bitmap b = if b ∈ bs then 1 else bitmap b := by
  induction bs generalizing bitmap with
  | nil => simp
  | cons c cs ih =>
    rw [marks_cons, ih, setUsed, Function.update_apply]
    by_cases later : b ∈ cs <;> by_cases here : b = c <;> simp [later, here]

/-- The pointers of a block as the walkers read them, null past the block. -/
def readEntries (rawdata : Bytes) (b : Int) (i : Nat) : Int := if i < 256 then readEntry rawdata b i else 0

theorem readEntries_eq {rawdata : Bytes} {b : Int} (nonneg : 0 ≤ b) (small : b * 1024 + 1024 ≤ 2 ^ 31) :
    entry rawdata b = readEntries rawdata b := by
  funext i
  unfold entry readEntries readEntry
  split
  · rw [wrap32_of_range (x := b * 1024) (by omega) (by omega), wrap32_of_range (by omega) (by omega)]
  · rfl

/-- The first of the `left + 1` entries that a loop over a pointer block still visits. -/
theorem readEntries_succ {rawdata : Bytes} {b : Int} {left : Nat} (bound : left + 1 ≤ 256) :
    (List.range' (256 - (left + 1)) (left + 1)).map (readEntries rawdata b) =
      readEntry rawdata b (256 - (left + 1)) :: (List.range' (256 - left) left).map (readEntries rawdata b) := by
  have value : readEntries rawdata b (256 - (left + 1)) = readEntry rawdata b (256 - (left + 1)) := if_pos (by omega)
  have advance : 256 - (left + 1) + 1 = 256 - left := by omega
  rw [List.range'_succ, List.map_cons, value, advance]

theorem walkEntries_eq (visit : Int → Bytes → Bytes) (blocks : Int → List Int)
    (marksBlocks : ∀ b bitmap, visit b bitmap = marks (blocks b) bitmap) (rawdata : Bytes) (blockNo : Int)
    (left : Nat) (bitmap : Bytes) (bound : left ≤ 256) :
    walkEntries visit rawdata blockNo left bitmap =
      marks ((((List.range' (256 - left) left).map (readEntries rawdata blockNo)).takeWhile
        (fun p => !(p == 0))).flatMap blocks) bitmap := by
  induction left generalizing bitmap with
  | zero => rfl
  | succ left ih =>
    rw [readEntries_succ bound, List.takeWhile_cons]
    unfold walkEntries
    generalize readEntry rawdata blockNo (256 - (left + 1)) = block
    by_cases null : block = 0
    · simp [null]
    · simp only [null, if_false, beq_eq_false_iff_ne.mpr null, Bool.not_false, if_true, List.flatMap_cons,
        marks_append]
      rw [marksBlocks, ih _ (by omega)]

/-- The blocks the insert walker marks below a pointer that is `k` levels above the data. -/
abbrev walked (rawdata : Bytes) (k : Nat) (b : Int) : List Int :=
  reach (readEntries rawdata) (fun p => p == 0) 256 k b

/-- One level of pointers more: the pointer block itself, then what lies below. -/
theorem walkEntries_reach {visit : Int → Bytes → Bytes} {rawdata : Bytes} {k : Nat}
    (below : ∀ b bitmap, visit b bitmap = marks (walked rawdata k b) bitmap) (b : Int) (bitmap : Bytes) :
    walkEntries visit rawdata b 256 (setUsed b bitmap) = marks (walked rawdata (k + 1) b) bitmap := by
  rw [walkEntries_eq visit _ below rawdata b 256 _ le_rfl, walked, reach, marks_cons, pointers,
    List.range_eq_range', Nat.sub_self]

theorem setUsed_eq (rawdata : Bytes) (b : Int) (bitmap : Bytes) :
    setUsed b bitmap = marks (walked rawdata 0 b) bitmap := rfl

theorem walkIndirectBlock_eq (rawdata : Bytes) (b : Int) (bitmap : Bytes) :
    walkIndirectBlock rawdata b bitmap = marks (walked rawdata 1 b) bitmap :=
  walkEntries_reach (setUsed_eq rawdata) b bitmap

theorem walkDoublyIndirectBlock_eq (rawdata : Bytes) (b : Int) (bitmap : Bytes) :
    walkDoublyIndirectBlock rawdata b bitmap = marks (walked rawdata 2 b) bitmap :=
  walkEntries_reach (walkIndirectBlock_eq rawdata) b bitmap

theorem walkTriplyIndirectBlock_eq (rawdata : Bytes) (b : Int) (bitmap : Bytes) :
    walkTriplyIndirectBlock rawdata b bitmap = marks (walked rawdata 3 b) bitmap :=
  walkEntries_reach (walkDoublyIndirectBlock_eq rawdata) b bitmap

end OsLabs.Inodes
