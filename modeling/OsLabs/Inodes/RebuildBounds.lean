import OsLabs.Inodes.WalkInsert
import OsLabs.Inodes.PlacedFile

namespace OsLabs.Inodes
open ByteMemory PointerTree

/-- The bitmap that `-insert` rebuilds, with the indices at which it has been set and the
offsets of the pointers that have been read. -/
structure Rebuild where
  bitmap : Bytes
  sets : List Int
  reads : List Int

def Rebuild.set (b : Int) (s : Rebuild) : Rebuild := ⟨setUsed b s.bitmap, b :: s.sets, s.reads⟩

def Rebuild.read (pos : Int) (s : Rebuild) : Rebuild := ⟨s.bitmap, s.sets, pos :: s.reads⟩

@[simp] theorem Rebuild.set_bitmap (b : Int) (s : Rebuild) : (s.set b).bitmap = setUsed b s.bitmap := rfl

@[simp] theorem Rebuild.read_bitmap (pos : Int) (s : Rebuild) : (s.read pos).bitmap = s.bitmap := rfl

section Trace
variable (rawdata : Bytes)

def traceEntries (visit : Int → Rebuild → Rebuild) (blockNo : Int) : Nat → Rebuild → Rebuild
  | 0, s => s
  | left + 1, s =>
    let block := readEntry rawdata blockNo (256 - (left + 1))
    let s := s.read (wrap32 (wrap32 (blockNo * 1024) + 4 * ↑(256 - (left + 1))))
    if block = 0 then s else traceEntries visit blockNo left (visit block s)

/-- Marking a block `k` levels above the data: for 1, 2 and 3 the three `walk_..._block` functions. -/
def traceLevel : Nat → Int → Rebuild → Rebuild
  | 0 => Rebuild.set
  | k + 1 => fun blockNo s => traceEntries rawdata (traceLevel k) blockNo 256 (s.set blockNo)

/-- The loops of `populate_bitmap_inode` over an array that begins at `base`. -/
def traceSlots (blocks : Nat → Int) (base : Int) (visit : Int → Rebuild → Rebuild) (count : Nat) :
    Nat → Rebuild → Bool × Rebuild
  | 0, s => (true, s)
  | left + 1, s =>
    let blockNo := blocks (count - (left + 1))
    let s := s.read (base + 4 * ↑(count - (left + 1)))
    if blockNo = 0 then (false, s) else traceSlots blocks base visit count left (visit blockNo s)

def traceSlot (pos : Int) (visit : Int → Rebuild → Rebuild) (blockNo : Int) (s : Rebuild) : Rebuild :=
  if blockNo ≠ 0 then visit blockNo (s.read pos) else s.read pos

/-- `populate_bitmap_inode` for the inode `ip` at `offset`. -/
def tracePopulate (ip : Inode) (offset : Int) (s : Rebuild) : Rebuild :=
  match traceSlots ip.dblocks (offset + 32) Rebuild.set 12 12 s with
  | (false, s) => s
  | (true, s) =>
    match traceSlots ip.iblocks (offset + 80) (traceLevel rawdata 1) 3 3 s with
    | (false, s) => s
    | (true, s) =>
      traceSlot (offset + 96) (traceLevel rawdata 3) ip.i3block
        (traceSlot (offset + 92) (traceLevel rawdata 2) ip.i2block s)

def traceInsertSlot (s : Rebuild) (slot : Nat × Nat) : Rebuild :=
  let offset := wrap32 (wrap32 (slot.1 * 1024) + slot.2 * 100)
  if isInode offset rawdata then tracePopulate rawdata (extractInodeFromData offset rawdata) offset s else s

/-- `walk_inodes_insert` with what it sets and reads. -/
def traceInodesInsert (m : Int) (s : Rebuild) : Rebuild :=
  ((List.range m.toNat).flatMap fun i => (List.range 10).map fun j => (i, j)).foldl (traceInsertSlot rawdata) s

end Trace

section Forget
variable {rawdata : Bytes}

theorem traceEntries_succ {visit : Int → Rebuild → Rebuild} {blockNo block pos : Int} {left : Nat} {s : Rebuild}
    (entry : readEntry rawdata blockNo (256 - (left + 1)) = block)
    (place : wrap32 (wrap32 (blockNo * 1024) + 4 * ↑(256 - (left + 1))) = pos) :
    traceEntries rawdata visit blockNo (left + 1) s =
      if block = 0 then s.read pos else traceEntries rawdata visit blockNo left (visit block (s.read pos)) := by
  subst entry place
  rfl

theorem walkEntries_succ {visit : Int → Bytes → Bytes} {blockNo block : Int} {left : Nat} {bitmap : Bytes}
    (entry : readEntry rawdata blockNo (256 - (left + 1)) = block) :
      walkEntries visit rawdata blockNo (left + 1) bitmap =
      if block = 0 then bitmap else walkEntries visit rawdata blockNo left (visit block bitmap) := by
  subst entry
  rfl

theorem traceEntries_bitmap {visit : Int → Rebuild → Rebuild} {visit' : Int → Bytes → Bytes}
    (same : ∀ b s, (visit b s).bitmap = visit' b s.bitmap) (blockNo : Int) (left : Nat) : ∀ s : Rebuild,
    (traceEntries rawdata visit blockNo left s).bitmap = walkEntries visit' rawdata blockNo left s.bitmap := by
  induction left with
  | zero => exact fun _ => rfl
  | succ left ih =>
    intro s
    rw [traceEntries_succ rfl rfl, walkEntries_succ rfl]
    by_cases null : readEntry rawdata blockNo (256 - (left + 1)) = 0
    · rw [if_pos null, if_pos null, Rebuild.read_bitmap]
    · rw [if_neg null, if_neg null, ih, same, Rebuild.read_bitmap]

theorem traceIndirect_bitmap (b : Int) (s : Rebuild) :
    (traceLevel rawdata 1 b s).bitmap = walkIndirectBlock rawdata b s.bitmap := by
  rw [traceLevel, walkIndirectBlock, ← Rebuild.set_bitmap]
  exact traceEntries_bitmap Rebuild.set_bitmap b 256 (s.set b)

theorem traceDoubly_bitmap (b : Int) (s : Rebuild) :
    (traceLevel rawdata 2 b s).bitmap = walkDoublyIndirectBlock rawdata b s.bitmap := by
  rw [traceLevel, walkDoublyIndirectBlock, ← Rebuild.set_bitmap]
  exact traceEntries_bitmap traceIndirect_bitmap b 256 (s.set b)

theorem traceTriply_bitmap (b : Int) (s : Rebuild) :
    (traceLevel rawdata 3 b s).bitmap = walkTriplyIndirectBlock rawdata b s.bitmap := by
  rw [traceLevel, walkTriplyIndirectBlock, ← Rebuild.set_bitmap]
  exact traceEntries_bitmap traceDoubly_bitmap b 256 (s.set b)

theorem traceSlots_bitmap {visit : Int → Rebuild → Rebuild} {visit' : Int → Bytes → Bytes}
    (same : ∀ b s, (visit b s).bitmap = visit' b s.bitmap) (blocks : Nat → Int) (base : Int) (count left : Nat) :
    ∀ s : Rebuild, ((traceSlots blocks base visit count left s).1,
      (traceSlots blocks base visit count left s).2.bitmap) =
      populateSlots blocks visit' count left s.bitmap := by
  induction left with
  | zero => exact fun _ => rfl
  | succ left ih =>
    intro s
    unfold traceSlots populateSlots
    dsimp only
    by_cases null : blocks (count - (left + 1)) = 0
    · rw [if_pos null, if_pos null, Rebuild.read_bitmap]
    · rw [if_neg null, if_neg null, ih, same, Rebuild.read_bitmap]

theorem traceSlot_bitmap {visit : Int → Rebuild → Rebuild} {visit' : Int → Bytes → Bytes}
    (same : ∀ b s, (visit b s).bitmap = visit' b s.bitmap) (pos b : Int) (s : Rebuild) :
    (traceSlot pos visit b s).bitmap = populateSlot visit' b s.bitmap := by
  unfold traceSlot populateSlot
  by_cases null : b ≠ 0
  · rw [if_pos null, if_pos null, same, Rebuild.read_bitmap]
  · rw [if_neg null, if_neg null, Rebuild.read_bitmap]

theorem tracePopulate_bitmap (ip : Inode) (offset : Int) (s : Rebuild) :
    (tracePopulate rawdata ip offset s).bitmap = populateBitmapInode ip rawdata s.bitmap := by
  unfold tracePopulate populateBitmapInode
  rw [← traceSlots_bitmap Rebuild.set_bitmap ip.dblocks (offset + 32)]
  rcases traceSlots ip.dblocks (offset + 32) Rebuild.set 12 12 s with ⟨_ | _, u⟩
  · rfl
  dsimp only
  rw [← traceSlots_bitmap traceIndirect_bitmap ip.iblocks (offset + 80)]
  rcases traceSlots ip.iblocks (offset + 80) (traceLevel rawdata 1) 3 3 u with ⟨_ | _, v⟩
  · rfl
  dsimp only
  rw [traceSlot_bitmap traceTriply_bitmap, traceSlot_bitmap traceDoubly_bitmap]

theorem traceInsertSlot_eq {offset : Int} {s : Rebuild} {slot : Nat × Nat}
    (place : wrap32 (wrap32 (slot.1 * 1024) + slot.2 * 100) = offset) : traceInsertSlot rawdata s slot =
      if isInode offset rawdata then tracePopulate rawdata (extractInodeFromData offset rawdata) offset s else s := by
  subst place
  rfl

theorem insertSlot_eq {offset : Int} {bitmap : Bytes} {slot : Nat × Nat}
    (place : wrap32 (wrap32 (slot.1 * 1024) + slot.2 * 100) = offset) : insertSlot rawdata bitmap slot =
      if isInode offset rawdata then populateBitmapInode (extractInodeFromData offset rawdata) rawdata bitmap
      else bitmap := by
  subst place
  rfl

theorem traceInsertSlot_bitmap (s : Rebuild) (slot : Nat × Nat) :
    (traceInsertSlot rawdata s slot).bitmap = insertSlot rawdata s.bitmap slot := by
  obtain ⟨offset, place⟩ : ∃ offset, wrap32 (wrap32 (slot.1 * 1024) + slot.2 * 100) = offset := ⟨_, rfl⟩
  rw [traceInsertSlot_eq place, insertSlot_eq place]
  by_cases found : isInode offset rawdata = true
  · rw [if_pos found, if_pos found, tracePopulate_bitmap]
  · rw [if_neg found, if_neg found]

/-- Without the record of what it sets and reads, the walk is `walk_inodes_insert`. -/
theorem traceInodesInsert_bitmap (m : Int) (s : Rebuild) :
    (traceInodesInsert rawdata m s).bitmap = walkInodesInsert rawdata s.bitmap m := by
  rw [traceInodesInsert, walkInodesInsert, ← List.foldl_hom Rebuild.bitmap]
  exact fun u slot => (traceInsertSlot_bitmap u slot).symm

end Forget

/-- Every index set lies in the bitmap of an image of `n` blocks, and every pointer read in the image. -/
structure Safe (n : Int) (s : Rebuild) : Prop where
  sets : ∀ b ∈ s.sets, 0 ≤ b ∧ b < n
  reads : ∀ pos ∈ s.reads, 0 ≤ pos ∧ pos + 4 ≤ n * 1024

/-- Block `b`, whose data lie `k` levels of pointers below, and all blocks met below it are blocks of
the image; the pointers are read at an offset that is an `int`. -/
def Reaches (n : Int) (rawdata : Bytes) : Nat → Int → Prop
  | 0, b => 0 ≤ b ∧ b < n
  | k + 1, b => (0 ≤ b ∧ b < n) ∧ 0 ≤ wrap32 (b * 1024) ∧
      ∀ c ∈ pointers (readEntries rawdata) (fun p => p == 0) 256 b, Reaches n rawdata k c

/-- The pointers of an array of the inode, up to the first zero one. -/
def named (blocks : Nat → Int) (count : Nat) : List Int := ((List.range count).map blocks).takeWhile fun b => !(b == 0)

/-- All blocks that the pointers of an inode lead to are blocks of the image. -/
structure InodeSound (n : Int) (rawdata : Bytes) (ip : Inode) : Prop where
  direct : ∀ b ∈ named ip.dblocks 12, Reaches n rawdata 0 b
  single : 12 ≤ (named ip.dblocks 12).length → ∀ b ∈ named ip.iblocks 3, Reaches n rawdata 1 b
  double : 12 ≤ (named ip.dblocks 12).length → 3 ≤ (named ip.iblocks 3).length → ip.i2block ≠ 0 →
    Reaches n rawdata 2 ip.i2block
  triple : 12 ≤ (named ip.dblocks 12).length → 3 ≤ (named ip.iblocks 3).length → ip.i3block ≠ 0 →
    Reaches n rawdata 3 ip.i3block

section Safety
variable {n : Int} {rawdata : Bytes}

@[simp] theorem safe_set {b : Int} {s : Rebuild} : Safe n (s.set b) ↔ Safe n s ∧ 0 ≤ b ∧ b < n := by
  constructor
  · rintro ⟨sets, reads⟩
    obtain ⟨here, old⟩ := List.forall_mem_cons.mp sets
    exact ⟨⟨old, reads⟩, here⟩
  · rintro ⟨⟨sets, reads⟩, here⟩
    exact ⟨List.forall_mem_cons.mpr ⟨here, sets⟩, reads⟩

@[simp] theorem safe_read {pos : Int} {s : Rebuild} :
    Safe n (s.read pos) ↔ Safe n s ∧ 0 ≤ pos ∧ pos + 4 ≤ n * 1024 := by
  constructor
  · rintro ⟨sets, reads⟩
    obtain ⟨here, old⟩ := List.forall_mem_cons.mp reads
    exact ⟨⟨sets, old⟩, here⟩
  · rintro ⟨⟨sets, reads⟩, here⟩
    exact ⟨sets, List.forall_mem_cons.mpr ⟨here, reads⟩⟩

/-- The pointers of a block of the image lie in the image, if its offset is not negative as an `int`. -/
theorem entry_inside {b : Int} (lower : 0 ≤ b) (upper : b < n) (start : 0 ≤ wrap32 (b * 1024)) {i : Nat}
    (bound : i < 256) :
    0 ≤ wrap32 (wrap32 (b * 1024) + 4 * i) ∧ wrap32 (wrap32 (b * 1024) + 4 * i) + 4 ≤ n * 1024 := by
  have most := wrap32_le (x := b * 1024) (by omega)
  have limit := (wrap32_range (b * 1024)).2
  have aligned : wrap32 (b * 1024) % 1024 = 0 := by
    unfold wrap32
    rw [Int.bmod_def]
    split <;> omega
  rw [wrap32_of_range (x := wrap32 (b * 1024) + 4 * i) (by omega) (by omega)]
  omega

section Loops
variable {visit : Int → Rebuild → Rebuild} {Q : Int → Prop} (visits : ∀ b s, Safe n (visit b s) ↔ Safe n s ∧ Q b)
include visits

theorem traceEntries_before {blockNo : Int} (left : Nat) : ∀ s : Rebuild,
    Safe n (traceEntries rawdata visit blockNo left s) → Safe n s := by
  induction left with
  | zero => exact fun _ safe => safe
  | succ left ih =>
    intro s safe
    rw [traceEntries_succ rfl rfl] at safe
    split at safe
    · exact (safe_read.mp safe).1
    · exact (safe_read.mp ((visits _ _).mp (ih _ safe)).1).1

theorem traceEntries_safe {blockNo : Int} (inside : ∀ i : Nat, i < 256 →
      0 ≤ wrap32 (wrap32 (blockNo * 1024) + 4 * i) ∧ wrap32 (wrap32 (blockNo * 1024) + 4 * i) + 4 ≤ n * 1024)
    (left : Nat) (bound : left ≤ 256) : ∀ s : Rebuild, Safe n (traceEntries rawdata visit blockNo left s) ↔
      Safe n s ∧ ∀ c ∈ ((List.range' (256 - left) left).map (readEntries rawdata blockNo)).takeWhile
        (fun p => !(p == 0)), Q c := by
  induction left with
  | zero => simp [traceEntries]
  | succ left ih =>
    intro s
    have value : readEntries rawdata blockNo (256 - (left + 1)) = readEntry rawdata blockNo (256 - (left + 1)) :=
      if_pos (by omega)
    have advance : 256 - (left + 1) + 1 = 256 - left := by omega
    have here := inside (256 - (left + 1)) (by omega)
    rw [List.range'_succ, List.map_cons, List.takeWhile_cons, value, advance, traceEntries_succ rfl rfl]
    generalize readEntry rawdata blockNo (256 - (left + 1)) = block
    generalize wrap32 (wrap32 (blockNo * 1024) + 4 * ↑(256 - (left + 1))) = pos at here ⊢
    by_cases null : block = 0
    · simp [null, here]
    · simp only [null, if_false, beq_eq_false_iff_ne.mpr null, Bool.not_false, if_true, List.forall_mem_cons]
      rw [ih (by omega), visits, safe_read, and_iff_left here, and_assoc]

theorem traceSlots_before {blocks : Nat → Int} {base : Int} {count : Nat} (left : Nat) : ∀ s : Rebuild,
    Safe n (traceSlots blocks base visit count left s).2 → Safe n s := by
  induction left with
  | zero => exact fun _ safe => safe
  | succ left ih =>
    intro s safe
    unfold traceSlots at safe
    dsimp only at safe
    split at safe
    · exact (safe_read.mp safe).1
    · exact (safe_read.mp ((visits _ _).mp (ih _ safe)).1).1

/-- A loop over an array of the inode is left at the first zero pointer. -/
theorem traceSlots_safe {blocks : Nat → Int} {base : Int} {count : Nat}
    (inside : ∀ j : Nat, j < count → 0 ≤ base + 4 * j ∧ base + 4 * j + 4 ≤ n * 1024) (s : Rebuild) :
    (traceSlots blocks base visit count count s).1 = decide (count ≤ (named blocks count).length) ∧
      (Safe n (traceSlots blocks base visit count count s).2 ↔ Safe n s ∧ ∀ b ∈ named blocks count, Q b) := by
  have part : ∀ left ≤ count, ∀ s, (traceSlots blocks base visit count left s).1 =
      decide (left ≤ (((List.range' (count - left) left).map blocks).takeWhile fun b => !(b == 0)).length) ∧
      (Safe n (traceSlots blocks base visit count left s).2 ↔
        Safe n s ∧ ∀ b ∈ ((List.range' (count - left) left).map blocks).takeWhile fun b => !(b == 0), Q b) := by
    intro left
    induction left with
    | zero => exact fun _ s => ⟨rfl, by simp [traceSlots]⟩
    | succ left ih =>
      intro bound s
      have advance : count - (left + 1) + 1 = count - left := by omega
      have here := inside (count - (left + 1)) (by omega)
      rw [List.range'_succ, List.map_cons, List.takeWhile_cons, advance]
      unfold traceSlots
      dsimp only
      by_cases null : blocks (count - (left + 1)) = 0
      · simp [null, here]
      · simp only [null, if_false, beq_eq_false_iff_ne.mpr null, Bool.not_false, if_true, List.forall_mem_cons,
          List.length_cons, Nat.add_le_add_iff_right]
        obtain ⟨flag, safe⟩ := ih (by omega)
            (visit (blocks (count - (left + 1))) (s.read (base + 4 * ↑(count - (left + 1)))))
        exact ⟨flag, by rw [safe, visits, safe_read, and_iff_left here, and_assoc]⟩
  have whole := part count le_rfl s
  rwa [Nat.sub_self, ← List.range_eq_range'] at whole

theorem traceSlots_first {blocks : Nat → Int} {base : Int} {count left : Nat} {s : Rebuild}
    (safe : Safe n (traceSlots blocks base visit count (left + 1) s).2) :
    Safe n (s.read (base + 4 * ↑(count - (left + 1)))) := by
  unfold traceSlots at safe
  dsimp only at safe
  split at safe
  · exact safe
  · exact ((visits _ _).mp (traceSlots_before visits left _ safe)).1

theorem traceSlot_before {pos b : Int} {s : Rebuild} (safe : Safe n (traceSlot pos visit b s)) : Safe n s := by
  unfold traceSlot at safe
  split at safe
  · exact (safe_read.mp ((visits _ _).mp safe).1).1
  · exact (safe_read.mp safe).1

theorem traceSlot_safe {pos b : Int} (inside : 0 ≤ pos ∧ pos + 4 ≤ n * 1024) (s : Rebuild) :
    Safe n (traceSlot pos visit b s) ↔ Safe n s ∧ (b ≠ 0 → Q b) := by
  unfold traceSlot
  by_cases null : b = 0
  · simp [null, inside]
  · simp [null, visits, inside]

end Loops

theorem traceLevel_succ (k : Nat) (b : Int) (s : Rebuild) : traceLevel rawdata (k + 1) b s =
    traceEntries rawdata (traceLevel rawdata k) b 256 (s.set b) := rfl

/-- Marking what lies below a pointer is safe exactly when all of it lies in the image. -/
theorem traceLevel_safe (k : Nat) : ∀ (b : Int) (s : Rebuild),
    Safe n (traceLevel rawdata k b s) ↔ Safe n s ∧ Reaches n rawdata k b := by
  induction k with
  | zero => exact fun _ _ => safe_set
  | succ k ih =>
    intro b s
    rw [traceLevel_succ, Reaches]
    by_cases inImage : 0 ≤ b ∧ b < n
    swap
    · refine iff_of_false (fun safe => inImage ?_) fun both => inImage both.2.1
      exact (safe_set.mp (traceEntries_before ih 256 _ safe)).2
    by_cases start : 0 ≤ wrap32 (b * 1024)
    · have walk := @traceEntries_safe n rawdata _ _ ih b
        (fun i bound => entry_inside inImage.1 inImage.2 start bound) 256 le_rfl (s.set b)
      rw [Nat.sub_self, ← List.range_eq_range'] at walk
      rw [walk, safe_set, and_iff_left inImage]
      exact and_congr_right fun _ => ⟨fun below => ⟨inImage, start, below⟩, fun reaches => reaches.2.2⟩
    · -- already the first pointer is read before the image
      refine iff_of_false (fun safe => start ?_) fun both => start both.2.2.1
      obtain ⟨pos, place⟩ : ∃ pos, wrap32 (wrap32 (b * 1024) + 4 * ((256 - (255 + 1) : Nat) : Int)) = pos := ⟨_, rfl⟩
      rw [traceEntries_succ rfl place] at safe
      have first : Safe n ((s.set b).read pos) := by
        split at safe
        · exact safe
        · exact ((ih _ _).mp (traceEntries_before ih 255 _ safe)).1
      rw [show ((256 - (255 + 1) : Nat) : Int) = 0 from rfl, mul_zero, add_zero, wrap32_wrap32] at place
      rw [place]
      exact (safe_read.mp first).2.1

section Inodes
variable {ip : Inode} {offset : Int}

/-- Marking the blocks of an inode inside the image is safe exactly when they are blocks of the image. -/
theorem tracePopulate_safe (start : 0 ≤ offset) (fits : offset + 100 ≤ n * 1024) (s : Rebuild) :
    Safe n (tracePopulate rawdata ip offset s) ↔ Safe n s ∧ InodeSound n rawdata ip := by
  obtain ⟨flag, direct⟩ := @traceSlots_safe n Rebuild.set (Reaches n rawdata 0) (fun _ _ => safe_set) ip.dblocks
    (offset + 32) 12 (fun j bound => by omega) s
  unfold tracePopulate
  generalize traceSlots ip.dblocks (offset + 32) Rebuild.set 12 12 s = first at flag direct ⊢
  obtain ⟨_ | _, u⟩ := first
  · have short := of_decide_eq_false flag.symm
    refine direct.trans (and_congr_right fun _ => ⟨fun sound => ?_, InodeSound.direct⟩)
    exact ⟨sound, fun twelve => absurd twelve short, fun twelve => absurd twelve short,
      fun twelve => absurd twelve short⟩
  have twelve := of_decide_eq_true flag.symm
  obtain ⟨flag', single⟩ :=
    @traceSlots_safe n (traceLevel rawdata 1) (Reaches n rawdata 1) (traceLevel_safe 1) ip.iblocks
    (offset + 80) 3 (fun j bound => by omega) u
  dsimp only at direct ⊢
  generalize traceSlots ip.iblocks (offset + 80) (traceLevel rawdata 1) 3 3 u = second at flag' single ⊢
  obtain ⟨_ | _, v⟩ := second
  · have short := of_decide_eq_false flag'.symm
    dsimp only at single ⊢
    rw [single, direct, and_assoc]
    refine and_congr_right fun _ => ⟨fun ⟨sound, below⟩ => ?_, fun sound => ⟨sound.direct, sound.single twelve⟩⟩
    exact ⟨sound, fun _ => below, fun _ three => absurd three short, fun _ three => absurd three short⟩
  have three := of_decide_eq_true flag'.symm
  dsimp only at single ⊢
  rw [traceSlot_safe (traceLevel_safe 3) (by omega), traceSlot_safe (traceLevel_safe 2) (by omega), single, direct,
    and_assoc, and_assoc, and_assoc]
  refine and_congr_right fun _ => ⟨fun ⟨sound, below, twice, thrice⟩ => ?_, fun sound => ?_⟩
  · exact ⟨sound, fun _ => below, fun _ _ => twice, fun _ _ => thrice⟩
  · exact ⟨sound.direct, sound.single twelve, sound.double twelve three, sound.triple twelve three⟩

/-- The first pointer of an inode is always read. -/
theorem tracePopulate_first {s : Rebuild} (safe : Safe n (tracePopulate rawdata ip offset s)) :
    Safe n (s.read (offset + 32)) := by
  have direct : Safe n (traceSlots ip.dblocks (offset + 32) Rebuild.set 12 12 s).2 := by
    unfold tracePopulate at safe
    generalize traceSlots ip.dblocks (offset + 32) Rebuild.set 12 12 s = first at safe ⊢
    obtain ⟨_ | _, u⟩ := first
    · exact safe
    dsimp only at safe ⊢
    refine @traceSlots_before n (traceLevel rawdata 1) _ (traceLevel_safe 1) ip.iblocks (offset + 80) 3 3 u ?_
    generalize traceSlots ip.iblocks (offset + 80) (traceLevel rawdata 1) 3 3 u = second at safe ⊢
    obtain ⟨_ | _, v⟩ := second
    · exact safe
    · exact traceSlot_before (traceLevel_safe 2) (traceSlot_before (traceLevel_safe 3) safe)
  have first := @traceSlots_first n Rebuild.set _ (fun _ _ => safe_set) ip.dblocks (offset + 32) 12 11 s direct
  rwa [show ((12 - (11 + 1) : Nat) : Int) = 0 from rfl, mul_zero, add_zero] at first

end Inodes

/-- Slot `j` of block `i` as an `int` offset: it is negative, or the inode lies in the image. -/
theorem slot_offset {m : Int} (ordered : m ≤ n) {i j : Nat} (row : (i : Int) < m) (column : j < 10) :
    wrap32 (wrap32 (i * 1024) + j * 100) + 32 < 0 ∨
      0 ≤ wrap32 (wrap32 (i * 1024) + j * 100) ∧ wrap32 (wrap32 (i * 1024) + j * 100) + 100 ≤ n * 1024 := by
  have most := wrap32_le (x := i * 1024) (by omega)
  have limits := wrap32_range (i * 1024)
  have aligned : wrap32 ((i : Int) * 1024) % 1024 = 0 := by
    unfold wrap32
    rw [Int.bmod_def]
    split <;> omega
  rw [wrap32_of_range (x := wrap32 (i * 1024) + j * 100) (by omega) (by omega)]
  omega

theorem foldl_safe {α : Type} {op : Rebuild → α → Rebuild} {Q : α → Prop} (l : List α)
    (each : ∀ a ∈ l, ∀ s, Safe n (op s a) ↔ Safe n s ∧ Q a) : ∀ s, Safe n (l.foldl op s) ↔ Safe n s ∧
      ∀ a ∈ l, Q a := by
  induction l with
  | nil => simp
  | cons a l ih =>
    intro s
    rw [List.foldl_cons, ih fun b member => each b (List.mem_cons_of_mem _ member), each a (List.mem_cons_self ..),
      List.forall_mem_cons, and_assoc]

end Safety

/-- Every inode that `walk_inodes_insert` finds in the first `m` blocks lies in the image, as do its blocks. -/
def InodesSound (n m : Int) (rawdata : Bytes) : Prop :=
  ∀ i j : Nat, i < m → j < 10 → ∀ offset, wrap32 (wrap32 (i * 1024) + j * 100) = offset → isInode offset rawdata = true →
    0 ≤ offset ∧ InodeSound n rawdata (extractInodeFromData offset rawdata)

/-- `walk_inodes_insert` stays inside the bitmap and the image exactly when all block numbers that the
inodes lead to are block numbers of the image. -/
theorem traceInodesInsert_safe_iff {n m : Int} (ordered : m ≤ n) (rawdata bitmap : Bytes) :
    Safe n (traceInodesInsert rawdata m ⟨bitmap, [], []⟩) ↔ InodesSound n m rawdata := by
  have slot : ∀ a ∈ ((List.range m.toNat).flatMap fun i => (List.range 10).map fun j => (i, j)), ∀ s,
      Safe n (traceInsertSlot rawdata s a) ↔ Safe n s ∧ ∀ offset, wrap32 (wrap32 (a.1 * 1024) + a.2 * 100) = offset →
        isInode offset rawdata = true → 0 ≤ offset ∧ InodeSound n rawdata (extractInodeFromData offset rawdata) := by
    rintro ⟨i, j⟩ member s
    obtain ⟨row, column⟩ := mem_inodeSlots.mp member
    have place := slot_offset ordered row column
    dsimp only at place ⊢
    obtain ⟨offset, atSlot⟩ : ∃ offset, wrap32 (wrap32 ((i : Int) * 1024) + j * 100) = offset := ⟨_, rfl⟩
    rw [@traceInsertSlot_eq rawdata offset s (i, j) atSlot]
    rw [atSlot] at place
    simp only [atSlot, forall_eq']
    by_cases found : isInode offset rawdata = true
    swap
    · simp [found]
    rw [if_pos found]
    simp only [found, true_imp_iff]
    rcases place with before | ⟨start, fits⟩
    · refine iff_of_false (fun safe => ?_) fun both => ?_
      · have := (safe_read.mp (tracePopulate_first safe)).2.1
        omega
      · have := both.2.1
        omega
    · rw [tracePopulate_safe start fits, and_iff_right start]
  have empty : Safe n ⟨bitmap, [], []⟩ := ⟨by simp, by simp⟩
  rw [traceInodesInsert, foldl_safe _ slot, and_iff_right empty]
  unfold InodesSound
  constructor
  · exact fun sound i j row column => sound (i, j) (mem_inodeSlots.mpr ⟨row, column⟩)
  · rintro sound ⟨i, j⟩ member
    obtain ⟨row, column⟩ := mem_inodeSlots.mp member
    exact sound i j row column

/-- An image of one zero block leads nowhere. -/
theorem traceInodesInsert_safe_zero :
    Safe 1 (traceInodesInsert (fun _ => 0) 1 ⟨fun _ => 0, [], []⟩) ↔ InodesSound 1 1 fun _ => 0 :=
  traceInodesInsert_safe_iff le_rfl _ _

/-- An inode whose first pointer is -1 makes the walk set the entry before the bitmap. -/
theorem traceInodesInsert_unsafe :
    -1 ∈ (traceInodesInsert (writeInt 32 (-1) (writeInt 4 1 fun _ => 0)) 1 ⟨fun _ => 0, [], []⟩).sets ∧
      ¬ Safe 1 (traceInodesInsert (writeInt 32 (-1) (writeInt 4 1 fun _ => 0)) 1 ⟨fun _ => 0, [], []⟩) := by
  have set : -1 ∈ (traceInodesInsert (writeInt 32 (-1) (writeInt 4 1 fun _ => 0)) 1 ⟨fun _ => 0, [], []⟩).sets := by
    decide +kernel
  exact ⟨set, fun safe => absurd (safe.sets _ set).1 (by decide)⟩

end OsLabs.Inodes
