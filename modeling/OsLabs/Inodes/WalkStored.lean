import OsLabs.Inodes.WalkInsert
import OsLabs.Inodes.StoredFile

namespace OsLabs.Inodes
open ByteMemory PointerTree

section Slots
variable {rawdata : Bytes}

/-- An array of the inode is walked up to its first zero pointer. -/
theorem populateSlots_eq {blocks : Nat → Int} {visit : Int → Bytes → Bytes} {k used count : Nat}
    (visits : ∀ b bitmap, visit b bitmap = marks (walked rawdata k b) bitmap) (fits : used ≤ count)
    (nonzero : ∀ j, j < used → blocks j ≠ 0) (zero : used < count → blocks used = 0) (left : Nat) :
    ∀ bitmap, left ≤ count → count - left ≤ used → populateSlots blocks visit count left bitmap =
      (decide (used = count), marks ((List.range' (count - left) (used - (count - left))).flatMap
        fun j => walked rawdata k (blocks j)) bitmap) := by
  induction left with
  | zero =>
    intro bitmap _ reached
    have all : used = count := by omega
    simp [populateSlots, all]
  | succ left ih =>
    intro bitmap bound reached
    unfold populateSlots
    by_cases last : count - (left + 1) = used
    · have stop : blocks (count - (left + 1)) = 0 := by
        rw [last]
        exact zero (by omega)
      have short : used ≠ count := by omega
      simp only [stop, if_true, short, decide_false]
      simp [last]
    · have next : count - (left + 1) + 1 = count - left := by omega
      have rest : used - (count - (left + 1)) = used - (count - left) + 1 := by omega
      simp only [nonzero _ (show count - (left + 1) < used by omega), if_false]
      rw [ih _ (by omega) (by omega), visits, ← marks_append, rest, List.range'_succ, next, List.flatMap_cons]

theorem populateSlots_full (blocks : Nat → Int) {visit : Int → Bytes → Bytes} {k count : Nat} (used : Nat)
    (visits : ∀ b bitmap, visit b bitmap = marks (walked rawdata k b) bitmap) (fits : used ≤ count)
    (nonzero : ∀ j, j < used → blocks j ≠ 0) (zero : used < count → blocks used = 0) (bitmap : Bytes) :
    populateSlots blocks visit count count bitmap =
      (decide (used = count), marks ((List.range used).flatMap fun j => walked rawdata k (blocks j)) bitmap) := by
  rw [populateSlots_eq visits fits nonzero zero count bitmap le_rfl (by omega), Nat.sub_self, Nat.sub_zero,
    List.range_eq_range']

theorem range_split {α : Type} (f : Nat → List α) {a n : Nat} (bound : a ≤ n) :
    (List.range n).flatMap f = (List.range a).flatMap f ++ (List.range (n - a)).flatMap fun j => f (a + j) := by
  obtain ⟨b, rfl⟩ := Nat.exists_eq_add_of_le bound
  rw [List.range_add, List.flatMap_append, List.flatMap_map, Nat.add_sub_cancel_left]

/-- `populate_bitmap_inode` marks what the pointers before the first zero one lead to. -/
theorem populateBitmapInode_eq {ip : Inode} {pointer : Nat → Int} {used : Nat}
    (direct : ∀ j, ip.dblocks j = pointer j) (single : ∀ j, ip.iblocks j = pointer (12 + j))
    (double : ip.i2block = pointer 15) (triple : ip.i3block = pointer 16) (fits : used ≤ 17)
    (nonzero : ∀ j, j < used → pointer j ≠ 0) (zero : ∀ j, used ≤ j → j < 17 → pointer j = 0) (bitmap : Bytes) :
    populateBitmapInode ip rawdata bitmap =
      marks ((List.range used).flatMap fun j => walked rawdata (slotLevel j) (pointer j)) bitmap := by
  have data : ∀ v, v ≤ 12 → (List.range v).flatMap (fun j => walked rawdata (slotLevel j) (pointer j)) =
      (List.range v).flatMap fun j => walked rawdata 0 (ip.dblocks j) := fun v bound =>
    List.flatMap_congr fun j member => by
      have below := List.mem_range.mp member
      rw [show slotLevel j = 0 from if_pos (by omega), direct]
  have indirect : ∀ v, v ≤ 3 →
      (List.range v).flatMap (fun j => walked rawdata (slotLevel (12 + j)) (pointer (12 + j))) =
      (List.range v).flatMap fun j => walked rawdata 1 (ip.iblocks j) := fun v bound =>
    List.flatMap_congr fun j member => by
      have below := List.mem_range.mp member
      rw [show slotLevel (12 + j) = 1 from (if_neg (by omega)).trans (if_pos (by omega)), single]
  have first := populateSlots_full ip.dblocks (min used 12) (setUsed_eq rawdata) (min_le_right _ _)
    (fun j bound => by rw [direct]; exact nonzero j (by omega))
    (fun short => by rw [direct]; exact zero _ (by omega) (by omega)) bitmap
  unfold populateBitmapInode
  by_cases fewDirect : used < 12
  · rw [first, min_eq_left fewDirect.le, data used fewDirect.le]
    simp [fewDirect.ne]
  rw [first, min_eq_right (not_lt.mp fewDirect), range_split _ (not_lt.mp fewDirect), data 12 le_rfl, marks_append]
  generalize marks ((List.range 12).flatMap fun j => walked rawdata 0 (ip.dblocks j)) bitmap = bitmap
  have second := populateSlots_full ip.iblocks (min (used - 12) 3) (walkIndirectBlock_eq rawdata)
    (min_le_right _ _) (fun j bound => by rw [single]; exact nonzero _ (by omega))
    (fun short => by rw [single]; exact zero _ (by omega) (by omega)) bitmap
  by_cases fewSingle : used < 15
  · rw [indirect _ (by omega)]
    simp only [second, decide_true, min_eq_left (show used - 12 ≤ 3 by omega)]
    simp [show used - 12 ≠ 3 by omega]
  rw [range_split _ (show 3 ≤ used - 12 by omega), indirect 3 le_rfl, marks_append]
  simp only [second, decide_true, min_eq_right (show 3 ≤ used - 12 by omega)]
  generalize marks ((List.range 3).flatMap fun j => walked rawdata 1 (ip.iblocks j)) bitmap = bitmap
  have last : ∀ f : Nat → List Int, (List.range (used - 12 - 3)).flatMap f =
      (if 15 < used then f 0 else []) ++ if 16 < used then f 1 else [] := by
    obtain rfl | rfl | rfl : used = 15 ∨ used = 16 ∨ used = 17 := by omega
    all_goals simp [List.range_succ]
  have twice : populateSlot (walkDoublyIndirectBlock rawdata) ip.i2block bitmap =
      marks (if 15 < used then walked rawdata (slotLevel 15) (pointer 15) else []) bitmap := by
    unfold populateSlot
    rw [double]
    by_cases some2 : 15 < used
    · rw [if_pos (nonzero 15 some2), if_pos some2, walkDoublyIndirectBlock_eq]
      rfl
    · rw [if_neg (not_not.mpr (zero 15 (by omega) (by decide))), if_neg some2, marks_nil]
  have thrice : ∀ bitmap, populateSlot (walkTriplyIndirectBlock rawdata) ip.i3block bitmap =
      marks (if 16 < used then walked rawdata (slotLevel 16) (pointer 16) else []) bitmap := by
    intro bitmap
    unfold populateSlot
    rw [triple]
    by_cases some3 : 16 < used
    · rw [if_pos (nonzero 16 some3), if_pos some3, walkTriplyIndirectBlock_eq]
      rfl
    · rw [if_neg (not_not.mpr (zero 16 (by omega) (by decide))), if_neg some3, marks_nil]
  rw [twice, thrice, last, marks_append]

end Slots

section StoredFile
variable {n m offset : Int} {rawdata : Bytes} {file : List UInt8} {subs : List Sub}
variable (reserved : 1 ≤ m) (small : n * 1024 < 2 ^ 31) (stored : Stored n m rawdata offset file subs)
include stored

theorem isInode_stored : isInode offset rawdata = true := by
  refine List.any_eq_true.mpr ⟨1, by decide, ?_⟩
  have nlink := stored.nlink
  simp only [Nat.cast_one, mul_one, nlink]
  decide

include reserved small

/-- The insert walker finds the blocks of a stored file and no others. -/
theorem populateBitmapInode_stored (bitmap : Bytes) :
    populateBitmapInode (extractInodeFromData offset rawdata) rawdata bitmap = marks (blocksOf subs) bitmap := by
  obtain ⟨direct, single, double, triple⟩ := extractInodeFromData_pointers rawdata offset
  have area : ∀ t ∈ subs, ∀ b ∈ nodes t.2, m ≤ b ∧ b < n := fun t member b inside =>
    stored.area b (mem_blocksOf member inside)
  rw [populateBitmapInode_eq direct single double triple stored.fits ?used ?unused]
  case used =>
    intro j bound
    have found : subs[j]? = some subs[j] := List.getElem?_eq_getElem bound
    have positive := area subs[j] (List.getElem_mem bound) _ (root_mem_nodes _)
    rw [stored.pointers j (lt_of_lt_of_le bound stored.fits), found]
    change root subs[j].2 ≠ 0
    omega
  case unused =>
    intro j past bound
    rw [stored.pointers j bound, List.getElem?_eq_none past]
    rfl
  have each : ∀ j t, subs[j]? = some t → walked rawdata (slotLevel j) (slotPointer rawdata offset j) = t.nodes := by
    intro j t found
    have member := List.mem_of_getElem? found
    have agree : ∀ b ∈ nodes t.2, entry rawdata b = readEntries rawdata b := fun b inside => by
      have inArea := area t member b inside
      exact readEntries_eq (by omega) (by omega)
    have whole := reach_tree ((stored.held t member).congr agree) ((stored.ended t member).congr agree)
      (stored.packed t member) (fun b inside => by have inArea := area t member b inside; omega)
    have bound : j < 17 := lt_of_lt_of_le (List.getElem?_eq_some_iff.mp found).1 stored.fits
    rw [stored.pointers j bound, found, ← stored.levels j t found]
    exact whole
  rw [flatMap_positions each, blocksOf]

end StoredFile

end OsLabs.Inodes
