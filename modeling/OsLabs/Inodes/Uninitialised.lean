import OsLabs.Inodes.SessionRoom
import OsLabs.Inodes.ImageFile

namespace OsLabs.Inodes
open ByteMemory

/-- The blocks that a `-create` gives to the file, when it stores the file. -/
def chosen (heap : Heap) (n m : Int) (c : Command) : Option (Set Int) :=
  match mainCreate heap n m c with
  | .error _ => none
  | .ok (_, bitmap) => some (allocated n (markReserved m heap.bitmap) bitmap)

/-- Whatever the memory holds that `malloc` returns, and whatever is on the stack, the command leaves the
same image file and chooses the same blocks. -/
def CommandDecides (n m : Int) (c : Command) : Prop :=
  ∀ (heap heap' : Heap) (imageFile : List UInt8), heap.random = heap'.random →
    (runTask .create heap n m c imageFile).imageFile = (runTask .create heap' n m c imageFile).imageFile ∧
      chosen heap n m c = chosen heap' n m c

/-- As `blankHeap`, with one byte of block 0 behind its ten inodes set. -/
def dirtyHeap : Heap := { blankHeap with rawdata := fun p => if p = 1023 then 1 else 0 }

section Bounds
variable {n m d i : Int} (uid gid : Int) {file : List UInt8} (row : 0 ≤ d) (high : d < m) (ordered : m ≤ n)
  (small : n * 1024 < 2 ^ 31) (column : 0 ≤ i) (wide : i < 10)
include row high ordered small column wide

/-- With room for the file, a `-create` stores it wherever the memory happens to be zero in the right
places. Behind the ten inodes of block 0 the image keeps what the memory held. -/
theorem mainCreate_ok (room : (need file.length : Int) ≤ n - m) {heap : Heap}
    (free : ∀ b, m ≤ b → b < n → heap.bitmap b = 0)
    (vacant : ∀ p, InSlot (slotOffset d i) p → heap.rawdata p = 0) :
    ∃ raw bitmap, mainCreate heap n m ⟨some file, uid, gid, d, i⟩ = .ok (raw, bitmap) ∧
      raw 1023 = heap.rawdata 1023 := by
  have enough : need file.length ≤ (spare n m (markReserved m heap.bitmap)).length := by
    rw [spare_markReserved, length_spare_free free]
    omega
  have slot : isInode (slotOffset d i) heap.rawdata = false := isInode_zero vacant
  obtain ⟨⟨raw, bitmap⟩, run⟩ := (placeFile_ok_iff (by omega) ordered small row column).mpr ⟨high, wide, slot, enough⟩
  refine ⟨raw, bitmap, run, placeFile_frame (by omega) ordered small row column (by omega) ?_ run⟩
  unfold InSlot slotOffset
  omega

omit column wide in
theorem mainCreate_error (few : n - m < need file.length) (heap : Heap) :
    ∃ e, mainCreate heap n m ⟨some file, uid, gid, d, i⟩ = .error e := by
  cases run : mainCreate heap n m ⟨some file, uid, gid, d, i⟩ with
  | error e => exact ⟨e, rfl⟩
  | ok out =>
    obtain ⟨w, place, _⟩ := except_bind_ok run
    have enough := (placeBlocks_ok_iff (by omega) ordered small).mp ⟨w, place⟩
    have available := freeCount_le n m (markReserved m heap.bitmap)
    rw [length_spare] at enough
    omega

/-- A byte of the memory for the image that nothing has written appears in the image. -/
theorem not_decided (room : (need file.length : Int) ≤ n - m) : ¬ CommandDecides n m ⟨some file, uid, gid, d, i⟩ := by
  intro decided
  have slot : ∀ p, InSlot (slotOffset d i) p → dirtyHeap.rawdata p = 0 := by
    intro p inside
    unfold InSlot slotOffset at inside
    exact if_neg (by omega)
  obtain ⟨raw, bitmap, run, kept⟩ := mainCreate_ok uid gid row high ordered small column wide room
    (show ∀ b, m ≤ b → b < n → blankHeap.bitmap b = 0 from fun _ _ _ => rfl) fun _ _ => rfl
  obtain ⟨raw', bitmap', run', kept'⟩ := mainCreate_ok uid gid row high ordered small column wide room
    (show ∀ b, m ≤ b → b < n → dirtyHeap.bitmap b = 0 from fun _ _ _ => rfl) slot
  have same := (decided blankHeap dirtyHeap [] rfl).1
  simp only [runTask, run, run', List.nil_append] at same
  have byte := List.map_inj_left.mp same 1023 (List.mem_range.mpr (by rw [wrap32_of_range] <;> omega))
  change raw 1023 = raw' 1023 at byte
  rw [kept, kept'] at byte
  exact absurd byte (by decide)

/-- A `-create` depends on the command alone exactly when there is no room for the file in an empty image, so that
no run writes one. -/
theorem create_decided_iff : CommandDecides n m ⟨some file, uid, gid, d, i⟩ ↔ n - m < need file.length := by
  constructor
  · intro decided
    by_contra room
    exact not_decided uid gid row high ordered small column wide (not_lt.mp room) decided
  · intro few heap heap' imageFile _
    obtain ⟨e, run⟩ := mainCreate_error (i := i) uid gid row high ordered small few heap
    obtain ⟨e', run'⟩ := mainCreate_error (i := i) uid gid row high ordered small few heap'
    simp only [runTask, chosen, run, run', and_self]

end Bounds

theorem create_decided_byte : CommandDecides 2 1 ⟨some [65], 0, 0, 0, 0⟩ ↔ (2 : Int) - 1 < need [65].length :=
  create_decided_iff 0 0 (by decide) (by decide) (by decide) (by decide) (by decide) (by decide)

/-- One byte stored in an image of two blocks. -/
theorem create_undecided : ¬ CommandDecides 2 1 ⟨some [65], 0, 0, 0, 0⟩ :=
  not_decided 0 0 (by decide) (by decide) (by decide) (by decide) (by decide) (by decide) (by decide)

end OsLabs.Inodes
