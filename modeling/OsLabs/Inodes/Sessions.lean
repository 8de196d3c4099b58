import OsLabs.Inodes.Layout

namespace OsLabs.Inodes
open ByteMemory PointerTree

section Images
variable {n m : Int}

theorem fileLength (positive : 0 ≤ n) (small : n * 1024 < 2 ^ 31) : wrap32 (n * 1024) = n * 1024 :=
  wrap32_of_range (by omega) small

/-- Reading an image back yields the memory it was written from. -/
theorem loadImage_imageBytes (positive : 0 ≤ n) (small : n * 1024 < 2 ^ 31) (raw mem : Bytes) {p : Int}
    (lower : 0 ≤ p)
    (upper : p < n * 1024) : loadImage n (imageBytes n raw) mem p = raw p := by
  have inside : p.toNat < (n * 1024).toNat := by omega
  unfold loadImage imageBytes
  rw [fileLength positive small, if_pos ⟨lower, upper⟩, List.getElem?_map, List.getElem?_range inside]
  simp [Int.toNat_of_nonneg lower]

theorem imageBytes_getElem? (positive : 0 ≤ n) (small : n * 1024 < 2 ^ 31) (raw : Bytes) {p : Int} (lower : 0 ≤ p)
    (upper : p < n * 1024) : (imageBytes n raw)[p.toNat]? = some (raw p) := by
  have inside : p.toNat < (n * 1024).toNat := by omega
  unfold imageBytes
  rw [fileLength positive small, List.getElem?_map, List.getElem?_range inside]
  simp [Int.toNat_of_nonneg lower]

/-- Memory and bitmap as `main` passes them to `place_file`. -/
inductive Start (n m : Int) (heap : Heap) : List Record → Bytes → Bytes → Prop
  | create : Start n m heap [] heap.rawdata (markReserved m heap.bitmap)
  | insert {records : List Record} {image : List UInt8} (session : Session n m records image) :
      Start n m heap records (loadImage n image heap.rawdata) (insertBitmap heap n m image)

end Images

section Runs
variable {n m : Int} (reserved : 1 ≤ m) (ordered : m ≤ n) (small : n * 1024 < 2 ^ 31)
include reserved ordered small

omit small in
theorem create_start {heap : Heap} (zeroed : heap.Zeroed n) :
    Layout n m heap.rawdata [] ∧ Accounts n m (markReserved m heap.bitmap) [] := by
  refine ⟨Layout.empty reserved ordered zeroed.rawdata, fun b lower upper => ?_⟩
  have free : markReserved m heap.bitmap b = 0 := by
    rw [markReserved, if_neg (by omega), zeroed.bitmap b (by omega) upper]
  simp [free]

theorem insert_start {heap : Heap} {records : List Record} {raw : Bytes} (zeroed : heap.Zeroed n)
    (layout : Layout n m raw records) :
    Layout n m (loadImage n (imageBytes n raw) heap.rawdata) records ∧
      Accounts n m (insertBitmap heap n m (imageBytes n raw)) records := by
  have loaded : Layout n m (loadImage n (imageBytes n raw) heap.rawdata) records :=
    layout.congr reserved ordered fun p lower upper =>
      loadImage_imageBytes (by omega) small raw heap.rawdata lower upper
  refine ⟨loaded, fun b lower upper => ?_⟩
  have marked := walkInodesInsert_layout reserved ordered small loaded heap.bitmap b
  rw [zeroed.bitmap b (by omega) upper] at marked
  unfold insertBitmap
  rw [← not_iff_not, ← ne_eq, marked]
  simp

/-- Every image a session produces is laid out as its records say. -/
theorem session_layout {records : List Record} {image : List UInt8} (session : Session n m records image) :
    ∃ raw, image = imageBytes n raw ∧ Layout n m raw records := by
  induction session with
  | create zeroed row column input run =>
    obtain ⟨layout, accounts⟩ := create_start reserved ordered zeroed
    rw [mainCreate, input] at run
    exact ⟨_, rfl, (layout.place reserved ordered small zeroed.ip row column accounts run).1⟩
  | insert earlier zeroed row column input run ih =>
    obtain ⟨raw, rfl, layout⟩ := ih
    obtain ⟨loaded, accounts⟩ := insert_start reserved ordered small zeroed layout
    rw [mainInsert, input] at run
    exact ⟨_, rfl, (loaded.place reserved ordered small zeroed.ip row column accounts run).1⟩

theorem start_layout {heap : Heap} {records : List Record} {raw bitmap : Bytes} (zeroed : heap.Zeroed n)
    (start : Start n m heap records raw bitmap) : Layout n m raw records ∧ Accounts n m bitmap records := by
  cases start with
  | create => exact create_start reserved ordered zeroed
  | insert session =>
    obtain ⟨raw, rfl, layout⟩ := session_layout reserved ordered small session
    exact insert_start reserved ordered small zeroed layout

omit ordered in
/-- Extracting a recorded file from a laid out memory returns it exactly when
its size is a multiple of the block size. -/
theorem extractFile_layout {raw : Bytes} {records : List Record} (layout : Layout n m raw records) {r : Record}
    (member : r ∈ records) :
    (extractFile r.offset raw ⟨[], []⟩ (n * 1024)).out = r.file ↔ r.file.length % 1024 = 0 := by
  obtain ⟨_, _, subs, stored, _⟩ := layout.placed r member
  exact extractFile_stored_iff reserved small stored (layout.null reserved) []

end Runs

end OsLabs.Inodes
