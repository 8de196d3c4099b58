import OsLabs.Inodes.Sessions

namespace OsLabs.Inodes
open ByteMemory PointerTree

/-- Extracting the inode that `place_file` has just written returns the file
exactly when its size is a multiple of the block size; `mem` is the memory the
image is read into. -/
theorem extractFile_placeFile_iff {n m : Int} (reserved : 1 ≤ m) (ordered : m ≤ n) (small : n * 1024 < 2 ^ 31)
    {heap : Heap} {records : List Record} {file : List UInt8} {uid gid d i : Int}
    {raw bitmap raw' bitmap' mem : Bytes} (zeroed : heap.Zeroed n) (start : Start n m heap records raw bitmap)
    (row : 0 ≤ d) (column : 0 ≤ i) (run : placeFile heap (some file) uid gid d i m raw bitmap n = .ok (raw', bitmap'))
    (loaded : ∀ p, 0 ≤ p → p < n * 1024 → mem p = raw' p) :
    (extractFile (slotOffset d i) mem ⟨[], []⟩ (n * 1024)).out = file ↔ file.length % 1024 = 0 := by
  obtain ⟨layout, accounts⟩ := start_layout reserved ordered small zeroed start
  have stored := (layout.place reserved ordered small zeroed.ip row column accounts run).1.congr reserved ordered loaded
  have whole := extractFile_layout reserved small stored (List.mem_cons_self ..)
  simpa only [Record.offset] using whole

/-- Storing one byte in an image of three blocks succeeds. -/
theorem create_byte : ∃ raw bitmap, mainCreate blankHeap 3 1 ⟨some [65], 0, 0, 0, 0⟩ = .ok (raw, bitmap) := by
  have stored : (mainCreate blankHeap 3 1 ⟨some [65], 0, 0, 0, 0⟩).isOk = true := by decide +kernel
  cases run : mainCreate blankHeap 3 1 ⟨some [65], 0, 0, 0, 0⟩ with
  | error e => rw [run] at stored; cases stored
  | ok out => exact ⟨out.1, out.2, rfl⟩

theorem extractFile_byte_iff : ∃ raw bitmap, mainCreate blankHeap 3 1 ⟨some [65], 0, 0, 0, 0⟩ = .ok (raw, bitmap) ∧
    ((extractFile (slotOffset 0 0) raw ⟨[], []⟩ (3 * 1024)).out = [65] ↔ [65].length % 1024 = 0) := by
  obtain ⟨raw, bitmap, run⟩ := create_byte
  exact ⟨raw, bitmap, run, extractFile_placeFile_iff (by decide) (by decide) (by decide) (blankHeap_zeroed 3) .create
    le_rfl le_rfl run fun _ _ _ => rfl⟩

/-- A file of one byte comes back with more bytes. -/
theorem extractFile_byte_longer : ∃ raw bitmap,
    mainCreate blankHeap 3 1 ⟨some [65], 0, 0, 0, 0⟩ = .ok (raw, bitmap) ∧ blankHeap.Zeroed 3 ∧
      (extractFile (slotOffset 0 0) raw ⟨[], []⟩ (3 * 1024)).out ≠ [65] := by
  obtain ⟨raw, bitmap, run⟩ := create_byte
  obtain ⟨layout, accounts⟩ := create_start (n := 3) (m := 1) (by decide) (by decide) (blankHeap_zeroed 3)
  have stored := (layout.place (by decide) (by decide) (by decide) (blankHeap_zeroed 3).ip le_rfl le_rfl accounts run).1
  have whole := extractFile_layout (by decide) (by decide) stored (List.mem_cons_self ..)
  simp only [Record.offset, List.length_singleton, Nat.one_mod, one_ne_zero, iff_false] at whole
  exact ⟨raw, bitmap, run, blankHeap_zeroed 3, whole⟩

end OsLabs.Inodes
