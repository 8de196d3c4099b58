import OsLabs.Inodes.SessionRoom

namespace OsLabs.Inodes
open ByteMemory PointerTree

section Insert
variable {n m : Int} (reserved : 1 ≤ m) (ordered : m ≤ n) (small : n * 1024 < 2 ^ 31)
include reserved ordered small

omit ordered in
/-- Walking the inode of a recorded file alone finds the blocks recorded for it. -/
theorem populateBitmapInode_layout {raw : Bytes} {records : List Record} (layout : Layout n m raw records)
    {r : Record}
    (member : r ∈ records) (b : Int) :
    populateBitmapInode (extractInodeFromData r.offset raw) raw (fun _ => 0) b ≠ 0 ↔ b ∈ r.blocks := by
  obtain ⟨_, _, subs, stored, blocks⟩ := layout.placed r member
  rw [populateBitmapInode_stored reserved small stored, marks_apply, blocks]
  by_cases inFile : b ∈ blocksOf subs <;> simp [inFile]

/-- On every image of a session the insert walker rebuilds the allocation of
the files stored so far, the files lie apart from each other, and a further
insert changes no byte of theirs. -/
theorem insert_undisturbed {records : List Record} {image : List UInt8} (session : Session n m records image) :
    (∀ heap : Heap, heap.Zeroed n →
      (∀ b, m ≤ b → b < n → (insertBitmap heap n m image b ≠ 0 ↔ ∃ r ∈ records, b ∈ r.blocks)) ∧
      ∀ r ∈ records, ∀ b, b ∈ r.blocks ↔
        populateBitmapInode (extractInodeFromData r.offset (loadImage n image heap.rawdata))
          (loadImage n image heap.rawdata) (fun _ => 0) b ≠ 0) ∧
    records.Pairwise (fun r r' => (r.d, r.i) ≠ (r'.d, r'.i) ∧ ∀ b ∈ r.blocks, b ∉ r'.blocks) ∧
    ∀ (heap : Heap) (c : Command) (raw bitmap : Bytes), heap.Zeroed n → 0 ≤ c.d → 0 ≤ c.i →
      mainInsert heap n m c image = .ok (raw, bitmap) → ∀ r ∈ records, ∀ p, r.Owns p →
        image[p.toNat]? = some (raw p) ∧ (imageBytes n raw)[p.toNat]? = some (raw p) := by
  obtain ⟨raw, rfl, layout⟩ := session_layout reserved ordered small session
  refine ⟨fun heap zeroed => ?_, layout.slots.and layout.disjoint, ?_⟩
  · obtain ⟨loaded, accounts⟩ := insert_start reserved ordered small zeroed layout
    refine ⟨fun b lower upper => ?_, fun r member b => (populateBitmapInode_layout reserved small loaded member b).symm⟩
    rw [ne_eq, accounts b lower upper]
    simp
  · intro heap c raw' bitmap zeroed row column run r member p owns
    obtain ⟨loaded, accounts⟩ := insert_start reserved ordered small zeroed layout
    obtain ⟨lower, upper⟩ := (layout.placed r member).owns_range ordered owns
    cases input : c.input with
    | none => rw [mainInsert, input] at run; cases run
    | some file =>
      rw [mainInsert, input] at run
      have kept := (loaded.place reserved ordered small zeroed.ip row column accounts run).2 r member p owns
      rw [loadImage_imageBytes (by omega) small raw heap.rawdata lower upper] at kept
      rw [imageBytes_getElem? (by omega) small raw lower upper, imageBytes_getElem? (by omega) small raw' lower upper, kept]
      exact ⟨rfl, rfl⟩

end Insert

theorem insert_undisturbed_two : ∃ (records : List Record) (image : List UInt8), Session 20 1 records image ∧
    records.length = 2 ∧
    (∀ b, 1 ≤ b → b < 20 → (insertBitmap blankHeap 20 1 image b ≠ 0 ↔ ∃ r ∈ records, b ∈ r.blocks)) ∧
    records.Pairwise (fun r r' => (r.d, r.i) ≠ (r'.d, r'.i) ∧ ∀ b ∈ r.blocks, b ∉ r'.blocks) := by
  obtain ⟨records, image, session, blocks, blocks', two⟩ := session_two
  have undisturbed := insert_undisturbed (by decide) (by decide) (by decide) session
  exact ⟨records, image, session, by rw [two]; rfl, (undisturbed.1 blankHeap (blankHeap_zeroed 20)).1, undisturbed.2.1⟩

end OsLabs.Inodes
