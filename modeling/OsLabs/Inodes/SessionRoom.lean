import OsLabs.Inodes.Budget
import OsLabs.Inodes.Sessions
import OsLabs.Inodes.InodeSlot

namespace OsLabs.Inodes
open ByteMemory PointerTree

/-- Marking the reserved blocks changes nothing about the free ones of the data area. -/
theorem spare_markReserved (n m : Int) (bitmap : Bytes) : spare n m (markReserved m bitmap) = spare n m bitmap :=
  spare_congr fun b lower _ => by rw [markReserved, if_neg (by omega)]

section Runs
variable {n m : Int} (reserved : 1 ≤ m) (ordered : m ≤ n) (small : n * 1024 < 2 ^ 31)
  {heap : Heap} {file : List UInt8} {uid gid d i : Int} {raw bitmap raw' bitmap' : Bytes}
include reserved ordered small

/-- The part before `place_inode` writes nothing into an inode slot. -/
theorem placeBlocks_isInode {w : Placing} (high : d < m) (wide : i < 10)
    (run : placeBlocks heap file uid gid m raw bitmap n = .ok w) :
    isInode (slotOffset d i) w.rawdata = isInode (slotOffset d i) raw := by
  obtain ⟨s, subs, rawEq, -, grew, -⟩ := placeBlocks_spec (by omega) ordered small run
  rw [← rawEq]
  exact isInode_congr fun p inside => grew.grows.frame p fun b member =>
    slot_not_in_block high wide (grew.grows.area b member).1 inside

/-- A file is stored exactly when its slot is a vacant one of a reserved block and there are blocks enough. -/
theorem placeFile_ok_iff (row : 0 ≤ d) (column : 0 ≤ i) :
    (∃ out, placeFile heap (some file) uid gid d i m raw bitmap n = .ok out) ↔
      d < m ∧ i < 10 ∧ isInode (slotOffset d i) raw = false ∧ need file.length ≤ (spare n m bitmap).length := by
  have budget : (∃ w, placeBlocks heap file uid gid m raw bitmap n = .ok w) ↔
      need file.length ≤ (spare n m bitmap).length := placeBlocks_ok_iff (by omega) ordered small
  rw [← budget]
  constructor
  · rintro ⟨out, run⟩
    obtain ⟨w, blocks, run⟩ := except_bind_ok run
    obtain ⟨final, inode, -⟩ := except_bind_ok run
    obtain ⟨high, wide, vacant, -⟩ := placeInode_spec ordered small row column inode
    rw [placeBlocks_isInode reserved ordered small high wide blocks] at vacant
    exact ⟨high, wide, vacant, w, blocks⟩
  · rintro ⟨high, wide, vacant, w, blocks⟩
    have inode : placeInode d i m w.rawdata w.ip =
        .ok (memcpy (placeOffset d i) (bytesOfWords w.ip.word) 100 w.rawdata) := by
      rw [placeInode_eq, if_neg (not_le.mpr high), if_neg (not_le.mpr wide),
        placeOffset_slot (by omega) row high column wide, placeBlocks_isInode reserved ordered small high wide blocks,
        vacant, if_neg Bool.false_ne_true]
    unfold placeFile
    dsimp only
    rw [blocks]
    show ∃ out, ((placeInode d i m w.rawdata w.ip).bind fun rawdata => .ok (rawdata, w.bitmap)) = _
    rw [inode]
    exact ⟨_, rfl⟩

/-- Of the reserved blocks a stored file changes its slot only. -/
theorem placeFile_frame (row : 0 ≤ d) (column : 0 ≤ i) {p : Int} (below : p < m * 1024)
    (out : ¬ InSlot (slotOffset d i) p)
    (run : placeFile heap (some file) uid gid d i m raw bitmap n = .ok (raw', bitmap')) : raw' p = raw p := by
  obtain ⟨w, blocks, run⟩ := except_bind_ok run
  obtain ⟨final, inode, same⟩ := except_bind_ok run
  obtain ⟨rfl, rfl⟩ := Prod.mk.inj (Except.ok.inj same)
  obtain ⟨s, subs, rawEq, -, grew, -⟩ := placeBlocks_spec (by omega) ordered small blocks
  obtain ⟨-, -, -, rfl⟩ := placeInode_spec ordered small row column inode
  rw [memcpy_slot_outside out, grew.grows.frame p fun b member inside => ?_, rawEq]
  have lower := (grew.grows.area b member).1
  unfold InBlock at inside
  omega

/-- Afterwards the first free blocks are taken. -/
theorem placeFile_spare (run : placeFile heap (some file) uid gid d i m raw bitmap n = .ok (raw', bitmap')) :
    need file.length ≤ (spare n m bitmap).length ∧ spare n m bitmap' = (spare n m bitmap).drop (need file.length) ∧
      ∀ b, bitmap' b = 0 → bitmap b = 0 := by
  obtain ⟨w, blocks, run⟩ := except_bind_ok run
  obtain ⟨final, -, same⟩ := except_bind_ok run
  obtain ⟨rfl, rfl⟩ := Prod.mk.inj (Except.ok.inj same)
  obtain ⟨_, _, _, _, _, _, _, _, _, _, _, short⟩ := placeBlocks_spec (by omega) ordered small blocks
  obtain ⟨s, rfl, outcome⟩ := placeBlocks_cost ordered short heap uid gid raw bitmap
  rw [blocks] at outcome
  cases outcome with
  | spent spends =>
    refine ⟨spends.enough, spends.remaining, fun b free => ?_⟩
    have marked := spends.bitmap b
    rw [id_eq, free] at marked
    split at marked
    · cases marked
    · exact marked.symm

variable {records : List Record}

/-- The bitmap that `place_file` leaves accounts for the file too. -/
theorem Accounts.place (accounts : Accounts n m bitmap records)
    (run : placeFile heap (some file) uid gid d i m raw bitmap n = .ok (raw', bitmap')) :
    Accounts n m bitmap' (⟨d, i, file, allocated n bitmap bitmap'⟩ :: records) := by
  obtain ⟨-, -, kept⟩ := placeFile_spare reserved ordered small run
  intro b lower upper
  rw [List.forall_mem_cons, ← accounts b lower upper]
  constructor
  · intro free
    exact ⟨fun taken => taken.2.2.2 free, kept b free⟩
  · rintro ⟨other, free⟩
    by_contra taken
    exact other ⟨by omega, upper, free, taken⟩

/-- The next command of a session finds as many blocks less as the file needs. -/
theorem length_spare_stored {heap' : Heap} (layout : Layout n m raw records) (accounts : Accounts n m bitmap records)
    (zeroed : ∀ k, heap.ip.word k = 0) (row : 0 ≤ d) (column : 0 ≤ i) (zeroed' : heap'.Zeroed n)
    (run : placeFile heap (some file) uid gid d i m raw bitmap n = .ok (raw', bitmap')) :
    (spare n m (insertBitmap heap' n m (imageBytes n raw'))).length + need file.length =
      (spare n m bitmap).length := by
  obtain ⟨enough, left, -⟩ := placeFile_spare reserved ordered small run
  have after := accounts.place reserved ordered small run
  obtain ⟨-, rebuilt⟩ := insert_start reserved ordered small zeroed'
    (layout.place reserved ordered small zeroed row column accounts run).1
  rw [spare_congr fun b lower upper => (rebuilt b lower upper).trans (after b lower upper).symm, left,
    List.length_drop]
  omega

/-- What the stored files have left of the data area. -/
theorem session_spare {image : List UInt8} (session : Session n m records image) (zeroed : heap.Zeroed n) :
    (spare n m (insertBitmap heap n m image)).length + (records.map fun r => need r.file.length).sum =
      (n - m).toNat := by
  induction session generalizing heap with
  | @create first c file raw bitmap blank row column input run =>
    obtain ⟨layout, accounts⟩ := create_start reserved ordered blank
    rw [mainCreate, input] at run
    have less := length_spare_stored reserved ordered small layout accounts blank.ip row column zeroed run
    rw [spare_markReserved, length_spare_free fun b lower upper => blank.bitmap b (by omega) upper] at less
    rwa [List.map_singleton, List.sum_singleton]
  | @insert first c file raw bitmap records image earlier blank row column input run ih =>
    obtain ⟨raw, rfl, layout⟩ := session_layout reserved ordered small earlier
    obtain ⟨loaded, accounts⟩ := insert_start reserved ordered small blank layout
    rw [mainInsert, input] at run
    have less := length_spare_stored reserved ordered small loaded accounts blank.ip row column zeroed run
    rw [List.map_cons, List.sum_cons, ← ih blank, ← less, Nat.add_assoc]
    rfl

omit reserved ordered small in
/-- A slot of a laid out image is vacant when no file is recorded there. -/
theorem Layout.vacant_iff (layout : Layout n m raw records) (row : 0 ≤ d) (high : d < m) (column : 0 ≤ i)
    (wide : i < 10) : isInode (slotOffset d i) raw = false ↔ ∀ r ∈ records, (d, i) ≠ (r.d, r.i) := by
  refine ⟨fun vacant r member same => ?_, layout.vacant d i row high column wide⟩
  obtain ⟨_, _, subs, stored, _⟩ := layout.placed r member
  cases same
  have filled := isInode_stored stored
  rw [Record.offset, vacant] at filled
  cases filled

variable {c : Command} (row : 0 ≤ c.d) (column : 0 ≤ c.i) (input : c.input = some file) (zeroed : heap.Zeroed n)
include row column input zeroed

/-- A first file is stored exactly when its slot exists and the data area is large enough. -/
theorem mainCreate_ok_iff : (∃ out, mainCreate heap n m c = .ok out) ↔
    c.d < m ∧ c.i < 10 ∧ need file.length ≤ (n - m).toNat := by
  obtain ⟨layout, -⟩ := create_start reserved ordered zeroed
  rw [mainCreate, input, placeFile_ok_iff reserved ordered small row column, spare_markReserved,
    length_spare_free fun b lower upper => zeroed.bitmap b (by omega) upper]
  refine and_congr_right fun high => and_congr_right fun wide => and_iff_right ?_
  exact layout.vacant c.d c.i row high column wide fun _ member => absurd member List.not_mem_nil

/-- A further file is stored exactly when its slot exists and is vacant and the blocks that it needs are left. -/
theorem mainInsert_ok_iff {image : List UInt8} (session : Session n m records image) :
    (∃ out, mainInsert heap n m c image = .ok out) ↔
      c.d < m ∧ c.i < 10 ∧ (∀ r ∈ records, (c.d, c.i) ≠ (r.d, r.i)) ∧
        need file.length + (records.map fun r => need r.file.length).sum ≤ (n - m).toNat := by
  have left := session_spare reserved ordered small session zeroed
  obtain ⟨raw, rfl, layout⟩ := session_layout reserved ordered small session
  obtain ⟨loaded, -⟩ := insert_start reserved ordered small zeroed layout
  rw [mainInsert, input, placeFile_ok_iff reserved ordered small row column]
  refine and_congr_right fun high => and_congr_right fun wide => and_congr ?_ (by omega)
  exact loaded.vacant_iff row high column wide

end Runs

/-- A file that needs an indirect block. -/
def longFile : List UInt8 := List.replicate (12 * 1024 + 1) 65

theorem need_longFile : need longFile.length = 14 := by
  rw [longFile, List.length_replicate]
  decide

/-- A long file is stored in an image of twenty blocks, and then one of a single byte. -/
theorem session_two : ∃ (records : List Record) (image : List UInt8), Session 20 1 records image ∧
    ∃ blocks blocks', records = [⟨0, 1, [66], blocks'⟩, ⟨0, 0, longFile, blocks⟩] := by
  have zeroed := blankHeap_zeroed 20
  obtain ⟨⟨raw, bitmap⟩, run⟩ := (mainCreate_ok_iff (n := 20) (m := 1) (c := ⟨some longFile, 0, 0, 0, 0⟩) (by decide)
    (by decide) (by decide) le_rfl le_rfl rfl zeroed).mpr ⟨by decide, by decide, by rw [need_longFile]; decide⟩
  have first := Session.create (c := ⟨some longFile, 0, 0, 0, 0⟩) zeroed le_rfl le_rfl rfl run
  have vacant : ∀ r ∈ [Command.record ⟨some longFile, 0, 0, 0, 0⟩ longFile 20
      (markReserved 1 blankHeap.bitmap) bitmap],
      ((0 : Int), (1 : Int)) ≠ (r.d, r.i) := fun r member => by
    obtain rfl := List.mem_singleton.mp member
    exact fun same => absurd (Prod.mk.inj same).2 one_ne_zero
  have room : need [66].length + ([Command.record ⟨some longFile, 0, 0, 0, 0⟩ longFile 20
      (markReserved 1 blankHeap.bitmap) bitmap].map fun r => need r.file.length).sum ≤ ((20 : Int) - 1).toNat := by
    rw [List.map_singleton, List.sum_singleton, Command.record, need_longFile]
    decide
  obtain ⟨⟨raw', bitmap'⟩, run'⟩ :=
    (mainInsert_ok_iff (c := ⟨some [66], 0, 0, 0, 1⟩) (by decide) (by decide) (by decide)
    le_rfl zero_le_one rfl zeroed first).mpr ⟨by decide, by decide, vacant, room⟩
  exact ⟨_, _, first.insert (c := ⟨some [66], 0, 0, 0, 1⟩) zeroed le_rfl zero_le_one rfl run', _, _, rfl⟩

/-- Each command of a session gets through exactly when its slot exists and is vacant and the image has room for all
the files. -/
theorem commands_accepted_iff {n m : Int} (reserved : 1 ≤ m) (ordered : m ≤ n) (small : n * 1024 < 2 ^ 31) {heap : Heap}
    (zeroed : heap.Zeroed n) {c : Command} {file : List UInt8} (row : 0 ≤ c.d) (column : 0 ≤ c.i)
    (input : c.input = some file) :
    ((∃ out, mainCreate heap n m c = .ok out) ↔ c.d < m ∧ c.i < 10 ∧ need file.length ≤ (n - m).toNat) ∧
      ∀ records image, Session n m records image → ((∃ out, mainInsert heap n m c image = .ok out) ↔
        c.d < m ∧ c.i < 10 ∧ (∀ r ∈ records, (c.d, c.i) ≠ (r.d, r.i)) ∧
          need file.length + (records.map fun r => need r.file.length).sum ≤ (n - m).toNat) :=
  ⟨mainCreate_ok_iff reserved ordered small row column input zeroed, fun _ _ session =>
    mainInsert_ok_iff reserved ordered small row column input zeroed session⟩

theorem commands_accepted_two : ∃ (records : List Record) (image : List UInt8), Session 20 1 records image ∧
    records.length = 2 ∧ ((∃ out, mainInsert blankHeap 20 1 ⟨some [67], 0, 0, 0, 2⟩ image = .ok out) ↔
      (0 : Int) < 1 ∧ (2 : Int) < 10 ∧ (∀ r ∈ records, ((0 : Int), (2 : Int)) ≠ (r.d, r.i)) ∧
        need [67].length + (records.map fun r => need r.file.length).sum ≤ ((20 : Int) - 1).toNat) := by
  obtain ⟨records, image, session, blocks, blocks', two⟩ := session_two
  exact ⟨records, image, session, by rw [two]; rfl, (commands_accepted_iff (c := ⟨some [67], 0, 0, 0, 2⟩) (by decide)
    (by decide) (by decide) (blankHeap_zeroed 20) le_rfl zero_le_two rfl).2 records image session⟩

end OsLabs.Inodes
