import OsLabs.Inodes.ExtractStored
import OsLabs.Inodes.WalkStored
import OsLabs.Inodes.Commands

namespace OsLabs.Inodes
open ByteMemory PointerTree

def Record.offset (r : Record) : Int := slotOffset r.d r.i

/-- The record of a file stored in the memory, in a slot of its own. -/
structure Placed (n m : Int) (rawdata : Bytes) (r : Record) : Prop where
  row : 0 ≤ r.d ∧ r.d < m
  column : 0 ≤ r.i ∧ r.i < 10
  tree : ∃ subs, Stored n m rawdata r.offset r.file subs ∧ r.blocks = {b | b ∈ blocksOf subs}

/-- The memory holds the recorded files, apart from each other, and is zero in
the free blocks and in the vacant inode slots. -/
structure Layout (n m : Int) (rawdata : Bytes) (records : List Record) : Prop where
  placed : ∀ r ∈ records, Placed n m rawdata r
  slots : records.Pairwise fun r r' => (r.d, r.i) ≠ (r'.d, r'.i)
  disjoint : records.Pairwise fun r r' => ∀ b ∈ r.blocks, b ∉ r'.blocks
  vacant : ∀ d i, 0 ≤ d → d < m → 0 ≤ i → i < 10 → (∀ r ∈ records, (d, i) ≠ (r.d, r.i)) →
    isInode (slotOffset d i) rawdata = false
  blank : ∀ b, m ≤ b → b < n → (∀ r ∈ records, b ∉ r.blocks) → ∀ p, InBlock b p → rawdata p = 0

/-- The bytes a stored file consists of: its inode and its blocks. -/
def Record.Owns (r : Record) (p : Int) : Prop := InSlot r.offset p ∨ ∃ b ∈ r.blocks, InBlock b p

theorem Placed.congr {n m : Int} {raw raw' : Bytes} {r : Record} (placed : Placed n m raw r)
    (same : ∀ p, r.Owns p → raw' p = raw p) : Placed n m raw' r := by
  obtain ⟨row, column, subs, stored, blocks⟩ := placed
  refine ⟨row, column, subs,
    stored.congr (fun b member p inside => ?_) (fun p inside => same p (.inl inside)), blocks⟩
  exact same p (.inr ⟨b, by rw [blocks]; exact member, inside⟩)

/-- Two inode slots never overlap. -/
theorem slot_unique {d i d' i' p : Int} (column : 0 ≤ i ∧ i < 10) (column' : 0 ≤ i' ∧ i' < 10)
    (inside : InSlot (slotOffset d i) p) (inside' : InSlot (slotOffset d' i') p) : (d, i) = (d', i') := by
  unfold InSlot slotOffset at inside inside'
  obtain rfl : d = d' := by omega
  obtain rfl : i = i' := by omega
  rfl

theorem block_unique {b b' p : Int} (inside : InBlock b p) (inside' : InBlock b' p) : b = b' := by
  unfold InBlock at inside inside'
  omega

section Bounds
variable {n m : Int} {raw raw' : Bytes} {records : List Record}

theorem Placed.area {r : Record} (placed : Placed n m raw r) {b : Int} (member : b ∈ r.blocks) : m ≤ b ∧ b < n := by
  obtain ⟨subs, stored, blocks⟩ := placed.tree
  rw [blocks] at member
  exact stored.area b member

/-- An inode slot lies below the data area. -/
theorem slot_not_in_block {d i b p : Int} (row : d < m) (column : i < 10) (area : m ≤ b)
    (inside : InSlot (slotOffset d i) p) : ¬ InBlock b p := by
  unfold InSlot slotOffset at inside
  unfold InBlock
  omega

/-- What a record owns lies inside the image. -/
theorem Placed.owns_range (ordered : m ≤ n) {r : Record} (placed : Placed n m raw r) {p : Int}
    (owns : r.Owns p) : 0 ≤ p ∧ p < n * 1024 := by
  have row := placed.row
  have column := placed.column
  rcases owns with inside | ⟨b, member, inside⟩
  · unfold InSlot Record.offset slotOffset at inside
    omega
  · have area := placed.area member
    unfold InBlock at inside
    omega

theorem Layout.congr (reserved : 1 ≤ m) (ordered : m ≤ n) (layout : Layout n m raw records)
    (same : ∀ p, 0 ≤ p → p < n * 1024 → raw' p = raw p) : Layout n m raw' records := by
  refine ⟨fun r member => ?_, layout.slots, layout.disjoint, fun d i row high column wide other => ?_,
    fun b lower upper free p inside => ?_⟩
  · have placed := layout.placed r member
    refine placed.congr fun p owns => ?_
    obtain ⟨lower, upper⟩ := placed.owns_range ordered owns
    exact same p lower upper
  · rw [isInode_congr fun p inside => ?_]
    · exact layout.vacant d i row high column wide other
    · unfold InSlot slotOffset at inside
      exact same p (by omega) (by omega)
  · have value := layout.blank b lower upper free p inside
    unfold InBlock at inside
    rw [same p (by omega) (by omega), value]

theorem isInode_zero {offset : Int} (zero : ∀ p, InSlot offset p → raw p = 0) : isInode offset raw = false := by
  refine List.any_eq_false.mpr fun k member => ?_
  have bound := List.mem_range.mp member
  rw [readInt_zero fun p lower upper => zero p ⟨by omega, by omega⟩]
  decide

theorem Layout.empty (reserved : 1 ≤ m) (ordered : m ≤ n) (zero : ∀ p, 0 ≤ p → p < n * 1024 → raw p = 0) :
    Layout n m raw [] := by
  refine ⟨fun r member => absurd member List.not_mem_nil, .nil, .nil, fun d i row high column wide _ => ?_,
    fun b lower upper _ p inside => ?_⟩
  · refine isInode_zero fun p inside => ?_
    unfold InSlot slotOffset at inside
    exact zero p (by omega) (by omega)
  · unfold InBlock at inside
    exact zero p (by omega) (by omega)

/-- Word 0 of the image is the mode of an inode or lies in a vacant slot. -/
theorem Layout.null (reserved : 1 ≤ m) (layout : Layout n m raw records) : readInt 0 raw = 0 := by
  by_cases taken : ∃ r ∈ records, ((0 : Int), (0 : Int)) = (r.d, r.i)
  · obtain ⟨r, member, same⟩ := taken
    obtain ⟨_, _, subs, stored, _⟩ := layout.placed r member
    have mode := stored.mode
    simp only [Prod.mk.injEq] at same
    rwa [Record.offset, slotOffset, ← same.1, ← same.2] at mode
  · have vacant := layout.vacant 0 0 le_rfl (by omega) le_rfl (by decide)
      (fun r member same => taken ⟨r, member, same⟩)
    unfold isInode at vacant
    have first := List.any_eq_false.mp vacant 0 (by decide)
    simpa [slotOffset] using first

/-- The bitmap of the data area marks exactly the blocks of the recorded files. -/
def Accounts (n m : Int) (bitmap : Bytes) (records : List Record) : Prop :=
  ∀ b, m ≤ b → b < n → (bitmap b = 0 ↔ ∀ r ∈ records, b ∉ r.blocks)

/-- A successful `place_file` adds one record and leaves the others alone. -/
theorem Layout.place (reserved : 1 ≤ m) (ordered : m ≤ n) (small : n * 1024 < 2 ^ 31)
    (layout : Layout n m raw records) {heap : Heap} {file : List UInt8} {uid gid d i : Int} {bitmap bitmap' : Bytes}
    (zeroed : ∀ k, heap.ip.word k = 0) (row : 0 ≤ d) (column : 0 ≤ i) (accounts : Accounts n m bitmap records)
    (run : placeFile heap (some file) uid gid d i m raw bitmap n = .ok (raw', bitmap')) :
    Layout n m raw' (⟨d, i, file, allocated n bitmap bitmap'⟩ :: records) ∧
      ∀ r ∈ records, ∀ p, r.Owns p → raw' p = raw p := by
  obtain ⟨_, subs, same, high, wide, placement⟩ := placeFile_spec reserved ordered small (fun j => zeroed (j + 8)) row
    column (fun b lower upper free => layout.blank b lower upper ((accounts b lower upper).mp free)) run
  cases same
  have blocks : allocated n bitmap bitmap' = {b | b ∈ blocksOf subs} := by
    ext b
    simp only [allocated, Set.mem_ofPred_eq, placement.marked]
    by_cases member : b ∈ blocksOf subs
    · have area := placement.stored.area b member
      have free := placement.free b member
      simp only [member, if_true, free, iff_true]
      exact ⟨by omega, area.2, trivial, by decide⟩
    · simp only [member, if_false, iff_false]
      exact fun marked => marked.2.2.2 marked.2.2.1
  have fresh : ∀ b ∈ blocksOf subs, ∀ r ∈ records, b ∉ r.blocks := fun b member =>
    (accounts b (placement.stored.area b member).1 (placement.stored.area b member).2).mp (placement.free b member)
  have other : ∀ r ∈ records, (d, i) ≠ (r.d, r.i) := by
    intro r member same
    obtain ⟨_, _, subs', stored, _⟩ := layout.placed r member
    cases same
    have filled := isInode_stored stored
    rw [Record.offset, placement.vacant] at filled
    cases filled
  have kept : ∀ r ∈ records, ∀ p, r.Owns p → raw' p = raw p := by
    intro r member p owns
    have placed := layout.placed r member
    refine placement.frame p (fun b inFile inside => ?_) fun inSlot => ?_
    · rcases owns with slot | ⟨b', owned, inside'⟩
      · exact slot_not_in_block placed.row.2 placed.column.2 (placement.stored.area b inFile).1 slot inside
      · exact fresh b inFile r member (block_unique inside' inside ▸ owned)
    · rcases owns with slot | ⟨b', owned, inside'⟩
      · exact other r member (slot_unique ⟨column, wide⟩ placed.column inSlot slot)
      · exact slot_not_in_block high wide (placed.area owned).1 inSlot inside'
  refine ⟨⟨fun r member => ?_, ?_, ?_, fun d' i' row' high' column' wide' vacant => ?_,
    fun b lower upper free p inside => ?_⟩, kept⟩
  · rcases List.mem_cons.mp member with rfl | member
    · exact ⟨⟨row, high⟩, ⟨column, wide⟩, subs, placement.stored, blocks⟩
    · exact (layout.placed r member).congr (kept r member)
  · exact List.pairwise_cons.mpr ⟨other, layout.slots⟩
  · refine List.pairwise_cons.mpr ⟨fun r member => ?_, layout.disjoint⟩
    rw [blocks]
    exact fun b inFile => fresh b inFile r member
  · obtain ⟨notThis, notOthers⟩ := List.forall_mem_cons.mp vacant
    rw [isInode_congr fun p inside => placement.frame p
      (fun b member => slot_not_in_block high' wide' (placement.stored.area b member).1 inside)
      fun inSlot => notThis (slot_unique ⟨column', wide'⟩ ⟨column, wide⟩ inside inSlot)]
    exact layout.vacant d' i' row' high' column' wide' notOthers
  · obtain ⟨notThis, notOthers⟩ := List.forall_mem_cons.mp free
    rw [blocks] at notThis
    rw [placement.frame p (fun b' member inside' => notThis (block_unique inside inside' ▸ member)) fun inSlot =>
      slot_not_in_block high wide lower inSlot inside]
    exact layout.blank b lower upper notOthers p inside

instance : Std.Symm fun r r' : Record => (r.d, r.i) ≠ (r'.d, r'.i) := ⟨fun _ _ => Ne.symm⟩

/-- Walking one slot marks the blocks of the file recorded there, if there is one. -/
theorem insertSlot_layout (reserved : 1 ≤ m) (ordered : m ≤ n) (small : n * 1024 < 2 ^ 31)
    (layout : Layout n m raw records) (slot : Nat × Nat) (row : (slot.1 : Int) < m) (column : slot.2 < 10) :
    ∃ bs, (∀ bitmap, insertSlot raw bitmap slot = marks bs bitmap) ∧
      ∀ b, b ∈ bs ↔ ∃ r ∈ records, ((slot.1 : Int), (slot.2 : Int)) = (r.d, r.i) ∧ b ∈ r.blocks := by
  have offset : wrap32 (wrap32 ((slot.1 : Int) * 1024) + slot.2 * 100) = slotOffset slot.1 slot.2 := by
    rw [wrap32_of_range (x := (slot.1 : Int) * 1024) (by omega) (by omega)]
    exact wrap32_of_range (by omega) (by omega)
  unfold insertSlot
  rw [offset]
  by_cases taken : ∃ r ∈ records, ((slot.1 : Int), (slot.2 : Int)) = (r.d, r.i)
  · obtain ⟨r, member, same⟩ := taken
    obtain ⟨_, _, subs, stored, blocks⟩ := layout.placed r member
    have here : r.offset = slotOffset slot.1 slot.2 := by
      simp only [Prod.mk.injEq] at same
      rw [Record.offset, same.1, same.2]
    rw [here] at stored
    refine ⟨blocksOf subs, fun bitmap => ?_, fun b => ⟨fun inFile => ⟨r, member, same, ?_⟩, ?_⟩⟩
    · rw [if_pos (isInode_stored stored), populateBitmapInode_stored reserved small stored]
    · rw [blocks]
      exact inFile
    · rintro ⟨r', member', same', owned⟩
      have only : r' = r := by
        by_contra different
        exact layout.slots.forall (R := fun r r' : Record => (r.d, r.i) ≠ (r'.d, r'.i)) member' member different
          (same'.symm.trans same)
      rw [only, blocks] at owned
      exact owned
  · have vacant := layout.vacant slot.1 slot.2 (by omega) row (by omega) (by omega)
      fun r member same => taken ⟨r, member, same⟩
    refine ⟨[], fun bitmap => by simp [vacant], fun b => ⟨fun member => absurd member List.not_mem_nil, ?_⟩⟩
    rintro ⟨r, member, same, _⟩
    exact absurd ⟨r, member, same⟩ taken

theorem foldl_marks {α : Type} {f : Bytes → α → Bytes} {blocks : α → List Int} (xs : List α) (bitmap : Bytes)
    (each : ∀ x ∈ xs, ∀ bitmap, f bitmap x = marks (blocks x) bitmap) :
    xs.foldl f bitmap = marks (xs.flatMap blocks) bitmap := by
  induction xs generalizing bitmap with
  | nil => rfl
  | cons x xs ih =>
    rw [List.foldl_cons, each x (List.mem_cons_self ..), ih _ fun y member => each y (List.mem_cons_of_mem _ member),
      List.flatMap_cons, marks_append]

/-- The bitmap rebuilt from the image marks the blocks of all recorded files. -/
theorem walkInodesInsert_layout (reserved : 1 ≤ m) (ordered : m ≤ n) (small : n * 1024 < 2 ^ 31)
    (layout : Layout n m raw records) (bitmap : Bytes) (b : Int) :
    walkInodesInsert raw bitmap m b ≠ 0 ↔ bitmap b ≠ 0 ∨ ∃ r ∈ records, b ∈ r.blocks := by
  have walk : ∀ slot : Nat × Nat, ∃ bs, (slot.1 : Int) < m → slot.2 < 10 →
      (∀ bitmap, insertSlot raw bitmap slot = marks bs bitmap) ∧
        ∀ b, b ∈ bs ↔ ∃ r ∈ records, ((slot.1 : Int), (slot.2 : Int)) = (r.d, r.i) ∧ b ∈ r.blocks := by
    intro slot
    by_cases inside : (slot.1 : Int) < m ∧ slot.2 < 10
    · obtain ⟨bs, found⟩ := insertSlot_layout reserved ordered small layout slot inside.1 inside.2
      exact ⟨bs, fun _ _ => found⟩
    · exact ⟨[], fun row column => absurd ⟨row, column⟩ inside⟩
  choose blocks found using walk
  rw [walkInodesInsert, foldl_marks _ _ fun slot member =>
    (found slot (mem_inodeSlots.mp member).1 (mem_inodeSlots.mp member).2).1, marks_apply]
  have marked : (b ∈ ((List.range m.toNat).flatMap fun i => (List.range 10).map fun j => (i, j)).flatMap blocks) ↔
      ∃ r ∈ records, b ∈ r.blocks := by
    rw [List.mem_flatMap]
    constructor
    · rintro ⟨slot, member, inside⟩
      obtain ⟨row, column⟩ := mem_inodeSlots.mp member
      obtain ⟨r, recorded, _, owned⟩ := ((found slot row column).2 b).mp inside
      exact ⟨r, recorded, owned⟩
    · rintro ⟨r, recorded, owned⟩
      obtain ⟨row, column, _⟩ := layout.placed r recorded
      have high : (r.d.toNat : Int) < m := by omega
      have wide : r.i.toNat < 10 := by omega
      refine ⟨(r.d.toNat, r.i.toNat), mem_inodeSlots.mpr ⟨high, wide⟩,
        ((found (r.d.toNat, r.i.toNat) high wide).2 b).mpr ⟨r, recorded, ?_, owned⟩⟩
      rw [Int.toNat_of_nonneg row.1, Int.toNat_of_nonneg column.1]
  by_cases used : ∃ r ∈ records, b ∈ r.blocks
  · simp [if_pos (marked.mpr used), used]
  · simp [if_neg (fun member => used (marked.mp member)), used]

end Bounds

end OsLabs.Inodes
