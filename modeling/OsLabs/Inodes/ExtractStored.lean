import Mathlib.Data.Int.Interval
import OsLabs.Inodes.Extract
import OsLabs.Inodes.StoredFile

namespace OsLabs.Inodes
open ByteMemory PointerTree

section Emission
variable {file : List UInt8} {rawdata : Bytes}

/-- Visiting the data blocks of a file in order writes the file, the partial
last block included. -/
theorem emit_carries (bs : List Int) : ∀ (start : Nat) (out : List UInt8), Carries file rawdata start bs →
    (∀ b ∈ bs, 0 ≤ b ∧ b * 1024 < 2 ^ 31) → start % 1024 = 0 → out = file.take start →
    start + 1024 * bs.length ≤ file.length + 1024 →
    emit rawdata file.length bs out = file.take (start + 1024 * bs.length) := by
  induction bs with
  | nil => exact fun start out _ _ _ begun _ => by simpa using begun
  | cons b bs ih =>
    intro start out carries inRange aligned begun bound
    rw [List.length_cons] at bound
    obtain ⟨nonneg, small⟩ := inRange b (List.mem_cons_self ..)
    have offset : wrap32 (b * 1024) = b * 1024 := wrap32_of_range (by omega) small
    have length : out.length = start := by rw [begun, List.length_take]; omega
    have chunk : ∀ size : Nat, size = min 1024 (file.length - start) →
        out ++ (List.range size).map (fun k : Nat => rawdata (b * 1024 + k)) = file.take (start + 1024) := by
      intro size sizeEq
      refine List.ext_getElem (by simp [length]; omega) fun k left right => ?_
      rw [List.getElem_take]
      by_cases before : k < out.length
      · rw [List.getElem_append_left before]
        simp only [begun, List.getElem_take]
      · rw [List.getElem_append_right (not_lt.mp before)]
        simp only [List.length_append, List.length_map, List.length_range] at left
        have value := carries 0 b rfl (k - start) (by omega) (by omega)
        have place : start + 1024 * 0 + (k - start) = k := by omega
        rw [place, List.getD_eq_getElem?_getD, List.getElem?_eq_getElem (by omega), Option.getD_some] at value
        simpa [length] using value
    have next : (extractBlock rawdata file.length b ⟨out, []⟩).out = file.take (start + 1024) := by
      unfold extractBlock Extraction.ftell
      simp only [offset, length]
      have partly : ((file.length : Int).tmod 1024 % 2 ^ 64).toNat = file.length % 1024 := by
        rw [Int.tmod_eq_emod_of_nonneg (by omega)]
        omega
      have whole : ((1024 : Int) % 2 ^ 64).toNat = 1024 := rfl
      by_cases past : (start : Int) + 1024 > file.length
      · simp only [if_pos past, fwrite, partly]
        exact chunk _ (by omega)
      · simp only [if_neg past, fwrite, whole]
        exact chunk _ (by omega)
    rw [emit_cons, next, ih (start + 1024) _ carries.tail (fun c member => inRange c (List.mem_cons_of_mem _ member))
      (by omega) rfl (by omega), List.length_cons, Nat.mul_succ, Nat.add_assoc, Nat.add_comm 1024]

/-- Once the file is written, every further pointer slot writes the remainder
of the size again. -/
theorem emit_written (rawdata : Bytes) (bs : List Int) : ∀ out : List UInt8, file.length ≤ out.length →
    ∃ extra, emit rawdata file.length bs out = out ++ extra ∧ extra.length = bs.length * (file.length % 1024) := by
  induction bs with
  | nil => exact fun out _ => ⟨[], by simp, by simp⟩
  | cons b bs ih =>
    intro out written
    have past : ((out.length : Int) + 1024 > file.length) := by omega
    have size : ((file.length : Int).tmod 1024 % 2 ^ 64).toNat = file.length % 1024 := by
      rw [Int.tmod_eq_emod_of_nonneg (by omega)]
      omega
    simp only [emit_cons, extractBlock, Extraction.ftell, if_pos past, fwrite, size]
    generalize again : (List.range (file.length % 1024)).map (fun k : Nat => rawdata (wrap32 (b * 1024) + k)) = more
    have added : more.length = file.length % 1024 := by simp [← again]
    obtain ⟨extra, value, length⟩ := ih (out ++ more) (by simp; omega)
    refine ⟨more ++ extra, by rw [value, List.append_assoc], ?_⟩
    rw [List.length_append, length, added, List.length_cons, Nat.succ_mul]
    omega

end Emission

section Slots
variable {rawdata : Bytes} {maxBlock size : Int}

/-- An array of the inode whose pointers are all in range is visited to its end. -/
theorem extractSlots_out (blocks : Nat → Int) (count : Nat) {visit : Int → Extraction → Extraction} {k : Nat}
    (visits : ∀ b s, (visit b s).out = emit rawdata size (scanned rawdata maxBlock k b) s.out)
    (inRange : ∀ j, j < count → outOfRange maxBlock (blocks j) = false) (left : Nat) :
    ∀ s, left ≤ count → ∃ s', extractSlots maxBlock blocks visit count left s = (true, s') ∧
      s'.out = emit rawdata size ((List.range' (count - left) left).flatMap
        fun j => scanned rawdata maxBlock k (blocks j)) s.out := by
  induction left with
  | zero => exact fun s _ => ⟨s, rfl, rfl⟩
  | succ left ih =>
    intro s bound
    have here := inRange (count - (left + 1)) (by omega)
    obtain ⟨s', run, out⟩ := ih (visit (blocks (count - (left + 1))) s) (by omega)
    refine ⟨s', ?_, ?_⟩
    · rw [← run]
      simp [extractSlots, here]
    · rw [out, visits, ← emit_append, List.range'_succ, List.flatMap_cons,
        show count - (left + 1) + 1 = count - left by omega]

theorem range_slots {α : Type} (f : Nat → List α) : (List.range 17).flatMap f =
    (List.range' 0 12).flatMap f ++ ((List.range' 0 3).flatMap (fun j => f (12 + j)) ++ (f 15 ++ f 16)) := by
  simp [List.range_succ, List.range'_succ]

/-- `extract_file` writes what the 17 pointers of the inode lead to, in order. -/
theorem extractInode_out {ip : Inode} {pointer : Nat → Int} {s : Extraction}
    (direct : ∀ j, ip.dblocks j = pointer j) (single : ∀ j, ip.iblocks j = pointer (12 + j))
    (double : ip.i2block = pointer 15) (triple : ip.i3block = pointer 16)
    (inRange : ∀ j, j < 17 → outOfRange maxBlock (pointer j) = false) :
    (extractInode rawdata maxBlock size ip s).out = emit rawdata size
      ((List.range 17).flatMap fun j => scanned rawdata maxBlock (slotLevel j) (pointer j)) s.out := by
  obtain ⟨s₁, run₁, out₁⟩ := extractSlots_out ip.dblocks 12 (k := 0)
    (extractBlock_out rawdata size) (fun j bound => by rw [direct]; exact inRange j (by omega)) 12 s le_rfl
  obtain ⟨s₂, run₂, out₂⟩ := extractSlots_out ip.iblocks 3
    (extractWalkIndirectBlock_out rawdata maxBlock size)
    (fun j bound => by rw [single]; exact inRange _ (by omega)) 3 s₁ le_rfl
  simp only [extractInode, extractSlot, run₁, run₂, double, triple, inRange 15 (by decide), inRange 16 (by decide),
    Bool.false_eq_true, if_false]
  rw [extractWalkTriplyIndirectBlock_out, extractWalkDoublyIndirectBlock_out, out₂, out₁, range_slots]
  have level : ∀ j ∈ List.range' 0 12, scanned rawdata maxBlock (slotLevel j) (pointer j) =
      scanned rawdata maxBlock 0 (pointer j) := by
    intro j member
    have bound : j < 12 := by simpa using member
    rw [show slotLevel j = 0 from if_pos bound]
  have levels : ∀ j ∈ List.range' 0 3, scanned rawdata maxBlock (slotLevel (12 + j)) (pointer (12 + j)) =
      scanned rawdata maxBlock 1 (pointer (12 + j)) := by
    intro j member
    have bound : j < 3 := by simpa using member
    rw [show slotLevel (12 + j) = 1 from (if_neg (by omega)).trans (if_pos (by omega))]
  simp only [direct, single, emit_append, Nat.sub_self]
  rw [List.flatMap_congr level, List.flatMap_congr levels, show slotLevel 15 = 2 from rfl,
    show slotLevel 16 = 3 from rfl]

end Slots

section StoredFile
variable {n m offset : Int} {rawdata : Bytes} {file : List UInt8} {subs : List Sub}
variable (reserved : 1 ≤ m) (small : n * 1024 < 2 ^ 31) (stored : Stored n m rawdata offset file subs)

theorem inRange_of_area (reserved : 1 ≤ m) {b : Int} (area : m ≤ b ∧ b < n) : outOfRange n b = false := by
  simp only [outOfRange, Bool.or_eq_false_iff, decide_eq_false_iff_not]
  omega

theorem length_le_area {bs : List Int} (area : ∀ b ∈ bs, m ≤ b ∧ b < n) (nodup : bs.Nodup) :
    bs.length ≤ (n - m).toNat := by
  have inside : bs.toFinset ⊆ Finset.Ico m n := fun b member =>
    Finset.mem_Ico.mpr (area b (List.mem_toFinset.mp member))
  have count := Finset.card_le_card inside
  rwa [List.toFinset_card_of_nodup nodup, Int.card_Ico] at count

include reserved stored

theorem zero_in_range : outOfRange n 0 = false := by
  obtain ⟨t, member⟩ := List.exists_mem_of_ne_nil subs stored.nonempty
  have area := stored.area _ (mem_blocksOf member (root_mem_nodes t.2))
  simp only [outOfRange, Bool.or_eq_false_iff, decide_eq_false_iff_not]
  omega

include small

/-- No image is large enough to fill the triply indirect slot. -/
theorem last_slot_partly {t : Sub} (last : subs[16]? = some t) : ¬ Full 256 t.2 := by
  intro full
  have member := List.mem_of_getElem? last
  have sub : (leaves t.2).Sublist (blocksOf subs) :=
    (leaves_sublist t.2).trans (List.sublist_flatten_of_mem (List.mem_map.mpr ⟨t, member, rfl⟩))
  have length := sub.length_le.trans (length_le_area stored.area stored.nodup)
  rw [full.length_leaves, stored.levels 16 t last] at length
  change 256 ^ 3 ≤ _ at length
  omega

/-- Following the pointers of a stored file yields its data blocks in order,
and then blocks that belong to no file. -/
theorem scanned_stored (null : readInt 0 rawdata = 0) : ∃ rest, rest ≠ [] ∧
    ((List.range 17).flatMap fun j => scanned rawdata n (slotLevel j) (slotPointer rawdata offset j)) =
      dataOf subs ++ rest := by
  have zeroIn := zero_in_range reserved stored
  have self : readEntries rawdata 0 0 = 0 := by simpa [readEntries, readEntry] using null
  have tree : ∀ t ∈ subs, ∃ rest, scanned rawdata n t.1 t.root = t.leaves ++ rest ∧ (Full 256 t.2 → rest = []) ∧
      (¬ Full 256 t.2 → rest ≠ []) := by
    intro t member
    have agree : ∀ b ∈ nodes t.2, entry rawdata b = readEntries rawdata b := fun b inside => by
      have area := stored.area b (mem_blocksOf member inside)
      exact readEntries_eq (by omega) (by omega)
    have ended := (stored.ended t member).congr agree
    obtain ⟨rest, value, closed, more⟩ := scan_tree 0
      ((stored.held t member).congr agree) (stored.packed t member)
      (fun b inside => inRange_of_area reserved (stored.area b (mem_blocksOf member inside)))
    exact ⟨rest, value, closed, more ended self zeroIn⟩
  obtain ⟨init, last, rfl⟩ : ∃ init last, subs = init ++ [last] :=
    ⟨subs.dropLast, subs.getLast stored.nonempty, (List.dropLast_append_getLast stored.nonempty).symm⟩
  have front : ∀ t ∈ init, scanned rawdata n t.1 t.root = t.leaves := by
    intro t member
    obtain ⟨rest, value, closed, _⟩ := tree t (List.mem_append_left _ member)
    rw [value, closed (stored.front t (by simpa using member)), List.append_nil]
  obtain ⟨rest, value, _, more⟩ := tree last (by simp)
  have used : (List.range (init ++ [last]).length).flatMap
      (fun j => scanned rawdata n (slotLevel j) (slotPointer rawdata offset j)) =
        dataOf (init ++ [last]) ++ rest := by
    have each : (List.range (init ++ [last]).length).flatMap
        (fun j => scanned rawdata n (slotLevel j) (slotPointer rawdata offset j)) =
        (init ++ [last]).flatMap fun t => scanned rawdata n t.1 t.root := by
      refine flatMap_positions fun j t found => ?_
      have bound : j < 17 := lt_of_lt_of_le (List.getElem?_eq_some_iff.mp found).1 stored.fits
      rw [stored.pointers j bound, found, stored.levels j t found]
      rfl
    rw [each, List.flatMap_append, List.flatMap_congr front, List.flatMap_singleton, value, dataOf,
      List.flatMap_append,
      List.flatMap_singleton, List.append_assoc]
  refine ⟨rest ++ (List.range' (init ++ [last]).length (17 - (init ++ [last]).length)).flatMap
    (fun j => scanned rawdata n (slotLevel j) (slotPointer rawdata offset j)), ?_, ?_⟩
  · intro empty
    obtain ⟨restEmpty, slotsEmpty⟩ := List.append_eq_nil_iff.mp empty
    by_cases room : (init ++ [last]).length < 17
    · obtain ⟨v, atV⟩ : ∃ v, 17 - (init ++ [last]).length = v + 1 := ⟨16 - (init ++ [last]).length, by omega⟩
      have unused : slotPointer rawdata offset (init ++ [last]).length = 0 := by
        rw [stored.pointers _ room, List.getElem?_eq_none le_rfl]
        rfl
      rw [atV, List.range'_succ, List.flatMap_cons, unused] at slotsEmpty
      exact scan_ne_nil (by decide) self zeroIn _ (List.append_eq_nil_iff.mp slotsEmpty).1
    · have fits := stored.fits
      have length : init.length = 16 := by
        rw [List.length_append, List.length_singleton] at room fits
        omega
      refine more (last_slot_partly reserved small stored ?_) restEmpty
      rw [← length, List.getElem?_append_right le_rfl, Nat.sub_self]
      rfl
  · rw [← List.append_assoc, ← used, ← List.flatMap_append]
    have parts := List.range'_append_1 (s := 0) (m := (init ++ [last]).length) (n := 17 - (init ++ [last]).length)
    rw [Nat.zero_add, Nat.add_sub_cancel' stored.fits] at parts
    rw [List.range_eq_range', List.range_eq_range', parts]

/-- What `extract_file` writes for a stored file: the file, and the remainder
of its size once more for each pointer it follows past the end. -/
theorem extractFile_stored (null : readInt 0 rawdata = 0) (touched : List (Int × Nat)) : ∃ again extra, 0 < again ∧
    (extractFile offset rawdata ⟨[], touched⟩ (n * 1024)).out = file ++ extra ∧
      extra.length = again * (file.length % 1024) := by
  obtain ⟨rest, more, slots⟩ := scanned_stored reserved small stored null
  have blocks : (n * 1024).tdiv 1024 = n := Int.mul_tdiv_cancel n (by decide)
  obtain ⟨direct, single, double, triple⟩ := extractInodeFromData_pointers rawdata offset
  have inRange : ∀ j, j < 17 → outOfRange n (slotPointer rawdata offset j) = false := by
    intro j bound
    rw [stored.pointers j bound]
    cases found : subs[j]? with
    | none => exact zero_in_range reserved stored
    | some t =>
      exact inRange_of_area reserved (stored.area _ (mem_blocksOf (List.mem_of_getElem? found) (root_mem_nodes t.2)))
  have size : (extractInodeFromData offset rawdata).size = file.length := by
    rw [← stored.size, extractInodeFromData]
  have cover := stored.cover
  have whole := emit_carries (dataOf subs) 0 [] stored.carries
    (fun b leaf => by have area := stored.area b (dataOf_subset leaf); omega) rfl rfl (by have := stored.tight; omega)
  rw [Nat.zero_add, List.take_of_length_le cover] at whole
  obtain ⟨extra, value, length⟩ := emit_written rawdata rest file le_rfl
  refine ⟨rest.length, extra, List.length_pos_of_ne_nil more, ?_, length⟩
  rw [extractFile, blocks, extractInode_out direct single double triple inRange, slots, emit_append, size]
  dsimp only
  rw [whole, value]

/-- The file comes back exactly when its size is a multiple of the block size. -/
theorem extractFile_stored_iff (null : readInt 0 rawdata = 0) (touched : List (Int × Nat)) :
    (extractFile offset rawdata ⟨[], touched⟩ (n * 1024)).out = file ↔ file.length % 1024 = 0 := by
  obtain ⟨again, extra, positive, value, length⟩ := extractFile_stored reserved small stored null touched
  rw [value, List.append_right_eq_self, ← List.length_eq_zero_iff, length, Nat.mul_eq_zero]
  omega

end StoredFile

end OsLabs.Inodes
