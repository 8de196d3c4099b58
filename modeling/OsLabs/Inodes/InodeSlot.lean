import OsLabs.Inodes.StoredFile

namespace OsLabs.Inodes
open ByteMemory

/-- Where `place_inode` writes, as an `int`. -/
def placeOffset (d i : Int) : Int := wrap32 (wrap32 (d * 1024) + wrap32 (i * 100))

theorem placeInode_eq (d i m : Int) (raw : Bytes) (ip : Inode) : placeInode d i m raw ip =
    if m ≤ d then .error .reservedBlock
    else if 10 ≤ i then .error .inodePosition
    else if isInode (placeOffset d i) raw then .error .slotFilled
    else .ok (memcpy (placeOffset d i) (bytesOfWords ip.word) 100 raw) := rfl

theorem placeOffset_slot {d i m : Int} (small : m * 1024 < 2 ^ 31) (row : 0 ≤ d) (high : d < m) (column : 0 ≤ i)
    (wide : i < 10) : placeOffset d i = slotOffset d i := by
  unfold placeOffset slotOffset
  rw [wrap32_of_range (x := d * 1024) (by omega) (by omega), wrap32_of_range (x := i * 100) (by omega) (by omega)]
  exact wrap32_of_range (by omega) (by omega)

/-- The seven words that `is_inode` looks at. -/
theorem isInode_eq_false {offset : Int} {raw : Bytes} :
    isInode offset raw = false ↔ ∀ k : Nat, k < 7 → readInt (offset + 4 * k) raw = 0 := by
  unfold isInode
  rw [List.any_eq_false]
  simp only [List.mem_range, bne_iff_ne, ne_eq, not_not]

/-- The inode has been written over 25 zero words of an inode slot, and no other byte has changed. -/
structure SlotFilled (d i m : Int) (raw raw' : Bytes) (ip : Inode) : Prop where
  row : 0 ≤ d ∧ d < m
  column : 0 ≤ i ∧ i < 10
  vacant : ∀ k : Nat, k < 25 → readInt (slotOffset d i + 4 * k) raw = 0
  inside : ∀ p, InSlot (slotOffset d i) p → raw' p = bytesOfWords ip.word (p - slotOffset d i)
  outside : ∀ p, ¬ InSlot (slotOffset d i) p → raw' p = raw p

/-- What `place_inode` writes, it writes into a vacant slot; an `exit` leaves `rawdata` alone. -/
def OnlyVacant (d i m : Int) (raw : Bytes) (ip : Inode) : Prop :=
  ∀ raw', placeInode d i m raw ip = .ok raw' → SlotFilled d i m raw raw' ip

/-- A write that gets past the checks fills a vacant slot exactly when neither argument is
negative and the words behind the first seven are zero. -/
theorem placeInode_vacant_iff {d i m : Int} (small : m * 1024 < 2 ^ 31) (raw : Bytes) (ip : Inode) :
    OnlyVacant d i m raw ip ↔ m ≤ d ∨ 10 ≤ i ∨ isInode (placeOffset d i) raw = true ∨
      (0 ≤ d ∧ 0 ≤ i ∧ ∀ k : Nat, 7 ≤ k → k < 25 → readInt (slotOffset d i + 4 * k) raw = 0) := by
  unfold OnlyVacant
  rw [placeInode_eq]
  by_cases high : m ≤ d
  · simp [high]
  by_cases wide : 10 ≤ i
  · simp [high, wide]
  by_cases taken : isInode (placeOffset d i) raw = true
  · simp [high, wide, taken]
  rw [if_neg high, if_neg wide, if_neg taken]
  simp only [high, wide, taken, Bool.false_eq_true, false_or, Except.ok.injEq, forall_eq']
  have firstWords := isInode_eq_false.mp (Bool.not_eq_true _ ▸ taken)
  constructor
  · intro filled
    exact ⟨filled.row.1, filled.column.1, fun k _ below => filled.vacant k below⟩
  · rintro ⟨row, column, lastWords⟩
    have place := placeOffset_slot small row (not_le.mp high) column (not_le.mp wide)
    rw [place] at firstWords ⊢
    refine ⟨⟨row, not_le.mp high⟩, ⟨column, not_le.mp wide⟩, fun k below => ?_, fun p inside => ?_, fun p outside => ?_⟩
    · by_cases early : k < 7
      · exact firstWords k early
      · exact lastWords k (not_lt.mp early) below
    · exact memcpy_inside _ _ inside.1 inside.2
    · unfold InSlot at outside
      exact memcpy_outside _ _ (by omega)

/-- The vacant first slot of an image of zero bytes is filled. -/
theorem placeInode_vacant_zero : OnlyVacant 0 0 1 (fun _ => 0) (extractInodeFromData 0 fun _ => 0) :=
  (placeInode_vacant_iff (by decide) _ _).mpr
    (.inr (.inr (.inr ⟨le_rfl, le_rfl, fun _ _ _ => readInt_zero fun _ _ _ => rfl⟩)))

/-- A position of -1 is accepted, and a slot that holds nothing but the last of its times is written over. -/
theorem placeInode_not_vacant : ¬ OnlyVacant 1 (-1) 2 (fun _ => 0) (extractInodeFromData 0 fun _ => 0) ∧
    ¬ OnlyVacant 0 0 1 (writeInt 28 1 fun _ => 0) (extractInodeFromData 0 fun _ => 0) := by
  constructor
  · intro only
    have filled := only _ (by rw [placeInode_eq, if_neg (by decide), if_neg (by decide), if_neg (by decide +kernel)])
    exact absurd filled.column.1 (by decide)
  · intro only
    have filled := only _ (by rw [placeInode_eq, if_neg (by decide), if_neg (by decide), if_neg (by decide +kernel)])
    have word := filled.vacant 7 (by decide)
    exact absurd word (by decide +kernel)

end OsLabs.Inodes
