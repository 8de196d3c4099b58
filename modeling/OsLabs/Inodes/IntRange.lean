import OsLabs.Inodes.Budget

namespace OsLabs.Inodes
open ByteMemory PointerTree

/-- An `int` expression whose value is `v` does not overflow. -/
def IsInt (v : Int) : Prop := wrap32 v = v

section Expressions
variable (file : List UInt8) (n m fileSize : Int)

/-- The count of `readChunk`. -/
def CountExact (s : Placing) : Prop := IsInt (s.nbytes + ↑(min 1024 (file.length - s.fpr)))

/-- The `int` expressions of `fillBlock`, given those of its body. -/
def FillExact (entryExact : Int → Placing → Prop) (entry : Int → Placing → Except Exit Placing) (blockno : Int) :
    Nat → Placing → Prop
  | 0, _ => True
  | left + 1, s => s.nbytes < fileSize →
    (IsInt (blockno * 1024) ∧ IsInt (blockno * 1024 + (256 - (left + 1)) * 4)) ∧
      entryExact (wrap32 (wrap32 (blockno * 1024) + (256 - (left + 1)) * 4)) s ∧
      ∀ v, entry (wrap32 (wrap32 (blockno * 1024) + (256 - (left + 1)) * 4)) s = .ok v → ¬ fileSize ≤ v.nbytes →
        FillExact entryExact entry blockno left v

def PointerBlockExact (name : Int → Inode → Inode) (entryExact : Int → Placing → Prop)
    (entry : Int → Placing → Except Exit Placing) (s : Placing) : Prop :=
  ∀ blockno bitmap, getFreeBlock s.bitmap n m = .ok (blockno, bitmap) →
    FillExact fileSize entryExact entry blockno 256 { s with bitmap := bitmap, ip := name blockno s.ip }

/-- A data block that is taken, read and copied. -/
def DataEntryExact (_position : Int) (s : Placing) : Prop :=
  ∀ blockno bitmap, getFreeBlock s.bitmap n m = .ok (blockno, bitmap) → CountExact file s ∧ IsInt (blockno * 1024)

def IndirectBlockExact (numIndirect : Int) (s : Placing) : Prop :=
  let name := fun blockno ip => if numIndirect ≠ 21 then
    { ip with iblocks := Function.update ip.iblocks numIndirect.toNat blockno } else ip
  PointerBlockExact n m fileSize name (DataEntryExact file n m) (placeDataEntry file n m) s

def IndirectEntryExact (_position : Int) (s : Placing) : Prop := IndirectBlockExact file n m fileSize 21 s

def DoublyIndirectBlockExact (tripleFlag : Int) (s : Placing) : Prop :=
  let name := fun blockno ip => if tripleFlag = 0 then { ip with i2block := blockno } else ip
  PointerBlockExact n m fileSize name (IndirectEntryExact file n m fileSize) (placeIndirectEntry file n m fileSize) s

def DoublyEntryExact (_position : Int) (s : Placing) : Prop := DoublyIndirectBlockExact file n m fileSize 1 s

def TriplyIndirectBlockExact (s : Placing) : Prop :=
  let name := fun blockno ip => { ip with i3block := blockno }
  PointerBlockExact n m fileSize name (DoublyEntryExact file n m fileSize) (placeDoublyEntry file n m fileSize) s

def DirectExact : Nat → Placing → Prop
  | 0, _ => True
  | left + 1, s => ∀ blockno bitmap, getFreeBlock s.bitmap n m = .ok (blockno, bitmap) →
    CountExact file s ∧ IsInt (blockno * 1024) ∧
      let s := copyBlock blockno (readChunk file
        { s with bitmap := bitmap
                 ip := { s.ip with dblocks := Function.update s.ip.dblocks (12 - (left + 1)) blockno } })
      (¬ (file.length : Int) ≤ s.nbytes → DirectExact left s)

/-- The file size is converted to the `int` parameter of the three functions. -/
def IndirectsExact : Nat → Placing → Prop
  | 0, _ => True
  | left + 1, s => s.nbytes < file.length →
    IsInt file.length ∧ IndirectBlockExact file n m (wrap32 file.length) (3 - (left + 1)) s ∧
      ∀ out, placeIndirectBlock file n m (wrap32 file.length) (3 - (left + 1)) s = .ok out → IndirectsExact left out.2

def DoublyExact (s : Placing) : Prop := s.nbytes < file.length →
  IsInt file.length ∧ DoublyIndirectBlockExact file n m (wrap32 file.length) 0 s

def TriplyExact (s : Placing) : Prop := s.nbytes < file.length →
  IsInt file.length ∧ TriplyIndirectBlockExact file n m (wrap32 file.length) s

/-- The `int` expressions of `placeBlocks` behind its first assignments, which lead to `s`. -/
def LevelsExact (s : Placing) : Prop :=
  DirectExact file n m 12 s ∧ ∀ s₁, placeDirect file n m 12 s = .ok s₁ →
    IndirectsExact file n m 3 s₁ ∧ ∀ s₂, placeIndirects file n m 3 s₁ = .ok s₂ →
      DoublyExact file n m s₂ ∧ ∀ s₃, placeDoubly file n m s₂ = .ok s₃ → TriplyExact file n m s₃

end Expressions

/-- The sizes and offsets of a run of `place_file`, and the size `n*BLOCK_SZ` of the image around it, are what
they are without overflow. -/
def SizesExact (heap : Heap) (file : List UInt8) (uid gid m : Int) (rawdata bitmap : Bytes) (n : Int) : Prop :=
  IsInt (n * 1024) ∧
    let ip := { heap.ip with
      mode := 0, nlink := 1, uid := uid, gid := gid
      ctime := wrap32 (heap.random 0), mtime := wrap32 (heap.random 1), atime := wrap32 (heap.random 2) }
    LevelsExact file n m ⟨rawdata, bitmap, ip, 0, heap.buf, 0⟩

theorem isInt_of_range {v : Int} (lower : -2 ^ 31 ≤ v) (upper : v < 2 ^ 31) : IsInt v := wrap32_of_range lower upper

theorem IsInt.bound {v : Int} (int : IsInt v) : v < 2 ^ 31 := by
  have range := wrap32_range v
  rw [int] at range
  exact range.2

section Levels
variable {file : List UInt8} {n m : Int} (reserved : 0 ≤ m) (ordered : m ≤ n) (small : n * 1024 < 2 ^ 31)
  (short : file.length < 2 ^ 31)

theorem Outcome.counted {α : Type} {state : α → Placing} {s : Placing} {b c : Nat} {x : Except Exit α} {a : α}
    (outcome : Outcome file n m state s b c x) (run : x = .ok a) : Counted file (state a) := by
  cases outcome with
  | short few => cases run
  | spent spends =>
    obtain rfl := Except.ok.inj run
    exact spends.counted

include short in
theorem countExact {s : Placing} (counted : Counted file s) : CountExact file s := by
  obtain ⟨count, within⟩ := counted
  exact isInt_of_range (by omega) (by omega)

include reserved ordered small in
/-- A block of the image begins at an `int` offset, and so does every entry of it. -/
theorem block_isInt {bitmap marked : Bytes} {b : Int} (run : getFreeBlock bitmap n m = .ok (b, marked)) :
    IsInt (b * 1024) ∧ ∀ k, 0 ≤ k → k < 256 → IsInt (b * 1024 + k * 4) := by
  obtain ⟨lower, upper, -⟩ := getFreeBlock_spec ordered run
  exact ⟨isInt_of_range (by omega) (by omega), fun k _ _ => isInt_of_range (by omega) (by omega)⟩

/-- The loop over a pointer block is exact if its body is. -/
theorem fillExact {k : Nat} {entryExact : Int → Placing → Prop} {entry : Int → Placing → Except Exit Placing}
    {blockno : Int} (each : EntryCost file n m k entry) (exact : ∀ position s, Counted file s → entryExact position s)
    (offset : IsInt (blockno * 1024) ∧ ∀ k, 0 ≤ k → k < 256 → IsInt (blockno * 1024 + k * 4)) (left : Nat)
    (few : left ≤ 256) : ∀ s, Counted file s → FillExact file.length entryExact entry blockno left s := by
  induction left with
  | zero => exact fun _ _ => trivial
  | succ left ih =>
    intro s counted started
    refine ⟨⟨offset.1, offset.2 _ (by omega) (by omega)⟩, exact _ s counted, fun v run _ => ?_⟩
    exact ih (by omega) v ((each _ s counted (counted.started_iff.mp started)).counted run)

include reserved ordered small in
theorem pointerBlockExact {k : Nat} {name : Int → Inode → Inode} {entryExact : Int → Placing → Prop}
    {entry : Int → Placing → Except Exit Placing} (each : EntryCost file n m k entry)
    (exact : ∀ position s, Counted file s → entryExact position s) {s : Placing} (counted : Counted file s) :
    PointerBlockExact n m file.length name entryExact entry s := by
  intro blockno bitmap run
  exact fillExact each exact (block_isInt reserved ordered small run) 256 (Nat.le_refl _) _
    ⟨counted.count, counted.within⟩

include reserved ordered small short

theorem dataEntryExact (position : Int) (s : Placing) (counted : Counted file s) :
    DataEntryExact file n m position s :=
  fun _ _ run => ⟨countExact short counted, (block_isInt reserved ordered small run).1⟩

theorem indirectBlockExact (numIndirect : Int) {s : Placing} (counted : Counted file s) :
    IndirectBlockExact file n m file.length numIndirect s :=
  pointerBlockExact reserved ordered small (placeDataEntry_cost ordered short)
    (dataEntryExact reserved ordered small short) counted

theorem doublyIndirectBlockExact (tripleFlag : Int) {s : Placing} (counted : Counted file s) :
    DoublyIndirectBlockExact file n m file.length tripleFlag s :=
  pointerBlockExact reserved ordered small (placeIndirectEntry_cost ordered short)
    (fun _ _ => indirectBlockExact reserved ordered small short 21) counted

theorem triplyIndirectBlockExact {s : Placing} (counted : Counted file s) :
    TriplyIndirectBlockExact file n m file.length s := by
  unfold TriplyIndirectBlockExact
  exact pointerBlockExact reserved ordered small (placeDoublyEntry_cost ordered short)
    (fun _ _ => doublyIndirectBlockExact reserved ordered small short 1) counted

theorem directExact (left : Nat) : ∀ s, Counted file s → DirectExact file n m left s := by
  induction left with
  | zero => exact fun _ _ => trivial
  | succ left ih =>
    intro s counted blockno bitmap run
    refine ⟨countExact short counted, (block_isInt reserved ordered small run).1, fun _ => ih _ ?_⟩
    have sum : wrap32 (s.nbytes + ↑(min 1024 (file.length - s.fpr))) = s.nbytes + ↑(min 1024 (file.length - s.fpr)) :=
      countExact short counted
    obtain ⟨count, within⟩ := counted
    refine ⟨?_, ?_⟩
    · simp only [copyBlock, readChunk, sum]
      omega
    · simp only [copyBlock, readChunk]
      omega

theorem indirectsExact (left : Nat) : ∀ s, Counted file s → IndirectsExact file n m left s := by
  have size : IsInt file.length := isInt_of_range (by omega) (by omega)
  induction left with
  | zero => exact fun _ _ => trivial
  | succ left ih =>
    intro s counted started
    unfold IsInt at size
    rw [size]
    refine ⟨size, indirectBlockExact reserved ordered small short _ counted, fun out run => ih out.2 ?_⟩
    exact (placeIndirectBlock_cost ordered short _ counted (counted.started_iff.mp started)).counted run

theorem levelsExact {s : Placing} (counted : Counted file s) : LevelsExact file n m s := by
  have size : wrap32 file.length = file.length := wrap32_of_range (by omega) (by omega)
  refine ⟨directExact reserved ordered small short 12 s counted, fun s₁ direct => ?_⟩
  have counted₁ := (placeDirect_cost ordered short 12 s counted).counted direct
  refine ⟨indirectsExact reserved ordered small short 3 s₁ counted₁, fun s₂ single => ?_⟩
  have counted₂ := (placeIndirects_cost ordered short 3 s₁ counted₁).counted single
  refine ⟨fun _ => ⟨size, ?_⟩, fun s₃ double _ => ⟨size, ?_⟩⟩
  · rw [size]
    exact doublyIndirectBlockExact reserved ordered small short 0 counted₂
  · rw [size]
    exact triplyIndirectBlockExact reserved ordered small short
      ((placeDoubly_cost ordered short counted₂).counted double)

end Levels

section Sizes
variable {heap : Heap} {file : List UInt8} {uid gid m n : Int} {rawdata bitmap : Bytes}

/-- A file for which there are enough free blocks is shorter than the image. -/
theorem short_of_enough (reserved : 0 ≤ m) (enough : need file.length ≤ (spare n m bitmap).length) :
    m ≤ n ∧ file.length ≤ n * 1024 := by
  have available := freeCount_le n m bitmap
  rw [length_spare] at enough
  have data : 1 ≤ need file.length ∧ (file.length + 1023) / 1024 ≤ need file.length := by
    unfold need
    dsimp only
    omega
  omega

/-- All sizes and offsets are exact, for every file that fits, exactly when the size of the image is an `int`. -/
theorem sizes_exact_iff (reserved : 0 ≤ m) (enough : need file.length ≤ (spare n m bitmap).length) :
    SizesExact heap file uid gid m rawdata bitmap n ↔ n * 1024 < 2 ^ 31 := by
  obtain ⟨ordered, fits⟩ := short_of_enough reserved enough
  constructor
  · exact fun exact => exact.1.bound
  · intro small
    refine ⟨isInt_of_range (by omega) small, ?_⟩
    exact levelsExact reserved ordered small (by omega) ⟨rfl, Nat.zero_le _⟩

theorem spare_clear (n m : Int) : (spare n m fun _ => 0).length = (n - m).toNat := length_spare_free fun _ _ _ => rfl

theorem sizes_exact_iff_gigabyte :
    SizesExact blankHeap [65] 0 0 1 (fun _ => 0) (fun _ => 0) (2 ^ 20) ↔ (2 ^ 20 : Int) * 1024 < 2 ^ 31 :=
  sizes_exact_iff (by decide) (by rw [spare_clear]; decide)

/-- There is room for a file of one byte in an image of 2^21 blocks, whose size overflows. -/
theorem sizes_overflow : need [65].length ≤ (spare (2 ^ 21) 1 fun _ => 0).length ∧
    ¬ SizesExact blankHeap [65] 0 0 1 (fun _ => 0) (fun _ => 0) (2 ^ 21) :=
  ⟨by rw [spare_clear]; decide, fun exact => absurd exact.1.bound (by decide)⟩

end Sizes

end OsLabs.Inodes
