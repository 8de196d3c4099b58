import OsLabs.Inodes.PlacedFile

namespace OsLabs.Inodes
open ByteMemory PointerTree

/-- All data and pointer blocks of a stored file. -/
def blocksOf (subs : List Sub) : List Int := subs.flatMap Sub.nodes

/-- The data blocks of a stored file, in file order. -/
def dataOf (subs : List Sub) : List Int := subs.flatMap Sub.leaves

def slotOffset (d i : Int) : Int := d * 1024 + i * 100

/-- Byte `p` belongs to the inode slot at `offset`. -/
def InSlot (offset p : Int) : Prop := offset ≤ p ∧ p < offset + 100

/-- The pointer in slot `j` of the inode at `offset`. -/
def slotPointer (rawdata : Bytes) (offset : Int) (j : Nat) : Int := readInt (offset + 32 + 4 * j) rawdata

/-- The 17 pointers of the inode in memory order. -/
theorem extractInodeFromData_pointers (rawdata : Bytes) (offset : Int) :
    (∀ j : Nat, (extractInodeFromData offset rawdata).dblocks j = slotPointer rawdata offset j) ∧
      (∀ j : Nat, (extractInodeFromData offset rawdata).iblocks j = slotPointer rawdata offset (12 + j)) ∧
      (extractInodeFromData offset rawdata).i2block = slotPointer rawdata offset 15 ∧
      (extractInodeFromData offset rawdata).i3block = slotPointer rawdata offset 16 := by
  unfold slotPointer extractInodeFromData
  dsimp only
  refine ⟨fun _ => rfl, fun j => ?_, ?_, ?_⟩
  · rw [show offset + 80 + 4 * (j : Int) = offset + 32 + 4 * ((12 + j : Nat) : Int) by omega]
  · rw [show offset + 92 = offset + 32 + 4 * ((15 : Nat) : Int) by omega]
  · rw [show offset + 96 = offset + 32 + 4 * ((16 : Nat) : Int) by omega]

/-- The image holds `file` in the subtrees `subs` of the inode at `offset`. -/
structure Stored (n m : Int) (rawdata : Bytes) (offset : Int) (file : List UInt8) (subs : List Sub) : Prop where
  area : ∀ b ∈ blocksOf subs, m ≤ b ∧ b < n
  nodup : (blocksOf subs).Nodup
  levels : ∀ j t, subs[j]? = some t → t.1 = slotLevel j
  held : ∀ t ∈ subs, Held (entry rawdata) t.2
  ended : ∀ t ∈ subs, Ended (entry rawdata) 0 256 t.2
  packed : ∀ t ∈ subs, Packed 256 t.2
  front : ∀ t ∈ subs.dropLast, Full 256 t.2
  carries : Carries file rawdata 0 (dataOf subs)
  cover : file.length ≤ 1024 * (dataOf subs).length
  tight : 1024 * (dataOf subs).length ≤ file.length + 1024
  nonempty : subs ≠ []
  fits : subs.length ≤ 17
  mode : readInt offset rawdata = 0
  nlink : readInt (offset + 4) rawdata = 1
  size : readInt (offset + 16) rawdata = file.length
  pointers : ∀ j : Nat, j < 17 → slotPointer rawdata offset j = (subs[j]?.map Sub.root).getD 0

theorem mem_blocksOf {subs : List Sub} {t : Sub} {b : Int} (member : t ∈ subs) (inside : b ∈ nodes t.2) :
    b ∈ blocksOf subs := List.mem_flatMap.mpr ⟨t, member, inside⟩

theorem dataOf_subset {subs : List Sub} : dataOf subs ⊆ blocksOf subs := by
  intro b leaf
  obtain ⟨t, member, below⟩ := List.mem_flatMap.mp leaf
  exact mem_blocksOf member (leaves_subset_nodes t.2 below)

/-- Two ways to go through a list: by position and by element. -/
theorem flatMap_positions {α β : Type} {xs : List α} {f : Nat → List β} {g : α → List β}
    (agree : ∀ j x, xs[j]? = some x → f j = g x) : (List.range xs.length).flatMap f = xs.flatMap g := by
  rw [List.flatMap_def, List.flatMap_def]
  congr 1
  refine List.ext_getElem (by simp) fun j left right => ?_
  simp only [List.getElem_map, List.getElem_range]
  exact agree j _ (List.getElem?_eq_getElem (by simpa using right))

/-- A stored file depends on the bytes of its blocks and of its inode only. -/
theorem Stored.congr {n m offset : Int} {raw raw' : Bytes} {file : List UInt8} {subs : List Sub}
    (stored : Stored n m raw offset file subs)
    (blocks : ∀ b ∈ blocksOf subs, ∀ p, InBlock b p → raw' p = raw p)
    (slot : ∀ p, InSlot offset p → raw' p = raw p) : Stored n m raw' offset file subs := by
  have kept : ∀ t ∈ subs, ∀ b ∈ nodes t.2, entry raw b = entry raw' b := fun t member b inside =>
    entry_congr (blocks b (mem_blocksOf member inside))
  have word : ∀ q, offset ≤ q → q + 4 ≤ offset + 100 → readInt q raw' = readInt q raw := fun q lower upper =>
    readInt_congr fun p _ _ => slot p ⟨by omega, by omega⟩
  refine { stored with
    held := fun t member => (stored.held t member).congr (kept t member)
    ended := fun t member => (stored.ended t member).congr (kept t member)
    carries := stored.carries.congr fun b leaf => blocks b (dataOf_subset leaf)
    mode := ?_, nlink := ?_, size := ?_, pointers := fun j bound => ?_ }
  · rw [word _ (by omega) (by omega), stored.mode]
  · rw [word _ (by omega) (by omega), stored.nlink]
  · rw [word _ (by omega) (by omega), stored.size]
  · rw [slotPointer, word _ (by omega) (by omega), ← slotPointer, stored.pointers j bound]

/-- What a successful `place_file` does: the file is stored at its slot, in
blocks that were free, and no other byte changes. -/
structure FilePlaced (n m offset : Int) (raw bitmap raw' bitmap' : Bytes) (file : List UInt8) (subs : List Sub) : Prop where
  stored : Stored n m raw' offset file subs
  free : ∀ b ∈ blocksOf subs, bitmap b = 0
  marked : ∀ b, bitmap' b = if b ∈ blocksOf subs then 1 else bitmap b
  vacant : isInode offset raw = false
  frame : ∀ p, (∀ b ∈ blocksOf subs, ¬ InBlock b p) → ¬ InSlot offset p → raw' p = raw p

theorem isInode_congr {offset : Int} {raw raw' : Bytes} (same : ∀ p, InSlot offset p → raw' p = raw p) :
    isInode offset raw' = isInode offset raw := by
  unfold isInode
  refine Bool.eq_iff_iff.mpr ?_
  simp only [List.any_eq_true, List.mem_range]
  refine exists_congr fun k => and_congr_right fun bound => ?_
  rw [readInt_congr (m := raw') (q := raw) fun p lower upper => same p ⟨by omega, by omega⟩]

section Bounds
variable {n m d i : Int} (reserved : 1 ≤ m) (ordered : m ≤ n) (small : n * 1024 < 2 ^ 31)
include ordered small

theorem placeInode_spec {raw raw' : Bytes} {ip : Inode} (row : 0 ≤ d) (column : 0 ≤ i)
    (run : placeInode d i m raw ip = .ok raw') :
    d < m ∧ i < 10 ∧ isInode (slotOffset d i) raw = false ∧
      raw' = memcpy (slotOffset d i) (bytesOfWords ip.word) 100 raw := by
  unfold placeInode at run
  by_cases high : m ≤ d
  · simp [high] at run
  by_cases wide : 10 ≤ i
  · simp [high, wide] at run
  have offset : wrap32 (wrap32 (d * 1024) + wrap32 (i * 100)) = slotOffset d i := by
    rw [wrap32_of_range (x := d * 1024) (by omega) (by omega), wrap32_of_range (x := i * 100) (by omega) (by omega)]
    exact wrap32_of_range (by omega) (by omega)
  rw [offset] at run
  by_cases taken : isInode (slotOffset d i) raw = true
  · simp [high, wide, taken] at run
  · simp only [high, wide, taken, if_false, Except.ok.injEq, Bool.false_eq_true] at run
    exact ⟨by omega, by omega, by simpa using taken, run.symm⟩

omit ordered small in
/-- A stored file has a data block for every started kilobyte, and one at least. -/
theorem FileGrew.length_dataOf {file : List UInt8} {s w : Placing} {subs : List Sub}
    (grew : FileGrew file n m s w subs)
    (short : file.length < 2 ^ 31) (nonempty : subs ≠ []) (stored : w.fpr = file.length) :
    (dataOf subs).length = max 1 ((file.length + 1023) / 1024) := by
  have position := grew.position
  obtain ⟨⟨k, t⟩, ts, rfl⟩ := List.exists_cons_of_ne_nil nonempty
  cases grew.levels 0 ⟨k, t⟩ rfl
  -- the first pointer of an inode names a data block
  have first : (dataOf (⟨0, t⟩ :: ts)).length = 1 + (dataOf ts).length := by
    rw [dataOf, List.flatMap_cons, List.length_append]
    rfl
  rw [← dataOf, first] at position
  rw [first]
  by_cases several : 1 < (⟨0, t⟩ :: ts : List Sub).length
  · have tight := grew.tight short several
    rw [← dataOf, first] at tight
    omega
  · rw [List.length_cons] at several
    obtain rfl : ts = [] := List.length_eq_zero_iff.mp (by omega)
    rw [dataOf, List.flatMap_nil, List.length_nil] at position ⊢
    omega

section Written
variable {src raw : Bytes} {p b : Int}

omit ordered small in
theorem memcpy_slot_outside (out : ¬ InSlot (slotOffset d i) p) : memcpy (slotOffset d i) src 100 raw p = raw p := by
  unfold InSlot at out
  exact memcpy_outside _ _ (by omega)

omit ordered small in
/-- The inode slots lie below the data area. -/
theorem memcpy_slot_block (high : d < m) (wide : i < 10) (area : m ≤ b) (inside : InBlock b p) :
    memcpy (slotOffset d i) src 100 raw p = raw p := by
  refine memcpy_slot_outside fun inSlot => ?_
  unfold InSlot slotOffset at inSlot
  unfold InBlock at inside
  omega

/-- The inode in its slot names the subtrees that it named in memory. -/
theorem slotPointer_written (reserved : 0 ≤ m) {ip : Inode} {subs : List Sub}
    (area : ∀ b ∈ blocksOf subs, m ≤ b ∧ b < n)
    {null : Int} {j : Nat} (bound : j < 17) (named : ip.pointer j = (subs[j]?.map Sub.root).getD null)
    (offset : Int) :
    slotPointer (memcpy offset (bytesOfWords ip.word) 100 raw) offset j =
      (subs[j]?.map Sub.root).getD (wrap32 null) := by
  have value := @readInt_memcpy_words offset 100 ip.word raw (j + 8) (by omega)
  rw [show ip.word (j + 8) = ip.pointer j from rfl, named,
    show offset + 4 * ↑(j + 8) = offset + 32 + 4 * j by push_cast; omega] at value
  rw [slotPointer, value]
  cases found : subs[j]? with
  | none => rfl
  | some t =>
    have inArea := area _ (mem_blocksOf (List.mem_of_getElem? found) (root_mem_nodes t.2))
    change wrap32 (root t.2) = root t.2
    exact wrap32_of_range (by omega) (by omega)

end Written

include reserved in
theorem placeFile_spec {heap : Heap} {input : Option (List UInt8)} {uid gid : Int} {raw bitmap raw' bitmap' : Bytes}
    (zeroed : ∀ j, heap.ip.pointer j = 0) (row : 0 ≤ d) (column : 0 ≤ i)
    (blank : ∀ b, m ≤ b → b < n → bitmap b = 0 → ∀ p, InBlock b p → raw p = 0)
    (run : placeFile heap input uid gid d i m raw bitmap n = .ok (raw', bitmap')) :
    ∃ file subs, input = some file ∧ d < m ∧ i < 10 ∧
      FilePlaced n m (slotOffset d i) raw bitmap raw' bitmap' file subs := by
  cases input with
  | none => cases run
  | some file =>
    obtain ⟨w, place, run⟩ := except_bind_ok run
    obtain ⟨final, inode, run⟩ := except_bind_ok run
    cases run
    obtain ⟨s, subs, rawEq, bitmapEq, grew, namedRest, nonempty, fits, _, size, position, short⟩ :=
      placeBlocks_spec (by omega) ordered small place
    have named := namedRest.named zeroed
    obtain ⟨high, wide, vacant, rfl⟩ := placeInode_spec ordered small row column inode
    subst rawEq bitmapEq
    have untouched : ∀ p, InSlot (slotOffset d i) p → w.rawdata p = s.rawdata p := fun p inSlot =>
      grew.grows.frame p fun b member inside => by
        have above := (grew.grows.area b member).1
        unfold InSlot slotOffset at inSlot
        unfold InBlock at inside
        omega
    have word : ∀ k : Nat, k < 25 → readInt (slotOffset d i + 4 * k)
        (memcpy (slotOffset d i) (bytesOfWords w.ip.word) 100 w.rawdata) = wrap32 (w.ip.word k) :=
      fun k bound => readInt_memcpy_words _ _ k (by omega)
    have kept : ∀ t ∈ subs, ∀ b ∈ nodes t.2, entry w.rawdata b =
        entry (memcpy (slotOffset d i) (bytesOfWords w.ip.word) 100 w.rawdata) b := fun t member b inside =>
      entry_congr fun p at_b => memcpy_slot_block high wide (grew.grows.area b (mem_blocksOf member inside)).1 at_b
    have blankStart : Blank n m s := blank
    have chunks := grew.length_dataOf short nonempty position
    refine ⟨file, subs, rfl, high, wide, ⟨⟨grew.grows.area, grew.grows.nodup, grew.levels,
      fun t member => (grew.held t member).congr (kept t member),
      fun t member => (grew.ended blankStart t member).congr (kept t member), grew.packed, grew.front short,
      grew.carries.congr fun b leaf p at_b =>
        memcpy_slot_block high wide (grew.grows.area b (dataOf_subset leaf)).1 at_b,
      by omega, by omega, nonempty, fits, ?_, ?_, ?_, fun j bound => ?_⟩, grew.grows.free, grew.grows.bitmap, ?_,
      fun p out notSlot => ?_⟩⟩
    · have value := word 0 (by decide)
      rw [show w.ip.word 0 = w.ip.mode from rfl, named.mode] at value
      simpa using value
    · have value := word 1 (by decide)
      rw [show w.ip.word 1 = w.ip.nlink from rfl, named.nlink] at value
      simpa using value
    · have value := word 4 (by decide)
      rw [show w.ip.word 4 = w.ip.size from rfl, size, wrap32_of_range (by omega) (by omega)] at value
      simpa using value
    · rw [slotPointer_written ordered small (by omega) grew.grows.area bound (named.pointers j bound), wrap32_zero]
    · rw [isInode_congr fun p inside => (untouched p inside).symm]
      exact vacant
    · rw [memcpy_slot_outside notSlot]
      exact grew.grows.frame p out

end Bounds

end OsLabs.Inodes
