import OsLabs.Inodes.Extract

namespace OsLabs.Inodes
open ByteMemory

/-- The arguments of a `-create` or `-insert` command; `input` is the contents
of the input file, if it can be opened. -/
structure Command where
  input : Option (List UInt8)
  uid : Int
  gid : Int
  d : Int
  i : Int

/-- The loop of `main` that marks the first `m` blocks as used. -/
def markReserved (m : Int) (bitmap : Bytes) : Bytes := fun b => if 0 ≤ b ∧ b < m then 1 else bitmap b

/-- `fwrite(rawdata, 1, n*BLOCK_SZ, outfile)` into an empty file. -/
def imageBytes (n : Int) (rawdata : Bytes) : List UInt8 :=
  (List.range (wrap32 (n * 1024)).toNat).map fun k : Nat => rawdata k

/-- `fread(rawdata, 1, n*BLOCK_SZ, fp)`; memory behind a short image is kept. -/
def loadImage (n : Int) (image : List UInt8) (rawdata : Bytes) : Bytes := fun p =>
  if 0 ≤ p ∧ p < wrap32 (n * 1024) then image[p.toNat]?.getD (rawdata p) else rawdata p

/-- The `-create` branch of `main`: the memory and the bitmap `place_file` leaves. -/
def mainCreate (heap : Heap) (n m : Int) (c : Command) : Except Exit (Bytes × Bytes) :=
  placeFile heap c.input c.uid c.gid c.d c.i m heap.rawdata (markReserved m heap.bitmap) n

/-- The bitmap the `-insert` branch passes to `place_file`. -/
def insertBitmap (heap : Heap) (n m : Int) (image : List UInt8) : Bytes :=
  walkInodesInsert (loadImage n image heap.rawdata) heap.bitmap m

/-- The `-insert` branch of `main`. -/
def mainInsert (heap : Heap) (n m : Int) (c : Command) (image : List UInt8) : Except Exit (Bytes × Bytes) :=
  placeFile heap c.input c.uid c.gid c.d c.i m (loadImage n image heap.rawdata) (insertBitmap heap n m image) n

/-- All memory `malloc` returns for an image of `n` blocks reads as zero. -/
structure Heap.Zeroed (heap : Heap) (n : Int) : Prop where
  rawdata : ∀ p, 0 ≤ p → p < n * 1024 → heap.rawdata p = 0
  bitmap : ∀ b, 0 ≤ b → b < n → heap.bitmap b = 0
  ip : ∀ k, heap.ip.word k = 0

theorem blankHeap_zeroed (n : Int) : blankHeap.Zeroed n := by
  refine ⟨fun _ _ _ => rfl, fun _ _ _ => rfl, fun k => ?_⟩
  unfold Inode.word
  split <;> simp [blankHeap]

/-- A file that a command has stored, and the blocks the command took from the bitmap for it. -/
structure Record where
  d : Int
  i : Int
  file : List UInt8
  blocks : Set Int

/-- The blocks among `0..n-1` that are free in `bitmap` and used in `bitmap'`. -/
def allocated (n : Int) (bitmap bitmap' : Bytes) : Set Int :=
  {b | 0 ≤ b ∧ b < n ∧ bitmap b = 0 ∧ bitmap' b ≠ 0}

def Command.record (c : Command) (file : List UInt8) (n : Int) (bitmap bitmap' : Bytes) : Record :=
  ⟨c.d, c.i, file, allocated n bitmap bitmap'⟩

/-- The images produced by one successful `-create` followed by successful
`-insert` runs, with the files stored so far, the latest first. -/
inductive Session (n m : Int) : List Record → List UInt8 → Prop
  | create {heap : Heap} {c : Command} {file : List UInt8} {raw bitmap : Bytes} (zeroed : heap.Zeroed n)
      (row : 0 ≤ c.d) (column : 0 ≤ c.i) (input : c.input = some file)
      (run : mainCreate heap n m c = .ok (raw, bitmap)) :
      Session n m [c.record file n (markReserved m heap.bitmap) bitmap] (imageBytes n raw)
  | insert {heap : Heap} {c : Command} {file : List UInt8} {raw bitmap : Bytes} {records : List Record}
      {image : List UInt8} (earlier : Session n m records image) (zeroed : heap.Zeroed n)
      (row : 0 ≤ c.d) (column : 0 ≤ c.i) (input : c.input = some file)
      (run : mainInsert heap n m c image = .ok (raw, bitmap)) :
      Session n m (c.record file n (insertBitmap heap n m image) bitmap :: records) (imageBytes n raw)

end OsLabs.Inodes
