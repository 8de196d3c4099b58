import OsLabs.Inodes.RoundTrip
import OsLabs.Inodes.SessionRoom
import OsLabs.Inodes.UnusedBlocks
import OsLabs.Inodes.ExtractedFiles

namespace OsLabs.Inodes
open ByteMemory

/-- The reserved blocks hold zero bytes outside the recorded inodes. -/
def Clean (m : Int) (rawdata : Bytes) (records : List Record) : Prop :=
  ∀ p, 0 ≤ p → p < m * 1024 → (∀ r ∈ records, ¬ InSlot r.offset p) → rawdata p = 0

theorem Clean.congr {m : Int} {raw raw' : Bytes} {records : List Record} (clean : Clean m raw records)
    (same : ∀ p, 0 ≤ p → p < m * 1024 → raw' p = raw p) : Clean m raw' records :=
  fun p lower upper outside => (same p lower upper).trans (clean p lower upper outside)

section Sessions
variable {n m : Int} (reserved : 1 ≤ m) (ordered : m ≤ n) (small : n * 1024 < 2 ^ 31)
include reserved ordered small

/-- Placing a file writes to the reserved blocks in the slot of its inode only. -/
theorem Clean.place {raw bitmap raw' bitmap' : Bytes} {records : List Record} {heap : Heap} {file : List UInt8}
    {uid gid d i : Int} (clean : Clean m raw records) (layout : Layout n m raw records)
    (accounts : Accounts n m bitmap records) (zeroed : heap.Zeroed n) (row : 0 ≤ d) (column : 0 ≤ i)
    (run : placeFile heap (some file) uid gid d i m raw bitmap n = .ok (raw', bitmap')) (blocks : Set Int) :
    Clean m raw' (⟨d, i, file, blocks⟩ :: records) := by
  obtain ⟨_, subs, _, _, _, placement⟩ := placeFile_spec reserved ordered small (fun j => zeroed.ip (j + 8)) row
    column (fun b lower upper free => layout.blank b lower upper ((accounts b lower upper).mp free)) run
  intro p lower upper outside
  obtain ⟨notThis, notOthers⟩ := List.forall_mem_cons.mp outside
  rw [placement.frame p (fun b member inside => ?_) notThis]
  · exact clean p lower upper notOthers
  · have above := (placement.stored.area b member).1
    unfold InBlock at inside
    omega

end Sessions

/-- `-extract` has read the image into memory. -/
structure Drive.Holds (drive : Drive) (image : List UInt8) : Prop where
  length : drive.length = image.length
  bytes : ∀ k, (below : k < image.length) → drive.rawdata k = image[k]

section Found
variable {drive : Drive} {uid gid : Int}

end Found

section Loaded
variable {n m : Int} (ordered : m ≤ n) (small : n * 1024 < 2 ^ 31)
include ordered small

end Loaded

end OsLabs.Inodes
