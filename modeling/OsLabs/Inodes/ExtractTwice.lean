import OsLabs.Inodes.UnusedBlocks
import OsLabs.Inodes.ExtractedFiles

namespace OsLabs.Inodes
open ByteMemory

section Emission
variable {rawdata : Bytes} {size : Int}

end Emission

section Files
variable {extract : Int → List UInt8 → List UInt8}

/-- The numbered files after a call of `extract_file` for each of the offsets. -/
def outputs (extract : Int → List UInt8 → List UInt8) (offsets : List Int) (files : Nat → List UInt8) : Nat → List UInt8
  | 0 => files 0
  | k + 1 => (offsets[k]?).elim (files (k + 1)) fun offset => extract offset (files (k + 1))

end Files

end OsLabs.Inodes
