import OsLabs.Inodes.WalkExtract

namespace OsLabs.Inodes
open ByteMemory PointerTree

section Copied
variable (rawdata : Bytes) (maxBlock size : Int)

def copiedSlot (k : Nat) (b : Int) : List Int := if outOfRange maxBlock b then [] else scanned rawdata maxBlock k b

/-- The data blocks that `extract_file` copies for an inode, in order. -/
def copied (ip : Inode) : List Int :=
  accepted maxBlock ip.dblocks 12 ++
    if (accepted maxBlock ip.dblocks 12).length < 12 then [] else
      (accepted maxBlock ip.iblocks 3).flatMap (scanned rawdata maxBlock 1) ++
        if (accepted maxBlock ip.iblocks 3).length < 3 then [] else
          copiedSlot rawdata maxBlock 2 ip.i2block ++ copiedSlot rawdata maxBlock 3 ip.i3block

variable {rawdata maxBlock size}

end Copied

/-- `file_count` and the numbered files. -/
def Survey.output (s : Survey) : Nat × (Nat → List UInt8) := (s.fileCount, s.files)

section Walk
variable {drive : Drive} {uid gid : Int}

end Walk

end OsLabs.Inodes
