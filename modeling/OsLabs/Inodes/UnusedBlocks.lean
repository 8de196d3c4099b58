import OsLabs.Inodes.ImageBounds
import OsLabs.Inodes.PlacedFile

namespace OsLabs.Inodes
open ByteMemory

section Survey
variable {rawdata : Bytes} {fileSize uid gid : Int}

end Survey

section Entries
variable (drive : Drive) (uid gid : Int) (bitmap : Bytes) (files : Nat → List UInt8) {b : Int}

end Entries

end OsLabs.Inodes
