import OsLabs.Xv6.ProcTable

namespace OsLabs.Xv6

abbrev ELF_MAGIC : Nat := 0x464C457F
abbrev ELF_PROG_LOAD : Nat := 1
abbrev MAXARG : Nat := 32

/-- A file as `exec` sees it: `readi` copies these bytes, fewer than `n` at the end of the file
and none where it fails. -/
structure File where
  readi : Nat → Nat → List UInt8
  bounded : ∀ off n, (readi off n).length ≤ n

/-- The integers of `struct elfhdr` and `struct proghdr`. -/
def ushortAt (bytes : List UInt8) (k : Nat) : Nat := (bytes.getD k 0).toNat + (bytes.getD (k + 1) 0).toNat * 2 ^ 8

def uintAt (bytes : List UInt8) (k : Nat) : Nat := ushortAt bytes k + ushortAt bytes (k + 2) * 2 ^ 16

structure ProgHdr where
  type : Nat
  off : Nat
  vaddr : Nat
  filesz : Nat
  memsz : Nat

def proghdr (bytes : List UInt8) : ProgHdr :=
  ⟨uintAt bytes 0, uintAt bytes 4, uintAt bytes 8, uintAt bytes 16, uintAt bytes 20⟩

/-- `*(uchar*)a = b` -/
def storeByte (a : Nat) (b : UInt8) : Kernel Unit := fun s =>
  match frameAt s a with
  | some f => .ok () (writeByte s f a b.toNat)
  | none => .error .fault s

/-- `memmove` of bytes to `a`. -/
def storeBytes : Nat → List UInt8 → Kernel Unit
  | _, [] => pure ()
  | a, b :: bytes => do
    storeByte a b
    storeBytes (a + 1) bytes

/-- The loop of `loaduvm`; false for -1; the fuel is the number of pages left. -/
def loadLoop (ip : File) (pgdir addr offset sz : Nat) : Nat → Nat → Kernel Bool
  | 0, i => if i < sz then throw .stuck else pure true
  | fuel + 1, i =>
    if i < sz then do
      let pte ← walkpgdir pgdir ((addr + i) % 2 ^ 32) false
      -- panic("loaduvm: address should exist")
      if pte = 0 then throw .loaduvmNoPte
      else
        let entry ← load pte
        let pa ← P2V (PTE_ADDR entry)
        let n := if sz - i < 4096 then sz - i else 4096
        storeBytes pa (ip.readi ((offset + i) % 2 ^ 32) n)
        if (ip.readi ((offset + i) % 2 ^ 32) n).length ≠ n then pure false
        else loadLoop ip pgdir addr offset sz fuel ((i + 4096) % 2 ^ 32)
    else pure true

def loaduvm (pgdir addr : Nat) (ip : File) (offset sz : Nat) : Kernel Bool :=
  -- panic("loaduvm: addr must be page aligned")
  if addr % 4096 ≠ 0 then throw .loaduvmNotAligned
  else loadLoop ip pgdir addr offset sz ((sz + (4096 - 1)) / 4096) 0

def uva2ka (pgdir uva : Nat) : Kernel Nat := do
  let pte ← walkpgdir pgdir uva false
  let entry ← load pte
  if ¬ present entry then pure 0
  else if ¬ userBit entry then pure 0
  else P2V (PTE_ADDR entry)

/-- The loop of `copyout`; false for -1; every round copies a byte at least. -/
def copyoutLoop (pgdir : Nat) : Nat → Nat → List UInt8 → Kernel Bool
  | 0, _, buf => if 0 < buf.length then throw .stuck else pure true
  | fuel + 1, va, buf =>
    if 0 < buf.length then do
      let pa0 ← uva2ka pgdir (PGROUNDDOWN va)
      if pa0 = 0 then pure false
      else
        let n := min (4096 - (va - PGROUNDDOWN va)) buf.length
        storeBytes (pa0 + (va - PGROUNDDOWN va)) (buf.take n)
        copyoutLoop pgdir fuel ((PGROUNDDOWN va + 4096) % 2 ^ 32) (buf.drop n)
    else pure true

def copyout (pgdir va : Nat) (buf : List UInt8) : Kernel Bool := copyoutLoop pgdir buf.length va buf

section Exec
variable (ld : Linker)

/-- The loop of `exec` over the program headers; none is a jump to `bad`. -/
def loadProgram (ip : File) (pgdir : Nat) : Nat → Nat → Nat → Kernel (Option Nat)
  | 0, _, sz => pure (some sz)
  | left + 1, off, sz =>
    let ph := proghdr (ip.readi off 32)
    if (ip.readi off 32).length ≠ 32 then pure none
    else if ph.type ≠ ELF_PROG_LOAD then loadProgram ip pgdir left ((off + 32) % 2 ^ 32) sz
    else if ph.memsz < ph.filesz then pure none
    else if (ph.vaddr + ph.memsz) % 2 ^ 32 < ph.vaddr then pure none
    else do
      let sz ← allocuvm ld pgdir sz ((ph.vaddr + ph.memsz) % 2 ^ 32)
      if sz = 0 then pure none
      else if ph.vaddr % 4096 ≠ 0 then pure none
      else
        let loaded ← loaduvm pgdir ph.vaddr ip ph.off ph.filesz
        if loaded then loadProgram ip pgdir left ((off + 32) % 2 ^ 32) sz else pure none

/-- The loop of `exec` over the arguments: the stack pointer and the pointers to the strings. -/
def pushArgs (pgdir : Nat) : List (List UInt8) → Nat → Nat → List Nat → Kernel (Option (Nat × List Nat))
  | [], _, sp, pointers => pure (some (sp, pointers))
  | arg :: args, argc, sp, pointers =>
    if MAXARG ≤ argc then pure none
    else do
      let sp := (sp + 2 ^ 32 - (arg.length + 1)) % 2 ^ 32 / 4 * 4
      let copied ← copyout pgdir sp (arg ++ [0])
      if copied then pushArgs pgdir args (argc + 1) sp (pointers ++ [sp]) else pure none

/-- A word in memory. -/
def uintBytes (x : Nat) : List UInt8 :=
  [UInt8.ofNat x, UInt8.ofNat (x / 2 ^ 8), UInt8.ofNat (x / 2 ^ 16), UInt8.ofNat (x / 2 ^ 24)]

/-- `ustack`: a return address, `argc`, `argv` and the strings. -/
def ustack (sp : Nat) (pointers : List Nat) : List UInt8 :=
  ([0xffffffff, pointers.length, (sp + 2 ^ 32 - (pointers.length + 1) * 4) % 2 ^ 32] ++ pointers ++ [0]).flatMap uintBytes

/-- How many bytes the strings take on the stack at most, and with the pointers. -/
def stringBytes (argv : List (List UInt8)) : Nat := (argv.map fun arg => arg.length + 4).sum

def argBytes (argv : List (List UInt8)) : Nat := stringBytes argv + 4 * (argv.length + 4)

/-- The program and its stack in a new address space: the break and the stack pointer. -/
def buildImage (ip : File) (elf : List UInt8) (argv : List (List UInt8)) (pgdir : Nat) : Kernel (Option (Nat × Nat)) := do
  match ← loadProgram ld ip pgdir (ushortAt elf 44) (uintAt elf 28) 0 with
  | none => pure none
  | some sz =>
    let sz ← allocuvm ld pgdir (PGROUNDUP sz) ((PGROUNDUP sz + 2 * 4096) % 2 ^ 32)
    if sz = 0 then pure none
    else
      clearpteu pgdir (sz - 2 * 4096)
      match ← pushArgs pgdir argv 0 sz [] with
      | none => pure none
      | some (sp, pointers) =>
        let top := (sp + 2 ^ 32 - (ustack sp pointers).length) % 2 ^ 32
        let copied ← copyout pgdir top (ustack sp pointers)
        pure (if copied then some (sz, top) else none)

/-- `exec` for the file at the path, if there is one; `argv` are the strings without their
last 0. `eip` and `esp` are the words 14 and 17 of the trap frame. -/
def exec (file : Option File) (argv : List (List UInt8)) (tab : Table) (i : Nat) : Kernel (Int × Table) :=
  match file with
  | none => pure (-1, tab)
  | some ip =>
    let elf := ip.readi 0 52
    if elf.length ≠ 52 then pure (-1, tab)
    else if uintAt elf 0 ≠ ELF_MAGIC then pure (-1, tab)
    else do
      let pgdir ← setupkvm ld
      if pgdir = 0 then pure (-1, tab)
      else
        match ← buildImage ld ip elf argv pgdir with
        | none =>
          freevm ld pgdir
          pure (-1, tab)
        | some (sz, sp) =>
          let q := { tab.proc i with pgdir := pgdir, sz := sz }
          store (q.kstack + 4 * 1019) (uintAt elf 24)
          store (q.kstack + 4 * 1022) sp
          switchuvm q
          freevm ld (tab.proc i).pgdir
          pure (0, tab.set i q)

end Exec

end OsLabs.Xv6
