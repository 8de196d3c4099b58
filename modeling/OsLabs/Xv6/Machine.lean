import Mathlib.Algebra.Order.Ring.Int
import OsLabs.Lib.Command

namespace OsLabs.Xv6

abbrev KERNBASE : Nat := 0x80000000
abbrev EXTMEM : Nat := 0x100000
abbrev PHYSTOP : Nat := 0xE000000
abbrev DEVSPACE : Nat := 0xFE000000
abbrev KERNLINK : Nat := KERNBASE + EXTMEM

/-- The addresses `data` and `end` that kernel.ld defines: `data` starts a page
behind the kernel text, and the kernel ends below the top of physical memory. -/
structure Linker where
  data : Nat
  kernelEnd : Nat
  aligned : data % 4096 = 0
  behindText : KERNLINK < data
  ordered : data ≤ kernelEnd
  inMemory : kernelEnd < KERNBASE + PHYSTOP

/-- The reasons for which the kernel stops: its calls of `panic`, an access of
the kernel to an address that is not mapped, and a loop that comes to no end. -/
inductive Panic
  | kfree | v2p | p2v | remap | physTop | loaduvmNotAligned | loaduvmNoPte | freevmNoPgdir | clearpteu | copyuvmNoPte
  | copyuvmNotPresent | switchuvm | initExiting | freerange | fault | stuck
  deriving DecidableEq, Repr

/-- Physical memory as 32-bit words of 4096-byte frames, the head of the free
list as a kernel address, and the page directory in use. `exhausted` is a ghost
flag: `kalloc` has returned 0. -/
structure Machine where
  mem : Nat → Nat → Nat
  freelist : Nat
  cr3 : Nat
  exhausted : Bool

abbrev Kernel := EStateM Panic Machine

def PDX (va : Nat) : Nat := va / 2 ^ 22 % 1024
def PTX (va : Nat) : Nat := va / 2 ^ 12 % 1024
def PGROUNDUP (sz : Nat) : Nat := (sz + (4096 - 1)) % 2 ^ 32 / 4096 * 4096
def PGROUNDDOWN (a : Nat) : Nat := a / 4096 * 4096
def PTE_ADDR (pte : Nat) : Nat := pte / 4096 * 4096
def PTE_FLAGS (pte : Nat) : Nat := pte % 4096

abbrev PTE_P : Nat := 1
abbrev PTE_W : Nat := 2
abbrev PTE_U : Nat := 4

/-- The bits `PTE_P`, `PTE_W` and `PTE_U` of an entry. -/
def present (pte : Nat) : Prop := pte % 2 = 1
def writable (pte : Nat) : Prop := pte / 2 % 2 = 1
def userBit (pte : Nat) : Prop := pte / 4 % 2 = 1

instance (pte : Nat) : Decidable (present pte) := inferInstanceAs (Decidable (_ = _))
instance (pte : Nat) : Decidable (writable pte) := inferInstanceAs (Decidable (_ = _))
instance (pte : Nat) : Decidable (userBit pte) := inferInstanceAs (Decidable (_ = _))

def V2P (a : Nat) : Kernel Nat := if a < KERNBASE then throw .v2p else pure (a - KERNBASE)

def P2V (a : Nat) : Kernel Nat := if KERNBASE < a then throw .p2v else pure ((a + KERNBASE) % 2 ^ 32)

/-- The entry of the page table `m` holds for page `v` under the directory in frame
`d`, and 0 where there is no table. -/
def pteAt (m : Nat → Nat → Nat) (d v : Nat) : Nat :=
  if present (m d (v / 1024)) then m (m d (v / 1024) / 4096) (v % 1024) else 0

/-- The frame the kernel reaches at an address: kernel addresses are mapped
directly, user addresses through the page directory in use. -/
def frameAt (s : Machine) (a : Nat) : Option Nat :=
  if KERNBASE ≤ a then some ((a - KERNBASE) / 4096)
  else
    let pte := pteAt s.mem (s.cr3 / 4096) (a / 4096)
    if present pte then some (pte / 4096) else none

def Machine.write (s : Machine) (f w x : Nat) : Machine :=
  { s with mem := fun g u => if g = f ∧ u = w then x else s.mem g u }

def Machine.writePage (s : Machine) (f : Nat) (page : Nat → Nat) : Machine :=
  { s with mem := fun g u => if g = f then page u else s.mem g u }

/-- `*(uint*)a` -/
def load (a : Nat) : Kernel Nat := fun s =>
  match frameAt s a with
  | some f => .ok (s.mem f (a % 4096 / 4)) s
  | none => .error .fault s

/-- `*(uint*)a = x` -/
def store (a x : Nat) : Kernel Unit := fun s =>
  match frameAt s a with
  | some f => .ok () (s.write f (a % 4096 / 4) x)
  | none => .error .fault s

/-- `memset(a, c, 4096)` of a page. -/
def memset (a c : Nat) : Kernel Unit := fun s =>
  match frameAt s a with
  | some f => .ok () (s.writePage f fun _ => c * 0x01010101)
  | none => .error .fault s

/-- `memmove(dst, src, 4096)` of a page. -/
def memmove (dst src : Nat) : Kernel Unit := fun s =>
  match frameAt s dst, frameAt s src with
  | some f, some g => .ok () (s.writePage f (s.mem g))
  | _, _ => .error .fault s

/-- `lcr3` -/
def lcr3 (a : Nat) : Kernel Unit := modify fun s => { s with cr3 := a }

section Allocator
variable (ld : Linker)

def kfree (v : Nat) : Kernel Unit :=
  if v % 4096 ≠ 0 ∨ v < ld.kernelEnd then throw .kfree
  else do
    let pa ← V2P v
    if PHYSTOP ≤ pa then throw .kfree
    else
      memset v 1
      let s ← get
      store v s.freelist
      modify fun s => { s with freelist := v }

def kalloc : Kernel Nat := do
  let s ← get
  if s.freelist = 0 then
    modify fun s => { s with exhausted := true }
    pure 0
  else
    let next ← load s.freelist
    modify fun s => { s with freelist := next }
    pure s.freelist

end Allocator

/-- `walkpgdir` returns the kernel address of the entry for `va`, or 0. -/
def walkpgdir (pgdir va : Nat) (alloc : Bool) : Kernel Nat := do
  let entry ← load (pgdir + 4 * PDX va)
  if present entry then
    let pgtab ← P2V (PTE_ADDR entry)
    pure (pgtab + 4 * PTX va)
  else if alloc = false then pure 0
  else
    let pgtab ← kalloc
    if pgtab = 0 then pure 0
    else
      memset pgtab 0
      let pa ← V2P pgtab
      store (pgdir + 4 * PDX va) (pa ||| PTE_P ||| PTE_W ||| PTE_U)
      pure (pgtab + 4 * PTX va)

end OsLabs.Xv6
