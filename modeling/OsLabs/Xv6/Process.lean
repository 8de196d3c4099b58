import OsLabs.Xv6.Vm

namespace OsLabs.Xv6

inductive ProcState
  | unused | embryo | sleeping | runnable | running | zombie
  deriving DecidableEq, Repr

/-- The fields of `struct proc` that memory management, `fork`, `exit` and
`wait` use; `parent` is an index into the process table. -/
structure Proc where
  sz : Nat
  pgdir : Nat
  kstack : Nat
  state : ProcState
  pid : Nat
  parent : Option Nat
  killed : Bool

def switchuvm (p : Proc) : Kernel Unit :=
  if p.kstack = 0 ∨ p.pgdir = 0 then throw .switchuvm
  else do
    let pa ← V2P p.pgdir
    lcr3 pa

/-- `sz + n` in 32-bit unsigned arithmetic. -/
def addSigned (sz : Nat) (n : Int) : Nat := ((sz + n) % 2 ^ 32).toNat

section Kernels
variable (ld : Linker)

/-- `growproc` of xv6_new_7: the break is moved and nothing else. -/
def growprocLazy (p : Proc) (n : Int) : Kernel (Int × Proc) := pure (0, { p with sz := addSigned p.sz n })

/-- `growproc` of xv6_work. -/
def growprocEager (p : Proc) (n : Int) : Kernel (Int × Proc) :=
  if 0 < n then do
    let sz ← allocuvm ld p.pgdir p.sz (addSigned p.sz n)
    if sz = 0 then pure (-1, p)
    else
      switchuvm { p with sz := sz }
      pure (0, { p with sz := sz })
  else if n < 0 then do
    let sz ← deallocuvm ld p.pgdir p.sz (addSigned p.sz n)
    if sz = 0 then pure (-1, p)
    else
      switchuvm { p with sz := sz }
      pure (0, { p with sz := sz })
  else do
    switchuvm p
    pure (0, p)

/-- The test of the `T_PGFLT` branch: the address lies below the break and its
entry is zero. The entry is read only when the address does. -/
def untouched (p : Proc) (address pte : Nat) : Kernel Bool :=
  if address < p.sz then do
    let entry ← load pte
    pure (entry == 0)
  else pure false

/-- The allocation of a page in the `T_PGFLT` branch; that `kalloc` returned 0 is not tested. -/
def faultPage (p : Proc) (address : Nat) : Kernel Proc := do
  let mem ← kalloc
  memset mem 0
  let pa ← V2P mem
  let failed ← mappages p.pgdir address 4096 pa (PTE_W ||| PTE_U)
  if failed < 0 then kfree ld mem else pure ()
  switchuvm p
  pure p

/-- The `T_PGFLT` branch of `trap` of xv6_new_7 for the faulting address `cr2`. -/
def trapLazy (p : Proc) (cr2 : Nat) : Kernel Proc := do
  let pte ← walkpgdir p.pgdir (PGROUNDDOWN cr2) true
  let allocate ← untouched p (PGROUNDDOWN cr2) pte
  if allocate then faultPage ld p (PGROUNDDOWN cr2) else pure { p with killed := true }

/-- `trap` of xv6_work kills the process on every page fault. -/
def trapEager (p : Proc) (_ : Nat) : Kernel Proc := pure { p with killed := true }

end Kernels

/-- A memory access of one byte by a user program. -/
inductive Access
  | load
  | store (b : Nat)

/-- Both the directory entry and the table entry must allow the access. -/
def userMay (op : Access) (pte : Nat) : Prop :=
  present pte ∧ userBit pte ∧ (match op with | .load => True | .store _ => writable pte)

instance (op : Access) (pte : Nat) : Decidable (userMay op pte) := by
  unfold userMay
  cases op <;> infer_instance

/-- The frame the processor reaches for a user access to `a`; none is a page fault. -/
def userFrame (s : Machine) (op : Access) (a : Nat) : Option Nat :=
  if userMay op (s.mem (s.cr3 / 4096) (a / 4096 / 1024)) ∧ userMay op (pteAt s.mem (s.cr3 / 4096) (a / 4096)) then
    some (pteAt s.mem (s.cr3 / 4096) (a / 4096) / 4096)
  else none

/-- Byte `k` of a word. -/
def byteOf (w k : Nat) : Nat := w / 256 ^ k % 256

def setByte (w k b : Nat) : Nat := w % 256 ^ k + b % 256 * 256 ^ k + w / 256 ^ (k + 1) * 256 ^ (k + 1)

def readByte (s : Machine) (f a : Nat) : Nat := byteOf (s.mem f (a % 4096 / 4)) (a % 4)

def writeByte (s : Machine) (f a b : Nat) : Machine :=
  s.write f (a % 4096 / 4) (setByte (s.mem f (a % 4096 / 4)) (a % 4) b)

/-- What a user program sees of one of its steps. -/
inductive Seen
  | value (b : Nat)
  | stored
  | returned (r : Int)
  | killed
  deriving DecidableEq, Repr

/-- An access that reaches the frame `f`. -/
def accessed (s : Machine) (f a : Nat) : Access → Seen × Machine
  | .load => (.value (readByte s f a), s)
  | .store b => (.stored, writeByte s f a b)

/-- The steps of a user program: a call of `sbrk` or an access to an address. -/
inductive UserOp
  | sbrk (n : Int)
  | access (op : Access) (a : Nat)

/-- The two kernels differ in `growproc` and in `trap`. -/
structure Paging where
  growproc : Proc → Int → Kernel (Int × Proc)
  trap : Proc → Nat → Kernel Proc

def lazyPaging (ld : Linker) : Paging := ⟨growprocLazy, trapLazy ld⟩
def eagerPaging (ld : Linker) : Paging := ⟨growprocEager ld, trapEager⟩

/-- The conversion of a `uint` to an `int`. -/
def asInt (a : Nat) : Int := if a < 2 ^ 31 then a else (a : Int) - 2 ^ 32

/-- `sys_sbrk` once it has its argument: the old break, or -1. -/
def sysSbrk (k : Paging) (p : Proc) (n : Int) : Kernel (Int × Proc) := do
  let (r, q) ← k.growproc p n
  if r < 0 then pure (-1, q) else pure (asInt p.sz, q)

/-- An access is repeated after a page fault that leaves the process alive. -/
def userAccess (k : Paging) (op : Access) (a : Nat) : Nat → Proc → Kernel (Seen × Proc)
  | 0, _ => throw .stuck
  | tries + 1, p => do
    let s ← get
    match userFrame s op a with
    | some f =>
      set (accessed s f a op).2
      pure ((accessed s f a op).1, p)
    | none =>
      let q ← k.trap p a
      if q.killed then pure (.killed, q) else userAccess k op a tries q

/-- One step of a user program; an instruction faults at most once before it succeeds. -/
def userStep (k : Paging) (p : Proc) : UserOp → Kernel (Seen × Proc)
  | .sbrk n => do
    let (r, q) ← sysSbrk k p n
    pure (.returned r, q)
  | .access op a => userAccess k op a 2 p

/-- A user program up to its end or until it is killed. -/
def userRun (k : Paging) : Proc → List UserOp → Kernel (List Seen × Proc)
  | p, [] => pure ([], p)
  | p, op :: ops => do
    let (seen, q) ← userStep k p op
    if q.killed then pure ([seen], q)
    else
      let (later, r) ← userRun k q ops
      pure (seen :: later, r)

end OsLabs.Xv6
