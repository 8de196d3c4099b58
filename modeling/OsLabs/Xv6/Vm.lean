import OsLabs.Xv6.Machine

namespace OsLabs.Xv6

/-- One round of the loop of `mappages`; false when there is no page table. -/
def mapPage (pgdir a pa perm : Nat) : Kernel Bool := do
  let pte ← walkpgdir pgdir a true
  if pte = 0 then pure false
  else
    let entry ← load pte
    if present entry then throw .remap
    else
      store pte (pa ||| perm ||| PTE_P)
      pure true

/-- The loop of `mappages`, `left` rounds before the one with `a == last`. -/
def mapLoop (pgdir perm : Nat) : Nat → Nat → Nat → Kernel Int
  | 0, a, pa => do
    let mapped ← mapPage pgdir a pa perm
    if mapped then pure 0 else pure (-1)
  | left + 1, a, pa => do
    let mapped ← mapPage pgdir a pa perm
    if mapped then mapLoop pgdir perm left ((a + 4096) % 2 ^ 32) ((pa + 4096) % 2 ^ 32) else pure (-1)

def mappages (pgdir va size pa perm : Nat) : Kernel Int :=
  let a := PGROUNDDOWN va
  let last := PGROUNDDOWN ((va + size + (2 ^ 32 - 1)) % 2 ^ 32)
  mapLoop pgdir perm ((last + 2 ^ 32 - a) % 2 ^ 32 / 4096) a pa

section Kernel
variable (ld : Linker)

/-- The loop of `deallocuvm`; the fuel is the number of pages left. A missing
page table is skipped as a whole. -/
def deallocLoop (pgdir oldsz : Nat) : Nat → Nat → Kernel Unit
  | 0, a => if a < oldsz then throw .stuck else pure ()
  | fuel + 1, a =>
    if a < oldsz then do
      let pte ← walkpgdir pgdir a false
      if pte = 0 then deallocLoop pgdir oldsz fuel ((PDX a + 1) * 2 ^ 22 % 2 ^ 32)
      else
        let entry ← load pte
        if present entry then
          if PTE_ADDR entry = 0 then throw .kfree
          else
            let v ← P2V (PTE_ADDR entry)
            kfree ld v
            store pte 0
            deallocLoop pgdir oldsz fuel ((a + 4096) % 2 ^ 32)
        else deallocLoop pgdir oldsz fuel ((a + 4096) % 2 ^ 32)
    else pure ()

def deallocuvm (pgdir oldsz newsz : Nat) : Kernel Nat :=
  if oldsz ≤ newsz then pure oldsz
  else do
    deallocLoop ld pgdir oldsz ((oldsz - PGROUNDUP newsz + (4096 - 1)) / 4096) (PGROUNDUP newsz)
    pure newsz

/-- The loop of `freevm` over the page directory. -/
def freeTables (pgdir : Nat) : Nat → Kernel Unit
  | 0 => pure ()
  | left + 1 => do
    let entry ← load (pgdir + 4 * (1024 - (left + 1)))
    if present entry then
      let v ← P2V (PTE_ADDR entry)
      kfree ld v
      freeTables pgdir left
    else freeTables pgdir left

def freevm (pgdir : Nat) : Kernel Unit :=
  if pgdir = 0 then throw .freevmNoPgdir
  else do
    let _ ← deallocuvm ld pgdir KERNBASE 0
    freeTables ld pgdir 1024
    kfree ld pgdir

/-- The rows of `kmap`: address, physical start and end, permissions. -/
def kmap : List (Nat × Nat × Nat × Nat) :=
  [(KERNBASE, 0, EXTMEM, PTE_W), (KERNLINK, KERNLINK - KERNBASE, ld.data - KERNBASE, 0),
    (ld.data, ld.data - KERNBASE, PHYSTOP, PTE_W), (DEVSPACE, DEVSPACE, 0, PTE_W)]

/-- The loop of `setupkvm` over `kmap`. -/
def mapKernel (pgdir : Nat) : List (Nat × Nat × Nat × Nat) → Kernel Nat
  | [] => pure pgdir
  | (virt, physStart, physEnd, perm) :: rows => do
    let failed ← mappages pgdir virt ((physEnd + 2 ^ 32 - physStart) % 2 ^ 32) physStart perm
    if failed < 0 then
      freevm ld pgdir
      pure 0
    else mapKernel pgdir rows

def setupkvm : Kernel Nat := do
  let pgdir ← kalloc
  if pgdir = 0 then pure 0
  else
    memset pgdir 0
    let top ← P2V PHYSTOP
    if DEVSPACE < top then throw .physTop
    else mapKernel ld pgdir (kmap ld)

/-- The loop of `allocuvm`; the fuel is the number of pages to allocate. -/
def allocLoop (pgdir oldsz newsz : Nat) : Nat → Nat → Kernel Nat
  | 0, a => if a < newsz then throw .stuck else pure newsz
  | fuel + 1, a =>
    if a < newsz then do
      let mem ← kalloc
      if mem = 0 then
        let _ ← deallocuvm ld pgdir newsz oldsz
        pure 0
      else
        memset mem 0
        let pa ← V2P mem
        let failed ← mappages pgdir a 4096 pa (PTE_W ||| PTE_U)
        if failed < 0 then
          let _ ← deallocuvm ld pgdir newsz oldsz
          kfree ld mem
          pure 0
        else allocLoop pgdir oldsz newsz fuel ((a + 4096) % 2 ^ 32)
    else pure newsz

def allocuvm (pgdir oldsz newsz : Nat) : Kernel Nat :=
  if KERNBASE ≤ newsz then pure 0
  else if newsz < oldsz then pure oldsz
  else allocLoop ld pgdir oldsz newsz ((newsz - PGROUNDUP oldsz + (4096 - 1)) / 4096) (PGROUNDUP oldsz)

def clearpteu (pgdir uva : Nat) : Kernel Unit := do
  let pte ← walkpgdir pgdir uva false
  if pte = 0 then throw .clearpteu
  else
    let entry ← load pte
    store pte (if userBit entry then entry - PTE_U else entry)

/-- The loop of `copyuvm` of xv6_new_7; the fuel is the number of pages to copy. -/
def copyLoop (pgdir d sz : Nat) : Nat → Nat → Kernel Nat
  | 0, i => if i < sz then throw .stuck else pure d
  | fuel + 1, i =>
    if i < sz then do
      let pte ← walkpgdir pgdir i false
      if pte = 0 then throw .copyuvmNoPte
      else
        let entry ← load pte
        if entry = 0 then copyLoop pgdir d sz fuel ((i + 4096) % 2 ^ 32)
        else if ¬ present entry then throw .copyuvmNotPresent
        else
          let mem ← kalloc
          if mem = 0 then
            freevm ld d
            pure 0
          else
            let src ← P2V (PTE_ADDR entry)
            memmove mem src
            let pa ← V2P mem
            let failed ← mappages d i 4096 pa (PTE_FLAGS entry)
            if failed < 0 then
              kfree ld mem
              freevm ld d
              pure 0
            else copyLoop pgdir d sz fuel ((i + 4096) % 2 ^ 32)
    else pure d

def copyuvm (pgdir sz : Nat) : Kernel Nat := do
  let d ← setupkvm ld
  if d = 0 then pure 0
  else copyLoop ld pgdir d sz ((sz + (4096 - 1)) / 4096) 0

end Kernel

end OsLabs.Xv6
