import OsLabs.Xv6.ProcTable

namespace OsLabs.Xv6

section Stages
variable (ld : Linker) (entries : Entries)

/-- `allocproc` while it holds the lock of the table: an embryo with a pid. -/
def claimSlot (tab : Table) : Option (Nat × Table) :=
  ((List.range NPROC).find? fun k => (tab.proc k).state == .unused).map fun k =>
    (k, { tab.set k { tab.proc k with state := .embryo, pid := tab.nextpid } with nextpid := tab.nextpid + 1 })

/-- The rest of `allocproc`: a kernel stack, or the slot is given back. -/
def giveStack (tab : Table) (k : Nat) : Kernel (Bool × Table) := do
  let kstack ← kalloc
  if kstack = 0 then pure (false, tab.set k { tab.proc k with kstack := 0, state := .unused })
  else
    initStack entries kstack
    pure (true, tab.set k { tab.proc k with kstack := kstack })

/-- `np->pgdir = copyuvm(curproc->pgdir, curproc->sz)` -/
def copySpace (tab : Table) (i k : Nat) : Kernel (Bool × Table) := do
  let pgdir ← copyuvm ld (tab.proc i).pgdir (tab.proc i).sz
  pure (pgdir != 0, tab.set k { tab.proc k with pgdir := pgdir })

/-- `fork` without an address space for the child. -/
def abandonSlot (tab : Table) (k : Nat) : Kernel Table := do
  kfree ld (tab.proc k).kstack
  pure (tab.set k { tab.proc k with kstack := 0, state := .unused })

def fillChild (tab : Table) (i k : Nat) : Kernel Table := do
  copyTrapframe (tab.proc k).kstack (tab.proc i).kstack 19
  store ((tab.proc k).kstack + 4 * 1012) 0
  pure (tab.set k { tab.proc k with sz := (tab.proc i).sz, parent := some i })

def publish (tab : Table) (k : Nat) : Table := tab.set k { tab.proc k with state := .runnable }

/-- `fork` as its stages one after the other. -/
def forkInStages (tab : Table) (i : Nat) : Kernel (Int × Table) :=
  match claimSlot tab with
  | none => pure (-1, tab)
  | some (k, tab) => do
    let (stacked, tab) ← giveStack entries tab k
    if stacked then
      let (copied, tab) ← copySpace ld tab i k
      if copied then
        let tab ← fillChild tab i k
        pure ((tab.proc k).pid, publish tab k)
      else
        let tab ← abandonSlot ld tab k
        pure (-1, tab)
    else pure (-1, tab)

/-- `kill`: the process does not exit before it returns to user space. -/
def kill (tab : Table) (pid : Int) : Table :=
  match (List.range NPROC).find? fun k => ((tab.proc k).pid : Int) == pid with
  | none => tab
  | some k => tab.set k { tab.proc k with
      killed := true, state := if (tab.proc k).state = .sleeping then .runnable else (tab.proc k).state }

end Stages

/-- A slot written twice. -/
theorem Table.set_again (tab : Table) (k : Nat) (p q : Proc) : (tab.set k p).set k q = tab.set k q :=
  tab.set_set k tab.nextpid p q

theorem allocproc_stages (entries : Entries) (tab : Table) : allocproc entries tab =
    match claimSlot tab with
    | none => pure (none, tab)
    | some (k, tab) => giveStack entries tab k >>= fun r => pure (if r.1 then some k else none, r.2) := by
  unfold allocproc claimSlot
  cases found : (List.range NPROC).find? fun k => (tab.proc k).state == .unused with
  | none => rfl
  | some k =>
    have unused : (tab.proc k).state = .unused := by simpa using List.find?_some found
    dsimp only [Option.map_some]
    unfold giveStack
    rw [bind_assoc]
    refine bind_congr fun kstack => ?_
    by_cases null : kstack = 0
    · rw [if_pos null, if_pos null, pure_bind, tab.set_set, tab.set_self, unused]
      rfl
    · rw [if_neg null, if_neg null, bind_assoc]
      refine bind_congr fun _ => ?_
      rw [pure_bind, tab.set_set, tab.set_self]
      rfl

/-- `fork` once it has a slot. -/
theorem fork_rest (ld : Linker) (tab : Table) (i k : Nat) :
    (do
      let pgdir ← copyuvm ld (tab.proc i).pgdir (tab.proc i).sz
      if pgdir = 0 then
        kfree ld (tab.proc k).kstack
        pure ((-1 : Int), tab.set k { tab.proc k with pgdir := 0, kstack := 0, state := .unused })
      else
        copyTrapframe (tab.proc k).kstack (tab.proc i).kstack 19
        store ((tab.proc k).kstack + 4 * 1012) 0
        pure (((tab.proc k).pid : Int), tab.set k { tab.proc k with
          pgdir := pgdir, sz := (tab.proc i).sz, parent := some i, state := .runnable })) =
    (do
      let (copied, tab) ← copySpace ld tab i k
      if copied then
        let tab ← fillChild tab i k
        pure (((tab.proc k).pid : Int), publish tab k)
      else
        let tab ← abandonSlot ld tab k
        pure (-1, tab)) := by
  unfold copySpace abandonSlot fillChild publish
  rw [bind_assoc]
  refine bind_congr fun pgdir => ?_
  have stack : ((tab.set k { tab.proc k with pgdir := pgdir }).proc i).kstack = (tab.proc i).kstack := by
    by_cases here : i = k
    · rw [here, tab.set_self]
    · rw [tab.set_other _ here]
  have size : ((tab.set k { tab.proc k with pgdir := pgdir }).proc i).sz = (tab.proc i).sz := by
    by_cases here : i = k
    · rw [here, tab.set_self]
    · rw [tab.set_other _ here]
  rw [pure_bind]
  by_cases null : pgdir = 0
  · simp [null, tab.set_self, tab.set_again]
  · simp [null, tab.set_self, tab.set_again, stack, size]

theorem fork_stages (ld : Linker) (entries : Entries) (tab : Table) (i : Nat) :
    fork ld entries tab i = forkInStages ld entries tab i := by
  unfold fork forkInStages
  rw [allocproc_stages]
  cases claimSlot tab with
  | none => rfl
  | some claimed =>
    obtain ⟨k, tab'⟩ := claimed
    dsimp only
    rw [bind_assoc]
    refine bind_congr fun r => ?_
    rw [pure_bind]
    obtain ⟨stacked, tab''⟩ := r
    cases stacked with
    | false => rfl
    | true => exact fork_rest ld tab'' i k

end OsLabs.Xv6
