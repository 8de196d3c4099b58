import OsLabs.Xv6.Process

namespace OsLabs.Xv6

abbrev NPROC : Nat := 64

/-- The process table with `nextpid` and `initproc`, and the kernel's own page directory. -/
structure Table where
  proc : Nat → Proc
  nextpid : Nat
  initproc : Nat
  kpgdir : Nat

def Table.set (tab : Table) (k : Nat) (p : Proc) : Table :=
  { tab with proc := fun j => if j = k then p else tab.proc j }

theorem Table.set_self (tab : Table) (k : Nat) (p : Proc) : (tab.set k p).proc k = p := if_pos rfl

theorem Table.set_other (tab : Table) {j k : Nat} (p : Proc) (other : j ≠ k) : (tab.set k p).proc j = tab.proc j :=
  if_neg other

/-- A part of a slot that the new process has too stays the same in all slots. -/
theorem Table.set_kept {α : Type} (part : Proc → α) (tab : Table) {k : Nat} {p : Proc}
    (same : part p = part (tab.proc k))
    (j : Nat) : part ((tab.set k p).proc j) = part (tab.proc j) := by
  by_cases here : j = k
  · rw [here, tab.set_self, same]
  · rw [tab.set_other p here]

theorem Table.set_proc (tab : Table) (k : Nat) : tab.set k (tab.proc k) = tab := by
  have same : (fun j => if j = k then tab.proc k else tab.proc j) = tab.proc := by
    funext j
    by_cases here : j = k
    · rw [if_pos here, here]
    · rw [if_neg here]
  unfold Table.set
  rw [same]

/-- A slot written twice, with a pid drawn in between. -/
theorem Table.set_set (tab : Table) (k n : Nat) (p q : Proc) :
    Table.set { tab.set k p with nextpid := n } k q = { tab.set k q with nextpid := n } := by
  have same : (fun j => if j = k then q else if j = k then p else tab.proc j) = fun j =>
      if j = k then q else tab.proc j := by
    funext j
    by_cases here : j = k
    · rw [if_pos here, if_pos here]
    · rw [if_neg here, if_neg here, if_neg here]
  unfold Table.set
  dsimp only
  rw [same]

/-- The addresses of `forkret` and `trapret`. -/
structure Entries where
  forkret : Nat
  trapret : Nat

/-- `*np->tf = *curproc->tf`: the trap frame takes the last 19 words of a kernel stack. -/
def copyTrapframe (dst src : Nat) : Nat → Kernel Unit
  | 0 => pure ()
  | left + 1 => do
    let x ← load (src + 4 * (1024 - (left + 1)))
    store (dst + 4 * (1024 - (left + 1))) x
    copyTrapframe dst src left

/-- The context behind the trap frame: `trapret` and a `struct context` of zeros up to its `eip`. -/
def initStack (entries : Entries) (kstack : Nat) : Kernel Unit := do
  store (kstack + 4 * 1004) entries.trapret
  store (kstack + 4 * 999) 0
  store (kstack + 4 * 1000) 0
  store (kstack + 4 * 1001) 0
  store (kstack + 4 * 1002) 0
  store (kstack + 4 * 1003) entries.forkret

section Kernel
variable (ld : Linker) (entries : Entries)

def allocproc (tab : Table) : Kernel (Option Nat × Table) :=
  match (List.range NPROC).find? fun k => (tab.proc k).state == .unused with
  | none => pure (none, tab)
  | some k => do
    let kstack ← kalloc
    if kstack = 0 then
      pure (none, { tab.set k { tab.proc k with pid := tab.nextpid, kstack := 0 } with nextpid := tab.nextpid + 1 })
    else
      initStack entries kstack
      pure (some k, { tab.set k { tab.proc k with state := .embryo, pid := tab.nextpid, kstack := kstack } with
        nextpid := tab.nextpid + 1 })

def fork (tab : Table) (i : Nat) : Kernel (Int × Table) := do
  let (slot, tab) ← allocproc entries tab
  match slot with
  | none => pure (-1, tab)
  | some k =>
    let pgdir ← copyuvm ld (tab.proc i).pgdir (tab.proc i).sz
    if pgdir = 0 then
      kfree ld (tab.proc k).kstack
      pure (-1, tab.set k { tab.proc k with pgdir := 0, kstack := 0, state := .unused })
    else
      copyTrapframe (tab.proc k).kstack (tab.proc i).kstack 19
      store ((tab.proc k).kstack + 4 * 1012) 0
      pure ((tab.proc k).pid, tab.set k { tab.proc k with
        pgdir := pgdir, sz := (tab.proc i).sz, parent := some i, state := .runnable })

/-- Processes sleep in `wait` only, each on itself. -/
def wakeup1 (tab : Table) (chan : Option Nat) : Table :=
  { tab with proc := fun j =>
      if some j = chan ∧ (tab.proc j).state = .sleeping then { tab.proc j with state := .runnable } else tab.proc j }

/-- The loop of `exit` over the table: abandoned children go to `initproc`. -/
def reparent (tab : Table) (i : Nat) : Table :=
  { tab with proc := fun j =>
      if (tab.proc j).parent = some i then { tab.proc j with parent := some tab.initproc } else tab.proc j }

/-- Some abandoned child is already a zombie. -/
def zombieChild (tab : Table) (i : Nat) : Option Nat :=
  (List.range NPROC).find? fun k => (tab.proc k).parent == some i && (tab.proc k).state == .zombie

def exit (tab : Table) (i : Nat) : Kernel Table :=
  if i = tab.initproc then throw .initExiting
  else
    let woken := reparent (wakeup1 tab (tab.proc i).parent) i
    let woken := if (zombieChild tab i).isSome then wakeup1 woken (some tab.initproc) else woken
    pure (woken.set i { woken.proc i with state := .zombie })

/-- One pass of `wait` over the table; none is the result when the process goes to sleep. -/
def wait (tab : Table) (i : Nat) : Kernel (Option Int × Table) :=
  match zombieChild tab i with
  | some k => do
    kfree ld (tab.proc k).kstack
    freevm ld (tab.proc k).pgdir
    pure (some (tab.proc k).pid, tab.set k { tab.proc k with
      kstack := 0, pid := 0, parent := none, killed := false, state := .unused })
  | none =>
    if (∀ k ∈ List.range NPROC, (tab.proc k).parent ≠ some i) ∨ (tab.proc i).killed = true then pure (some (-1), tab)
    else pure (none, tab.set i { tab.proc i with state := .sleeping })

/-- What a process does in its time slice: a memory access of the program, an access of
the kernel on its behalf that faults at `cr2`, or a system call. -/
inductive ProcOp
  | access (op : Access) (a : Nat)
  | fault (cr2 : Nat)
  | sbrk (n : Int)
  | fork
  | exit
  | wait

/-- A killed process exits on its way back to user mode. -/
def leave (tab : Table) (i : Nat) : Kernel Table :=
  if (tab.proc i).killed = true ∧ (tab.proc i).state = .running then exit tab i else pure tab

/-- The operation, with the result of a system call that returns. -/
def runOp (tab : Table) (i : Nat) : ProcOp → Kernel (Option Int × Table)
  | .access op a => do
    let (_, q) ← userAccess (lazyPaging ld) op a 2 (tab.proc i)
    let tab ← leave (tab.set i q) i
    pure (none, tab)
  | .fault cr2 => do
    let q ← trapLazy ld (tab.proc i) cr2
    pure (none, tab.set i q)
  | .sbrk n => do
    let (r, q) ← sysSbrk (lazyPaging ld) (tab.proc i) n
    let tab ← leave (tab.set i q) i
    pure (some r, tab)
  | .fork => do
    let (r, tab) ← fork ld entries tab i
    let tab ← leave tab i
    pure (some r, tab)
  | .exit => do
    let tab ← exit tab i
    pure (none, tab)
  | .wait => do
    let (r, tab) ← wait ld tab i
    let tab ← leave tab i
    pure (r, tab)

/-- The scheduler runs a process for one operation; still running, it yields. -/
def timeSlice (tab : Table) (i : Nat) (op : ProcOp) : Kernel (Option Int × Table) := do
  switchuvm (tab.proc i)
  let (r, tab) ← runOp ld entries (tab.set i { tab.proc i with state := .running }) i op
  let pa ← V2P tab.kpgdir
  lcr3 pa
  pure (r, if (tab.proc i).state = .running then tab.set i { tab.proc i with state := .runnable } else tab)

end Kernel

end OsLabs.Xv6
