import OsLabs.Xv6.ProcTable
import OsLabs.Xv6.Walk

namespace OsLabs.Xv6
open Command Gather

/-- The loops over the process table stop at the first slot with the pid. -/
def Table.slotOf (tab : Table) (pid : Int) : Option Nat :=
  (List.range NPROC).find? fun k => ((tab.proc k).pid : Int) == pid

/-- `walkpgdir` may return 0, which is not tested. -/
def getpagetableentry (tab : Table) (pid : Int) (address : Nat) : Kernel Nat :=
  match tab.slotOf pid with
  | none => pure 0
  | some k => do
    let pte ← walkpgdir (tab.proc k).pgdir address false
    load pte

/-- `%x` -/
def hex (n : Nat) : String := String.ofList (Nat.toDigits 16 n)

/-- What `dumppagetable` prints for an address with the entry `pte`. -/
def dumpLine (address pte : Nat) : String :=
  if present pte then
    hex (address / 4096) ++ " P " ++ (if userBit pte then "U" else "-") ++ " " ++ (if writable pte then "W" else "-") ++ " " ++
      hex (PTE_ADDR pte / 4096) ++ "\n"
  else "--------\n"

/-- One line for each page below the break. -/
def pageLines (m : Nat → Nat → Nat) (p : Proc) (d : Nat) : List String :=
  (List.range ((p.sz + 4095) / 4096)).map fun v => dumpLine (v * 4096) (pteAt m d v)

section Slots
variable {tab : Table} {pid : Int} {k : Nat}

end Slots

section Walks
variable {ld : Linker} {s : Machine} {d : Nat} {rest total : Multiset Nat}

end Walks

end OsLabs.Xv6
