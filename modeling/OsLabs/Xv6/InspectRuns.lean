import OsLabs.Xv6.Concurrent
import OsLabs.Xv6.FrameOwners
import OsLabs.Xv6.Inspect

namespace OsLabs.Xv6
open Command Gather Ownership

/-- The machine of a processor with the page directory at `c`, that of the caller. -/
def Sys.seen (x : Sys) (c : Nat) : Machine := { x.machine with cr3 := c }

/-- A kernel pointer that may be followed: it is not null and leads to no free frame. -/
structure Sound (s : Machine) (ptr : Nat) : Prop where
  notNull : ptr ≠ 0
  notFree : ∀ free, Chain s.mem s.freelist free → (ptr - KERNBASE) / 4096 ∉ free

/-- Reading the entry for `a` in the slot `k` follows the page directory of a slot that has not
been freed and a pointer into a page table. -/
structure Sys.Safe (x : Sys) (s : Machine) (k a : Nat) : Prop where
  notFreed : x.freed k = false
  directory : Sound s (x.tab.proc k).pgdir
  table : ∃ pte, walkpgdir (x.tab.proc k).pgdir a false s = .ok pte s ∧ Sound s pte

/-- What `dumppagetable` is to print for a process. -/
def report (pid : Int) (m : Nat → Nat → Nat) (p : Proc) : List String :=
  ("START PAGE TABLE (pid " ++ toString pid ++ ")\n") :: pageLines m p p.dir ++ ["END PAGE TABLE\n"]

/-- The slot is in use, and a `fork` that is filling it has assigned its page directory. -/
def Sys.HasSpace (x : Sys) (k : Nat) : Prop :=
  (x.tab.proc k).state ≠ .unused ∧ ∀ stage i, x.birth k = some (stage, i) → stage = .copied ∨ stage = .filled

/-- A page table covers the address. -/
def Sys.Covered (x : Sys) (k a : Nat) : Prop := present (x.machine.mem (x.tab.proc k).dir (a / 4096 / 1024))

instance (x : Sys) (k a : Nat) : Decidable (x.Covered k a) := inferInstanceAs (Decidable (present _))

section Slots
variable {tab : Table} {pid : Int} {s : Machine} {k : Nat}

end Slots

/-- Held frames are not free. -/
theorem Dir.notFree {ld : Linker} {s : Machine} {d f : Nat} {rest total : Multiset Nat}
    (dir : Dir ld s d rest total) (member : f ∈ own s.mem d) :
    ∀ free, Chain s.mem s.freelist free → f ∉ free := by
  intro free chain inFree
  obtain ⟨⟨free', chain', account⟩, nodup, _⟩ := dir.stock
  rw [← account, ← chain.unique chain'] at nodup
  exact Multiset.disjoint_left.mp (Multiset.nodup_add.mp nodup).2.2 (Multiset.mem_coe.mpr inFree)
    (Multiset.mem_add.mpr (.inl member))

section Reading
variable {ld : Linker} {x : Sys} {kdir k a : Nat} {lost total : Multiset Nat}
    (order : Orderly ld x kdir lost total) (c : Nat)
include order

theorem Orderly.hasSpace (k : Nat) : x.HasSpace k ↔ x.hold k = .whole := by
  unfold Sys.HasSpace Sys.hold holding
  cases birth : x.birth k with
  | none => simp
  | some fork =>
    obtain ⟨stage, i⟩ := fork
    have embryo : (x.tab.proc k).state = .embryo := (order.birth birth).2.1
    rw [embryo]
    cases stage <;> simp [Stage.holding]

/-- The address space of a slot as any processor sees it. -/
theorem Orderly.space (low : k < NPROC) (has : x.HasSpace k) :
    Dir ld (x.seen c) (x.tab.proc k).dir
      (lost + ((x.tab.proc k).stackFrame ::ₘ (beside x.tab x.hold kdir k).cells x.machine.mem)) total ∧
      (x.tab.proc k).pgdir = kva (x.tab.proc k).dir := by
  have whole := (order.hasSpace k).mp has
  have books : Books ld x.tab x.hold (x.seen c) kdir lost total := order.books.congr rfl rfl
  exact ⟨books.focus low whole, (books.slots k low).directory whole⟩

/-- Only the process with a pid other than 0 has it. -/
theorem Orderly.alone {pid : Int} (low : k < NPROC) (used : (x.tab.proc k).state ≠ .unused)
    (hit : ((x.tab.proc k).pid : Int) = pid) : ∀ j, j < NPROC → ((x.tab.proc j).pid : Int) = pid → j = k := by
  intro j inside same
  have equal : (x.tab.proc j).pid = (x.tab.proc k).pid := Int.ofNat_inj.mp (same.trans hit.symm)
  exact order.pids.distinct j k inside low equal (by rw [equal]; exact order.pids.used k low used)

/-- What a safe read returns. -/
theorem Orderly.entry (low : k < NPROC) (small : a < 2 ^ 32) (has : x.HasSpace k) (covered : x.Covered k a)
    {pid : Int}
    (found : x.tab.slotOf pid = some k) : getpagetableentry x.tab pid a (x.seen c) =
      .ok (pteAt (x.seen c).mem (x.tab.proc k).dir (a / 4096)) (x.seen c) := by
  obtain ⟨dir, directory⟩ := order.space c low has
  obtain ⟨pte, walk, word, _, _⟩ := walkpgdir_covered dir small covered
  unfold getpagetableentry
  rw [found]
  change EStateM.bind _ _ (x.seen c) = _
  rw [EStateM.bind, directory, walk]
  exact word

variable {live : ProcState → Prop}

end Reading

section Tiny

end Tiny

end OsLabs.Xv6
