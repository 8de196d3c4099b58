import OsLabs.Xv6.AboveBreak
import OsLabs.Xv6.CopyUvm

namespace OsLabs.Xv6
open Command Gather

/-- An `sbrk` that does not shrink and keeps the break in user space, or an access anywhere. -/
def UserOp.Raises (p : Proc) : UserOp → Prop
  | .sbrk n => 0 ≤ n ∧ p.sz + n ≤ KERNBASE
  | .access _ a => a < 2 ^ 32

/-- The runs that only raise the break. -/
def RaisingRuns (ld : Linker) : Proc → Machine → List UserOp → Proc → Machine → Prop :=
  UserRuns ld fun p _ op => op.Raises p

/-- Page `v` of the child at `e` against page `v` of the parent at `d`. -/
structure Inherited (s t : Machine) (d e v : Nat) : Prop where
  present : present (pteAt t.mem e v) ↔ present (pteAt s.mem d v)
  unallocated : pteAt s.mem d v = 0 → pteAt t.mem e v = 0
  flags : Xv6.present (pteAt s.mem d v) → PTE_FLAGS (pteAt t.mem e v) = PTE_FLAGS (pteAt s.mem d v)
  content : Xv6.present (pteAt s.mem d v) → t.mem (pteAt t.mem e v / 4096) = s.mem (pteAt s.mem d v / 4096)
  apart : Xv6.present (pteAt s.mem d v) → pteAt t.mem e v / 4096 ≠ pteAt s.mem d v / 4096

/-- `copyuvm` returns: with the parent untouched, and with a copy of its pages unless
memory has run out. -/
def ForkCopes (ld : Linker) (s : Machine) (p : Proc) (d : Nat) : Prop :=
  ∃ r t, copyuvm ld p.pgdir p.sz s = .ok r t ∧ (∀ f ∈ own s.mem d, t.mem f = s.mem f) ∧
    ((r = 0 ∧ t.exhausted = true) ∨ ∃ e, r = kva e ∧ ∀ v, v * 4096 < p.sz → Inherited s t d e v)

/-- Every page below `sz` lies under a page table, whether it is mapped or not. -/
def TablesBelow (s : Machine) (d sz : Nat) : Prop := ∀ v, v * 4096 < sz → present (s.mem d (v / 1024))

section Fork
variable {ld : Linker} {s t : Machine} {d e v : Nat} {p q : Proc} {rest total : Multiset Nat} {ops : List UserOp}

theorem Copying.inherited {k : Nat} (copying : Copying ld s t d e k rest total) (user : v < userPages)
    (before : v < k) :
    Inherited s t d e v := by
  cases copying.below v user before with
  | skipped untouched none =>
    have gone : ¬ present (pteAt s.mem d v) := by
      rw [untouched]
      decide
    refine ⟨by rw [untouched, none], fun _ => none, fun here => absurd here gone, fun here => absurd here gone,
      fun here => absurd here gone⟩
  | copied here mapped flags content =>
    refine ⟨⟨fun _ => here, fun _ => mapped⟩, fun untouched => ?_, fun _ => flags, fun _ => content, fun _ same => ?_⟩
    · rw [untouched] at here
      exact absurd here (by decide)
    · have nodup := copying.dir.stock.nodup_held
      have child : pteAt t.mem e v / 4096 ∈ own t.mem e :=
        mem_own.mpr (.inr (.inr (mem_pages.mpr ⟨v, user, mapped, rfl⟩)))
      have parent : pteAt t.mem e v / 4096 ∈ own s.mem d + rest := by
        rw [same]
        exact Multiset.mem_add.mpr (.inl (mem_own.mpr (.inr (.inr (mem_pages.mpr ⟨v, user, here, rfl⟩)))))
      exact Multiset.disjoint_left.mp (Multiset.nodup_add.mp nodup).2.2 child parent

/-- With all page tables in place `fork` copes with the address space. -/
theorem InOrder.copes (order : InOrder ld s p d rest total) (tables : TablesBelow s d p.sz) : ForkCopes ld s p d := by
  have spec := copyuvm_spec order.low order.dir
  rw [← order.directory] at spec
  have safe := spec.mono (F := fun _ _ => False) (fun _ _ post => post) fun _ _ stopped => by
    obtain ⟨_, v, inside, missing⟩ := stopped
    exact missing (tables v inside)
  obtain ⟨r, t, run, post⟩ := safe.returns
  rcases post with ⟨zero, _, gaveUp⟩ | ⟨e, k, result, reached, _, copying⟩
  · exact ⟨r, t, run, fun f member => gaveUp.keeps.mem f (Multiset.mem_add.mpr (.inl member)),
      .inl ⟨zero, gaveUp.exhausted⟩⟩
  · refine ⟨r, t, run, fun f member => copying.keeps.mem f (Multiset.mem_add.mpr (.inl member)),
      .inr ⟨e, result, fun v inside => ?_⟩⟩
    exact copying.inherited (heap_page inside order.low) (by omega)

/-- With enough free frames a missing page table stops the kernel. -/
theorem InOrder.tabled (order : InOrder ld s p d rest total) (copes : ForkCopes ld s p d)
    (roomy : 1026 + Multiset.card (pages s.mem d) + Multiset.card (own s.mem d + rest) < Multiset.card total) :
    TablesBelow s d p.sz := by
  obtain ⟨r, t, run, _, _⟩ := copes
  have spec := copyuvm_spec order.low order.dir
  rw [← order.directory] at spec
  rcases spec.of_ok run with ⟨_, few, _⟩ | ⟨e, k, _, reached, tabled, _⟩
  · omega
  · intro v inside
    exact tabled v (by omega)

/-- What every step that raises the break keeps. -/
theorem raisingStep_order {op : UserOp} {seen : Seen} (order : InOrder ld s p d rest total) (raises : op.Raises p)
    (step : userStep (lazyPaging ld) p op s = .ok (seen, q) t) (alive : q.killed = false) :
    InOrder ld t q d rest total ∧ t.exhausted = s.exhausted := by
  cases op with
  | sbrk n =>
    obtain ⟨same, rfl⟩ := EStateM.Result.ok.inj step
    obtain ⟨_, rfl⟩ := Prod.mk.inj same
    obtain ⟨grows, inside⟩ := raises
    have sum : (addSigned p.sz n : Int) = p.sz + n := addSigned_exact (by omega) (lt_of_le_of_lt inside (by decide))
    exact ⟨order.move (by omega) order.dir rfl fun _ _ _ => rfl, rfl⟩
  | access op a =>
    obtain ⟨rfl, hit | ⟨u, paged, hit⟩⟩ := access_cases order raises step alive
    · have touched := hit.touched order raises
      exact ⟨touched.order order, touched.exhausted⟩
    · have touched := hit.touched (paged.order order) raises
      exact ⟨touched.order (paged.order order), touched.exhausted.trans paged.exhausted⟩

theorem RaisingRuns.order (run : RaisingRuns ld p s ops q t) (order : InOrder ld s p d rest total) :
    InOrder ld t q d rest total ∧ t.exhausted = s.exhausted := by
  unfold RaisingRuns at run
  induction run with
  | start => exact ⟨order, rfl⟩
  | step before raises step alive ih =>
    obtain ⟨order, same⟩ := ih
    obtain ⟨orderAfter, sameAfter⟩ := raisingStep_order order raises step alive
    exact ⟨orderAfter, sameAfter.trans same⟩

/-- In every address space a program reaches by raising its break and by loads and stores,
`copyuvm` does its work if every page below the break lies under a page table, and,
given enough free frames, only then. -/
theorem raisingRuns_fork (start : ExecSpace ld s p d rest total) (fresh : s.exhausted = false)
    (run : RaisingRuns ld p s ops q t) : t.exhausted = false ∧ (TablesBelow t d q.sz → ForkCopes ld t q d) ∧
      (1026 + Multiset.card (pages t.mem d) + Multiset.card (own t.mem d + rest) < Multiset.card total →
        ForkCopes ld t q d → TablesBelow t d q.sz) := by
  obtain ⟨order, same⟩ := RaisingRuns.order run start.order
  exact ⟨same.trans fresh, fun tables => order.copes tables, fun roomy copes => order.tabled copes roomy⟩

end Fork

section Roomy

/-- The break of the program after `sbrk(8388608)`: page 1024 lies under a page table that
does not exist. -/
def raisedProc : Proc := { tinyProc with sz := 3 * 4096 + 8388608 }

theorem roomy_raised : RaisingRuns tinyLinker tinyProc roomyMachine ([] ++ [.sbrk 8388608]) raisedProc
    roomyMachine := by
  have step : userStep (lazyPaging tinyLinker) tinyProc (.sbrk 8388608) roomyMachine =
      .ok (.returned (3 * 4096), raisedProc) roomyMachine := rfl
  exact .step .start ⟨by decide, by decide⟩ step rfl

/-- The program after `sbrk(4096)`: the new page lies under the page table of the others. -/
theorem roomy_grown : RaisingRuns tinyLinker tinyProc roomyMachine ([] ++ [.sbrk 4096])
    { tinyProc with sz := 4 * 4096 } roomyMachine := by
  have step : userStep (lazyPaging tinyLinker) tinyProc (.sbrk 4096) roomyMachine =
      .ok (.returned (3 * 4096), { tinyProc with sz := 4 * 4096 }) roomyMachine := rfl
  exact .step .start ⟨by decide, by decide⟩ step rfl

theorem roomy_tablesBelow : TablesBelow roomyMachine 512 (4 * 4096) := by
  intro v inside
  rw [show v / 1024 = 0 by omega, roomy_low (by decide), tiny_directory]
  decide

theorem raisingRuns_fork_grown : TablesBelow roomyMachine 512 (4 * 4096) ∧
    ForkCopes tinyLinker roomyMachine { tinyProc with sz := 4 * 4096 } 512 :=
  ⟨roomy_tablesBelow, (raisingRuns_fork roomy_execSpace rfl roomy_grown).2.1 roomy_tablesBelow⟩

/-- The program raises its break by 8 MB and calls `fork` before it touches the new heap:
`copyuvm` panics. -/
theorem fork_needs_tables : ¬ ∀ (ld : Linker) (s t : Machine) (p q : Proc) (d : Nat) (rest total : Multiset Nat)
    (ops : List UserOp), ExecSpace ld s p d rest total → s.exhausted = false → RaisingRuns ld p s ops q t →
    ForkCopes ld t q d := by
  intro promise
  have copes := promise _ _ _ _ _ _ _ _ _ roomy_execSpace rfl roomy_raised
  have order := (RaisingRuns.order roomy_raised roomy_execSpace.order).1
  have tabled := order.tabled copes ?_ 1024 (by decide)
  · have missing : ¬ present (roomyMachine.mem 512 (1024 / 1024)) := by
      rw [roomy_low (by decide), tiny_directory]
      decide
    exact missing tabled
  · have sub : Multiset.card (pages roomyMachine.mem 512) ≤ Multiset.card (own roomyMachine.mem 512 + {517, 518, 519}) := by
      rw [own, Multiset.card_add, Multiset.card_cons, Multiset.card_add]
      omega
    have held : Multiset.card (own roomyMachine.mem 512 + {517, 518, 519}) = 8 := by
      rw [roomy_held]
      rfl
    have all : Multiset.card roomyFrames = 2488 := by
      rw [roomyFrames, Multiset.coe_card, List.length_range']
    omega

end Roomy

end OsLabs.Xv6
