import OsLabs.Lib.Footprint
import OsLabs.Xv6.AnyBreak
import OsLabs.Xv6.ForkWait

namespace OsLabs.Xv6
open Command Gather Ownership

/-- What a slot of the process table has of its own: nothing, the kernel stack of a process
in the making, or a process' stack and address space. -/
inductive Holding
  | nothing
  | stack
  | whole
  deriving DecidableEq, Repr

/-- An address space as an object in memory. -/
def spaceOf (d : Nat) : Footprint Nat (Nat → Nat) where
  cells m := own m d
  closed _ _ same := own_congr (same d (mem_own.mpr (.inl rfl))) fun f member => same f (mem_own.mpr (.inr (.inl member)))

def estate (p : Proc) : Holding → Footprint Nat (Nat → Nat)
  | .nothing => .nothing
  | .stack => .cell p.stackFrame
  | .whole => .both (.cell p.stackFrame) (spaceOf p.dir)

/-- All slots beside the kernel's own page directory, and all but the slot `i`. -/
def held (tab : Table) (hold : Nat → Holding) (kdir : Nat) : Footprint Nat (Nat → Nat) :=
  .both (spaceOf kdir) (.all (Finset.range NPROC) fun k => estate (tab.proc k) (hold k))

def beside (tab : Table) (hold : Nat → Holding) (kdir i : Nat) : Footprint Nat (Nat → Nat) :=
  .both (spaceOf kdir) (.all ((Finset.range NPROC).erase i) fun k => estate (tab.proc k) (hold k))

/-- The fields of a slot name what the slot has. -/
structure Fits (lost : Multiset Nat) (m : Nat → Nat → Nat) (p : Proc) (h : Holding) : Prop where
  stack : h ≠ .nothing → p.kstack = kva p.stackFrame
  directory : h = .whole → p.pgdir = kva p.dir
  space : h = .whole → Space m p.dir
  high : h = .whole → HighLost lost m p.dir

/-- Every frame handed to the allocator is free, lost, or one slot has it. -/
structure Books (ld : Linker) (tab : Table) (hold : Nat → Holding) (s : Machine) (kdir : Nat) (lost total : Multiset Nat) :
    Prop where
  stock : Stock ld s (lost + (held tab hold kdir).cells s.mem) total
  slots : ∀ k, k < NPROC → Fits lost s.mem (tab.proc k) (hold k)
  kernel : tab.kpgdir = kva kdir

section Frames
variable {m m' : Nat → Nat → Nat} {tab : Table} {hold : Nat → Holding} {lost lost' : Multiset Nat}
    {kdir i : Nat} {p : Proc}
  {h : Holding}

theorem cells_whole (m : Nat → Nat → Nat) (p : Proc) : (estate p .whole).cells m = p.stackFrame ::ₘ own m p.dir := rfl

theorem cells_stack (m : Nat → Nat → Nat) (p : Proc) : (estate p .stack).cells m = {p.stackFrame} := rfl

theorem cells_none (m : Nat → Nat → Nat) (p : Proc) : (estate p .nothing).cells m = 0 := rfl

theorem held_split (bound : i < NPROC) :
    (held tab hold kdir).cells m = (estate (tab.proc i) (hold i)).cells m + (beside tab hold kdir i).cells m := by
  unfold held beside
  rw [Footprint.cells_both, Footprint.cells_both, Footprint.all_split _ (Finset.mem_range.mpr bound), add_left_comm]

theorem mem_beside {f : Nat} : f ∈ (beside tab hold kdir i).cells m ↔
    f ∈ own m kdir ∨ ∃ j, j ≠ i ∧ j < NPROC ∧ f ∈ (estate (tab.proc j) (hold j)).cells m := by
  unfold beside
  rw [Footprint.cells_both, Multiset.mem_add, Footprint.mem_all]
  simp only [Finset.mem_erase, Finset.mem_range, and_assoc]
  rfl

theorem beside_set (p : Proc) (h : Holding) :
    beside (tab.set i p) (Function.update hold i h) kdir i = beside tab hold kdir i := by
  unfold beside
  rw [Footprint.all_erase_congr (e := fun k => estate (tab.proc k) (hold k))]
  intro j _ other
  rw [tab.set_other p other, Function.update_of_ne other]

theorem fits_nothing : Fits lost m p .nothing :=
  ⟨fun some => absurd rfl some, fun never => (nomatch never), fun never => (nomatch never),
    fun never => (nomatch never)⟩

theorem fits_stack (stack : p.kstack = kva p.stackFrame) : Fits lost m p .stack :=
  ⟨fun _ => stack, fun never => (nomatch never), fun never => (nomatch never), fun never => (nomatch never)⟩

theorem fits_whole (stack : p.kstack = kva p.stackFrame) (directory : p.pgdir = kva p.dir) (space : Space m p.dir)
    (high : HighLost lost m p.dir) : Fits lost m p .whole :=
      ⟨fun _ => stack, fun _ => directory, fun _ => space, fun _ => high⟩

theorem Fits.stack_ne_zero (fits : Fits lost m p h) (whole : h = .whole) : p.kstack ≠ 0 := by
  rw [fits.stack (by rw [whole]; decide)]
  exact kva_ne_zero _

/-- A slot fits as long as its own frames are left alone. -/
theorem Fits.congr (fits : Fits lost m p h) (more : lost ≤ lost') (same : ∀ f ∈ (estate p h).cells m, m' f = m f) :
    Fits lost' m' p h := by
  have owned : h = .whole → ∀ f ∈ own m p.dir, m' f = m f := by
    rintro rfl f member
    exact same f (Multiset.mem_cons_of_mem member)
  refine ⟨fits.stack, fits.directory, fun whole => ?_, fun whole => ?_⟩
  · exact (fits.space whole).congr (owned whole _ (mem_own.mpr (.inl rfl))) fun f table =>
      owned whole f (mem_own.mpr (.inr (.inl table)))
  · exact ((fits.high whole).mono more).congr fun v bound =>
      pteAt_congr bound (owned whole _ (mem_own.mpr (.inl rfl)))
      fun f table => owned whole f (mem_own.mpr (.inr (.inl table)))

end Frames

section Books
variable {ld : Linker} {tab : Table} {hold : Nat → Holding} {s t : Machine} {kdir i : Nat}
    {lost lost' total : Multiset Nat}

/-- One slot changes while the frames of all others are left alone. -/
theorem Books.replace (books : Books ld tab hold s kdir lost total) (bound : i < NPROC) {q : Proc} {h : Holding}
    (stock : Stock ld t ((estate q h).cells t.mem + (lost' + (beside tab hold kdir i).cells s.mem)) total)
    (keeps : ∀ f ∈ (beside tab hold kdir i).cells s.mem, t.mem f = s.mem f) (more : lost ≤ lost')
    (fits : Fits lost' t.mem q h) : Books ld (tab.set i q) (Function.update hold i h) t kdir lost' total := by
  have same := (beside tab hold kdir i).closed s.mem t.mem keeps
  refine ⟨?_, fun k low => ?_, books.kernel⟩
  · rw [held_split bound, tab.set_self, Function.update_self, beside_set, same, add_left_comm]
    exact stock
  · by_cases here : k = i
    · subst here
      rwa [tab.set_self, Function.update_self]
    · rw [tab.set_other q here, Function.update_of_ne here]
      exact (books.slots k low).congr more fun f member => keeps f (mem_beside.mpr (.inr ⟨k, here, low, member⟩))

/-- The frames of one slot before all others. -/
theorem Books.split (books : Books ld tab hold s kdir lost total) (bound : i < NPROC) :
    Stock ld s ((estate (tab.proc i) (hold i)).cells s.mem + (lost + (beside tab hold kdir i).cells s.mem))
      total := by
  have stock := books.stock
  rwa [held_split bound, add_left_comm] at stock

/-- The address space of a slot beside everything else. -/
theorem Books.focus (books : Books ld tab hold s kdir lost total) (bound : i < NPROC) (whole : hold i = .whole) :
    Dir ld s (tab.proc i).dir (lost + ((tab.proc i).stackFrame ::ₘ (beside tab hold kdir i).cells s.mem)) total := by
  have stock := books.split bound
  rw [whole, cells_whole, Multiset.cons_add] at stock
  refine ⟨?_, (books.slots i bound).space whole⟩
  rwa [Multiset.add_cons, Multiset.add_cons]

/-- A slot whose address space has changed. -/
theorem Books.refocus (books : Books ld tab hold s kdir lost total) (bound : i < NPROC)
    (whole : hold i = .whole) {q : Proc}
    (dir : Dir ld t (tab.proc i).dir
      (lost' + ((tab.proc i).stackFrame ::ₘ (beside tab hold kdir i).cells s.mem)) total)
    (high : HighLost lost' t.mem (tab.proc i).dir) (more : lost ≤ lost')
    (keeps : ∀ f ∈ (beside tab hold kdir i).cells s.mem, t.mem f = s.mem f)
    (pgdir : q.pgdir = (tab.proc i).pgdir) (kstack : q.kstack = (tab.proc i).kstack) :
    Books ld (tab.set i q) hold t kdir lost' total := by
  have fits := books.slots i bound
  have sameDir : q.dir = (tab.proc i).dir := by rw [Proc.dir, pgdir, Proc.dir]
  have sameStack : q.stackFrame = (tab.proc i).stackFrame := by rw [Proc.stackFrame, kstack, Proc.stackFrame]
  have stock := dir.stock
  rw [Multiset.add_cons, Multiset.add_cons, ← Multiset.cons_add] at stock
  have done := books.replace bound (by rwa [cells_whole, sameDir, sameStack]) keeps more (fits_whole ?_ ?_ ?_ ?_)
  · rwa [← whole, Function.update_eq_self] at done
  · rw [sameStack, kstack]
    exact fits.stack (by rw [whole]; decide)
  · rw [sameDir, pgdir]
    exact fits.directory whole
  · rw [sameDir]
    exact dir.space
  · rw [sameDir]
    exact high

/-- A process has run in its own address space. -/
theorem Books.spread (books : Books ld tab hold s kdir lost total) (bound : i < NPROC)
    (whole : hold i = .whole) {q : Proc}
    (spread : Spread ld s t (tab.proc i).dir lost lost'
      ((tab.proc i).stackFrame ::ₘ (beside tab hold kdir i).cells s.mem) total)
    (pgdir : q.pgdir = (tab.proc i).pgdir) (kstack : q.kstack = (tab.proc i).kstack) :
    Books ld (tab.set i q) hold t kdir lost' total :=
  books.refocus bound whole spread.dir spread.high spread.more
    (fun f member => spread.keeps.mem f (Multiset.mem_cons_of_mem member)) pgdir kstack

/-- The books depend on the pointers of the slots only. -/
theorem Books.relabel (books : Books ld tab hold s kdir lost total) {tab' : Table}
    (pgdir : ∀ k, (tab'.proc k).pgdir = (tab.proc k).pgdir) (kstack : ∀ k, (tab'.proc k).kstack = (tab.proc k).kstack)
    (kernel : tab'.kpgdir = tab.kpgdir) : Books ld tab' hold s kdir lost total := by
  have dir : ∀ k, (tab'.proc k).dir = (tab.proc k).dir := fun k => by rw [Proc.dir, pgdir, Proc.dir]
  have stack : ∀ k, (tab'.proc k).stackFrame = (tab.proc k).stackFrame := fun k => by
    rw [Proc.stackFrame, kstack, Proc.stackFrame]
  have same : ∀ k h, estate (tab'.proc k) h = estate (tab.proc k) h := by
    intro k h
    cases h with
    | nothing => rfl
    | stack => rw [estate, stack, estate]
    | whole => rw [estate, stack, dir, estate]
  refine ⟨?_, fun k low => ?_, kernel.trans books.kernel⟩
  · unfold held
    simp only [same]
    exact books.stock
  · have fits := books.slots k low
    refine ⟨fun some => ?_, fun whole => ?_, fun whole => ?_, fun whole => ?_⟩
    · rw [kstack, stack]
      exact fits.stack some
    · rw [pgdir, dir]
      exact fits.directory whole
    · rw [dir]
      exact fits.space whole
    · rw [dir]
      exact fits.high whole

/-- A slot goes on having what it has. -/
theorem Books.stays (books : Books ld tab hold s kdir lost total) {k : Nat} {h : Holding} (same : hold k = h) :
    Books ld tab (Function.update hold k h) s kdir lost total := by
  rw [← same, Function.update_eq_self]
  exact books

/-- A slot keeps its stack and its page directory. -/
theorem Books.rewrite (books : Books ld tab hold s kdir lost total) {k : Nat} {q : Proc}
    (pgdir : q.pgdir = (tab.proc k).pgdir)
    (kstack : q.kstack = (tab.proc k).kstack) : Books ld (tab.set k q) hold s kdir lost total :=
  books.relabel (tab.set_kept Proc.pgdir pgdir) (tab.set_kept Proc.kstack kstack) rfl

theorem Books.congr (books : Books ld tab hold s kdir lost total) (mem : t.mem = s.mem)
    (head : t.freelist = s.freelist) :
    Books ld tab hold t kdir lost total := by
  refine ⟨?_, ?_, books.kernel⟩
  · rw [mem]
    exact books.stock.congr head fun _ _ => by rw [mem]
  · rw [mem]
    exact books.slots

end Books

end OsLabs.Xv6
