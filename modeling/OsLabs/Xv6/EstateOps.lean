import OsLabs.Xv6.Estate
import OsLabs.Xv6.ForkStages

namespace OsLabs.Xv6
open Command Gather Ownership

section Memory
variable {ld : Linker} {entries : Entries} {tab : Table} {hold : Nat → Holding} {s : Machine} {kdir i k : Nat}
  {lost total : Multiset Nat} {E : Panic → Machine → Prop} (books : Books ld tab hold s kdir lost total)
include books

theorem Books.access (bound : i < NPROC) (whole : hold i = .whole)
    (current : s.cr3 = 4096 * (tab.proc i).dir) (op : Access)
    {a : Nat} (small : a < 2 ^ 32) : Yields (userAccess (lazyPaging ld) op a 2 (tab.proc i)) s (fun r t =>
      (r.2 = tab.proc i ∨ r.2 = { tab.proc i with killed := true }) ∧
        ∃ lost', Books ld (tab.set i r.2) hold t kdir lost' total) fun _ _ => True := by
  have fits := books.slots i bound
  refine (userAccess_any op small 2 s _ lost (books.focus bound whole) (fits.high whole)
    (fits.directory whole) current).imp
    fun r t post => ⟨post.1, ?_⟩
  obtain ⟨same, lost', spread⟩ := post
  refine ⟨lost', books.spread bound whole spread ?_ ?_⟩
  all_goals rcases same with same | same <;> rw [same]

theorem Books.trap (bound : i < NPROC) (whole : hold i = .whole) (current : s.cr3 = 4096 * (tab.proc i).dir)
    {cr2 : Nat}
    (small : cr2 < 2 ^ 32) : Yields (trapLazy ld (tab.proc i) cr2) s (fun q t =>
      (q = tab.proc i ∨ q = { tab.proc i with killed := true }) ∧
        ∃ lost', Books ld (tab.set i q) hold t kdir lost' total) fun _ _ => True := by
  have fits := books.slots i bound
  refine (trapLazy_any (books.focus bound whole) (fits.high whole) (fits.directory whole) current small).imp
    fun q t post => ⟨post.1, ?_⟩
  obtain ⟨same, lost', spread⟩ := post
  refine ⟨lost', books.spread bound whole spread ?_ ?_⟩
  all_goals rcases same with same | same <;> rw [same]

/-- The kernel stores to a user address for the running process. -/
theorem Books.copyout (bound : i < NPROC) (whole : hold i = .whole)
    (current : s.cr3 = 4096 * (tab.proc i).dir) {a x : Nat}
    (user : a < KERNBASE) : Yields (store a x) s (fun _ t => Books ld tab hold t kdir lost total) fun _ _ =>
      True := by
  have fits := books.slots i bound
  have directory : s.cr3 / 4096 = (tab.proc i).dir := by
    rw [current]
    exact Nat.mul_div_cancel_left _ (by decide)
  unfold Yields store frameAt
  rw [if_neg (not_le.mpr user), directory]
  by_cases here : present (pteAt s.mem (tab.proc i).dir (a / 4096))
  · dsimp only
    rw [if_pos here]
    have page : pteAt s.mem (tab.proc i).dir (a / 4096) / 4096 ∈ pages s.mem (tab.proc i).dir :=
      mem_pages.mpr ⟨_, user_page user, here, rfl⟩
    have spread := Spread.poke (t := s.write (pteAt s.mem (tab.proc i).dir (a / 4096) / 4096) (a % 4096 / 4) x)
      (books.focus bound whole) (fits.high whole) (Multiset.mem_add.mpr (.inl page)) rfl rfl rfl
      fun g other => write_other _ _ _ _ other
    have done := books.spread (q := tab.proc i) bound whole spread rfl rfl
    rwa [tab.set_proc] at done
  · dsimp only
    rw [if_neg here]
    trivial

/-- `wait` frees the stack and the address space of a child. -/
theorem Books.reap (bound : k < NPROC) (whole : hold k = .whole) (q : Proc) :
    Yields (do
      kfree ld (tab.proc k).kstack
      freevm ld (tab.proc k).pgdir) s
      (fun _ t => Books ld (tab.set k q) (Function.update hold k .nothing) t kdir lost total) E := by
  have fits := books.slots k bound
  have dir := books.focus bound whole
  rw [Multiset.add_cons] at dir
  rw [fits.directory whole, fits.stack (by rw [whole]; decide)]
  refine dir.reap.imp fun _ t post => ?_
  obtain ⟨stock, keeps⟩ := post
  refine books.replace bound ?_ (fun f member => keeps.mem f (Multiset.mem_add.mpr (.inr member))) le_rfl fits_nothing
  rwa [cells_none, zero_add]

/-- `giveStack` for the slot of an embryo. -/
theorem Books.stack (bound : k < NPROC) (nothing : hold k = .nothing) : Yields (giveStack entries tab k) s (fun r t =>
    (r = (false, tab.set k { tab.proc k with kstack := 0, state := .unused }) ∧ Books ld r.2 hold t kdir lost total) ∨
      ∃ f, r = (true, tab.set k { tab.proc k with kstack := kva f }) ∧
        Books ld r.2 (Function.update hold k .stack) t kdir lost total) E := by
  unfold giveStack
  have stock := books.split bound
  rw [nothing, cells_none, zero_add] at stock
  refine yields_bind (kalloc_spec stock) fun r t post => ?_
  rcases post with ⟨rfl, _, rfl⟩ | ⟨f, rfl, _, stockAfter, mem, _, _⟩
  · rw [if_pos rfl]
    refine yields_pure (.inl ⟨rfl, ?_⟩)
    have done := books.replace (t := { s with exhausted := true })
      (q := { tab.proc k with kstack := 0, state := .unused })
      (h := .nothing) bound ?_ (fun _ _ => rfl) le_rfl fits_nothing
    · rwa [← nothing, Function.update_eq_self] at done
    · rw [cells_none, zero_add]
      exact stock.congr rfl fun _ _ => rfl
  · rw [if_neg (kva_ne_zero f)]
    have foreign := (Multiset.nodup_cons.mp stockAfter.nodup_held).1
    refine yields_bind (initStack_spec entries f) fun _ u only => yields_pure (.inr ⟨f, rfl, ?_⟩)
    refine books.replace bound ?_ (fun g member => ?_) le_rfl (fits_stack ?_)
    · rw [cells_stack, Proc.stackFrame, kva_frame, Multiset.singleton_add]
      refine stockAfter.congr only.freelist fun g notHeld => only.mem g ?_
      rintro rfl
      exact notHeld (Multiset.mem_cons_self ..)
    · rw [only.mem g, mem]
      rintro rfl
      exact foreign (Multiset.mem_add.mpr (.inr member))
    · rw [Proc.stackFrame, kva_frame]

/-- `copySpace` for an embryo with a stack and its parent. -/
theorem Books.copy (bound : i < NPROC) (whole : hold i = .whole) (low : k < NPROC) (stack : hold k = .stack) :
    Yields (copySpace ld tab i k) s (fun r t => ∃ lost',
      (r = (false, tab.set k { tab.proc k with pgdir := 0 }) ∧ Books ld r.2 hold t kdir lost' total) ∨
        ∃ e, r = (true, tab.set k { tab.proc k with pgdir := kva e }) ∧
          Books ld r.2 (Function.update hold k .whole) t kdir lost' total) fun _ _ => True := by
  have parent := books.slots i bound
  have fits := books.slots k low
  have kstack : (tab.proc k).kstack = kva (tab.proc k).stackFrame := fits.stack (by rw [stack]; decide)
  have dir := books.focus bound whole
  -- what the parent has beside everything else is what the child has beside everything else
  have account : own s.mem (tab.proc i).dir +
      (lost + ((tab.proc i).stackFrame ::ₘ (beside tab hold kdir i).cells s.mem)) =
      (tab.proc k).stackFrame ::ₘ (lost + (beside tab hold kdir k).cells s.mem) := by
    have left : (held tab hold kdir).cells s.mem = _ + (beside tab hold kdir i).cells s.mem := held_split bound
    have right : (held tab hold kdir).cells s.mem = _ + (beside tab hold kdir k).cells s.mem := held_split low
    rw [left, whole, cells_whole, stack, cells_stack, Multiset.cons_add, Multiset.singleton_add] at right
    rw [Multiset.add_cons, Multiset.add_cons, add_left_comm, ← Multiset.add_cons, right, Multiset.add_cons]
  unfold copySpace
  rw [parent.directory whole]
  refine yields_bind (copyuvm_any dir (tab.proc i).sz) fun r t post => ?_
  unfold Copied at post
  rw [account] at post
  rcases post with ⟨rfl, more, stock, keeps⟩ | ⟨e, more, rfl, spread⟩
  · refine yields_pure ⟨more + lost, .inl ⟨rfl, ?_⟩⟩
    have done := books.replace (q := { tab.proc k with pgdir := 0 }) (h := .stack) low ?_
        (fun f member => keeps.mem f ?_)
      (Multiset.le_add_left lost more) (fits_stack kstack)
    · rwa [← stack, Function.update_eq_self] at done
    · rw [cells_stack, Multiset.singleton_add, add_assoc, ← Multiset.add_cons]
      exact stock
    · exact Multiset.mem_cons_of_mem (Multiset.mem_add.mpr (.inr member))
  · have directory : ({ tab.proc k with pgdir := kva e } : Proc).dir = e := by rw [Proc.dir, kva_frame]
    have result : (kva e != 0) = true := bne_iff_ne.mpr (kva_ne_zero e)
    refine yields_pure ⟨more + lost, .inr ⟨e, by rw [result], ?_⟩⟩
    refine books.replace low ?_ (fun f member => spread.keeps.mem f ?_) (Multiset.le_add_left lost more)
      (fits_whole kstack ?_ ?_ ?_)
    · have stock := spread.dir.stock
      rw [cells_whole, directory, Multiset.cons_add, add_assoc more, ← Multiset.add_cons, ← Multiset.add_cons]
      exact stock
    · exact Multiset.mem_cons_of_mem (Multiset.mem_add.mpr (.inr member))
    · rw [directory]
    · rw [directory]
      exact spread.dir.space
    · rw [directory]
      exact spread.high.mono (Multiset.le_add_right more lost)

/-- `abandonSlot` for an embryo with a stack. -/
theorem Books.abandon (bound : k < NPROC) (stack : hold k = .stack) : Yields (abandonSlot ld tab k) s (fun tab' t =>
    tab' = tab.set k { tab.proc k with kstack := 0, state := .unused } ∧
      Books ld tab' (Function.update hold k .nothing) t kdir lost total) E := by
  have fits := books.slots k bound
  have stock := books.split bound
  rw [stack, cells_stack, Multiset.singleton_add] at stock
  unfold abandonSlot
  rw [fits.stack (by rw [stack]; decide)]
  refine yields_bind (kfree_keeps stock) fun _ t post => yields_pure ⟨rfl, ?_⟩
  obtain ⟨freed, keeps, _⟩ := post
  refine books.replace bound ?_ (fun f member => keeps.mem f (Multiset.mem_add.mpr (.inr member))) le_rfl fits_nothing
  rwa [cells_none, zero_add]

/-- `fillChild` for an embryo with an address space. -/
theorem Books.fill (bound : i < NPROC) (whole : hold i = .whole) (low : k < NPROC) (child : hold k = .whole) :
    Yields (fillChild tab i k) s (fun tab' t =>
      tab' = tab.set k { tab.proc k with sz := (tab.proc i).sz, parent := some i } ∧
        Books ld tab' hold t kdir lost total) E := by
  have parent := books.slots i bound
  have fits := books.slots k low
  have dir := books.focus low child
  rw [Multiset.add_cons] at dir
  unfold fillChild
  rw [parent.stack (by rw [whole]; decide), fits.stack (by rw [child]; decide)]
  refine yields_bind (copyTrapframe_spec _ _ 19 s (by decide)) fun _ t frame => ?_
  refine yields_bind (store_stack _ 0 (by decide)) fun _ u last => yields_pure ⟨rfl, ?_⟩
  obtain ⟨after, keeps, entries⟩ := dir.only (frame.trans last)
  rw [← Multiset.add_cons] at after
  refine books.refocus low child after ((fits.high child).congr entries) le_rfl
    (fun f member => keeps.mem f ?_) rfl rfl
  exact Multiset.mem_add.mpr (.inr member)

end Memory

end OsLabs.Xv6
