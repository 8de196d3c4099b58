import OsLabs.Xv6.Mapping

namespace OsLabs.Xv6
open Command Gather

section Unmap
variable {ld : Linker} {s : Machine} {d v : Nat} {rest total : Multiset Nat} {E : Panic → Machine → Prop}

/-- `kfree` of a user page and the write of 0 to its entry. -/
theorem unmap_spec (dir : Dir ld s d rest total) (user : v < userPages) (here : present (pteAt s.mem d v)) :
    Yields (do
      kfree ld (kva (pteAt s.mem d v / 4096))
      store (kva (s.mem d (v / 1024) / 4096) + 4 * (v % 1024)) 0) s
      (fun _ t => Dir ld t d rest total ∧ t.mem d = s.mem d ∧
        (∀ u, u < 2 ^ 20 → pteAt t.mem d u = if u = v then 0 else pteAt s.mem d u) ∧ Keeps rest s t ∧
        t.exhausted = s.exhausted) E := by
  have small : v < 2 ^ 20 := lt_of_lt_of_le user userPages_le
  have table := table_of_page here
  have index : v % 1024 < 1024 := by omega
  have inPages : pteAt s.mem d v / 4096 ∈ pages s.mem d := mem_pages.mpr ⟨v, user, here, rfl⟩
  have notTable := dir.apart (Multiset.mem_add.mpr (.inl inPages))
  have exchange := setPte_own (x := 0) dir small table
  have old : (charge v (pteAt s.mem d v) : Multiset Nat) = {pteAt s.mem d v / 4096} := by
    rw [charge, if_pos user, frameOf_present here]
    rfl
  have nothing : (charge v 0 : Multiset Nat) = 0 := by
    rw [charge, if_pos user, frameOf_absent (by decide)]
    rfl
  rw [old, nothing, Multiset.add_zero, Multiset.add_comm, Multiset.singleton_add] at exchange
  have stock : Stock ld s (pteAt s.mem d v / 4096 ::ₘ (own (s.setPte d v 0).mem d + rest)) total := by
    rw [← Multiset.cons_add, exchange]
    exact dir.stock
  have foreign : pteAt s.mem d v / 4096 ∉ own (s.setPte d v 0).mem d + rest :=
    (Multiset.nodup_cons.mp stock.nodup_held).1
  refine yields_bind (kfree_spec stock) fun _ t post => ?_
  obtain ⟨freed, mem, cr3, ghost⟩ := post
  refine yields_ok (store_kva t _ _ index) ?_
  have tableMem : s.mem d (v / 1024) / 4096 ∈ tables s.mem d := table_mem small table
  have others : ∀ f, f ≠ pteAt s.mem d v / 4096 →
      (t.write (s.mem d (v / 1024) / 4096) (v % 1024) 0).mem f = (s.setPte d v 0).mem f := by
    intro f other
    by_cases inTable : f = s.mem d (v / 1024) / 4096
    · subst inTable
      funext u
      by_cases slot : u = v % 1024
      · rw [slot, write_same, Machine.setPte, write_same]
      · rw [write_word _ _ _ _ slot, Machine.setPte, write_word _ _ _ _ slot, mem _ other]
    · rw [write_other _ _ _ _ inTable, setPte_other inTable, mem f other]
  have directory := setPte_directory (x := 0) dir small table
  have sameTables : tables (s.setPte d v 0).mem d = tables s.mem d := tables_congr directory
  have sameDirectory : (t.write (s.mem d (v / 1024) / 4096) (v % 1024) 0).mem d = (s.setPte d v 0).mem d :=
    others d notTable.1.symm
  have sameTable : ∀ f ∈ tables (s.setPte d v 0).mem d,
      (t.write (s.mem d (v / 1024) / 4096) (v % 1024) 0).mem f = (s.setPte d v 0).mem f := by
    intro f member
    rw [sameTables] at member
    exact others f fun same => notTable.2 (same ▸ member)
  refine ⟨⟨?_, (setPte_space dir small table (.inl rfl)).congr sameDirectory sameTable⟩,
    sameDirectory.trans directory,
    fun u bound => ?_, ⟨fun f member => ?_, cr3, fun was => ghost.trans was⟩, ghost⟩
  · rw [own_congr sameDirectory sameTable]
    refine freed.congr rfl fun f notHeld => write_other _ _ _ _ ?_
    rintro rfl
    exact notHeld (Multiset.mem_add.mpr (.inl (mem_own.mpr (.inr (.inl (by rw [sameTables]; exact tableMem))))))
  · rw [pteAt_congr bound sameDirectory sameTable, setPte_pteAt dir small table bound]
  · have notFreed : f ≠ pteAt s.mem d v / 4096 := by
      rintro rfl
      exact foreign (Multiset.mem_add.mpr (.inr member))
    rw [others f notFreed, setPte_other]
    rintro rfl
    exact (dir.apart (Multiset.mem_add.mpr (.inr member))).2 tableMem

end Unmap

section Dealloc
variable {ld : Linker} {s : Machine} {d : Nat} {rest total : Multiset Nat} {E : Panic → Machine → Prop}

/-- What unmapping the pages from `k` up to `oldsz` leaves. -/
structure Unmapped (ld : Linker) (s t : Machine) (d k oldsz : Nat) (rest total : Multiset Nat) : Prop where
  dir : Dir ld t d rest total
  directory : t.mem d = s.mem d
  entries : ∀ u, u < 2 ^ 20 → pteAt t.mem d u = if k ≤ u ∧ u * 4096 < oldsz then 0 else pteAt s.mem d u
  keeps : Keeps rest s t
  exhausted : t.exhausted = s.exhausted

/-- Pages without an entry may be left out. -/
theorem Unmapped.skip {t : Machine} {k next oldsz : Nat} (done : Unmapped ld s t d next oldsz rest total)
    (later : k ≤ next)
    (gone : ∀ u, k ≤ u → u < next → pteAt s.mem d u = 0) : Unmapped ld s t d k oldsz rest total := by
  refine { done with entries := fun u bound => ?_ }
  rw [done.entries u bound]
  by_cases before : u < next
  · rw [if_neg (by omega)]
    by_cases inside : k ≤ u ∧ u * 4096 < oldsz
    · rw [if_pos inside, gone u inside.1 before]
    · rw [if_neg inside]
  · have same : (next ≤ u ∧ u * 4096 < oldsz) = (k ≤ u ∧ u * 4096 < oldsz) := propext ⟨fun h => ⟨by omega, h.2⟩,
      fun h => ⟨by omega, h.2⟩⟩
    simp only [same]

/-- The address of a user page and of the page behind it. -/
theorem page_address {k : Nat} (low : k < 2 ^ 19) :
    k * 4096 / 4096 = k ∧ k * 4096 < 2 ^ 32 ∧ (k * 4096 + 4096) % 2 ^ 32 = (k + 1) * 4096 := by
  omega

/-- The pages below a break in user space are user pages. -/
theorem heap_page {k sz : Nat} (inside : k * 4096 < sz) (low : sz ≤ KERNBASE) : k < userPages := by
  have count := userPages_eq
  simp only [KERNBASE] at low
  omega

theorem PGROUNDUP_page {sz : Nat} (low : sz ≤ KERNBASE) : PGROUNDUP sz = (sz + 4095) / 4096 * 4096 := by
  simp only [PGROUNDUP, KERNBASE] at *
  omega

/-- The first page behind the table of page `k`. -/
theorem next_table {k : Nat} (low : k < 2 ^ 19) (fuel : Nat) : (k / 1024 + 1) * 1024 < 2 ^ 20 ∧
    k ≤ (k / 1024 + 1) * 1024 ∧ k + (fuel + 1) ≤ (k / 1024 + 1) * 1024 + fuel := by
  omega

theorem deallocLoop_spec {oldsz : Nat} (low : oldsz ≤ KERNBASE) (fuel : Nat) :
    ∀ (s : Machine) (k : Nat), Dir ld s d rest total → k < 2 ^ 20 → oldsz ≤ (k + fuel) * 4096 →
      Yields (deallocLoop ld (kva d) oldsz fuel (k * 4096)) s
        (fun _ t => Unmapped ld s t d k oldsz rest total) E := by
  induction fuel with
  | zero =>
    intro s k dir _ reached
    unfold deallocLoop
    rw [if_neg (by omega)]
    refine yields_pure ⟨dir, rfl, fun u _ => ?_, Keeps.refl _ s, rfl⟩
    rw [if_neg (by omega)]
  | succ fuel ih =>
    intro s k dir bound reached
    unfold deallocLoop
    by_cases inside : k * 4096 < oldsz
    · rw [if_pos inside]
      have user : k < userPages := heap_page inside low
      have low20 : k < 2 ^ 19 := userPages_eq ▸ user
      obtain ⟨below, beyond, further⟩ := next_table low20 fuel
      obtain ⟨page, small, onward⟩ := page_address low20
      have step : pteAt s.mem d k = 0 → Yields (deallocLoop ld (kva d) oldsz fuel ((k * 4096 + 4096) % 2 ^ 32)) s
          (fun _ t => Unmapped ld s t d k oldsz rest total) E := by
        intro gone
        rw [onward]
        refine (ih s (k + 1) dir (by omega) (reached.trans (Nat.mul_le_mul_right _ (by omega)))).imp
          fun _ t done => done.skip (Nat.le_succ k) fun u lower upper => ?_
        rw [show u = k by omega, gone]
      by_cases table : present (s.mem d (k / 1024))
      · have found := walkpgdir_found dir small false (by rwa [page])
        rw [page] at found
        refine yields_step found ?_
        rw [if_neg (by have := kva_ne_zero (s.mem d (k / 1024) / 4096); omega)]
        have entry : s.mem (s.mem d (k / 1024) / 4096) (k % 1024) = pteAt s.mem d k := by rw [pteAt, if_pos table]
        refine yields_step (load_kva s _ (by omega)) ?_
        rw [entry]
        by_cases here : present (pteAt s.mem d k)
        · rw [if_pos here]
          have valid := (dir.valid (mem_own.mpr (.inr (.inr (mem_pages.mpr ⟨k, user, here, rfl⟩))))).range
          rw [PTE_ADDR, if_neg (by omega)]
          refine yields_step (P2V_frame s (by omega)) ?_
          refine yields_bind₂ (unmap_spec dir user here) fun _ t post => ?_
          obtain ⟨dirAfter, directory, entries, keeps, ghost⟩ := post
          rw [onward]
          refine (ih t (k + 1) dirAfter (by omega) (reached.trans (Nat.mul_le_mul_right _ (by omega)))).imp
            fun _ u done => ⟨done.dir, done.directory.trans directory, fun w bound => ?_, keeps.trans done.keeps,
              done.exhausted.trans ghost⟩
          rw [done.entries w bound, entries w bound]
          by_cases first : w = k
          · rw [if_pos first, ite_self, if_pos (by omega)]
          · rw [if_neg first]
            have same : (k + 1 ≤ w ∧ w * 4096 < oldsz) = (k ≤ w ∧ w * 4096 < oldsz) :=
              propext ⟨fun h => ⟨by omega, h.2⟩, fun h => ⟨by omega, h.2⟩⟩
            simp only [same]
        · rw [if_neg here]
          exact step ((dir.space.pte k bound).resolve_right here)
      · refine yields_step (walkpgdir_missing (d := d) small (by rwa [page])) ?_
        have next : (PDX (k * 4096) + 1) * 2 ^ 22 % 2 ^ 32 = (k / 1024 + 1) * 1024 * 4096 := by
          rw [PDX_page small, page]
          omega
        rw [if_pos rfl, next]
        refine (ih s ((k / 1024 + 1) * 1024) dir below (reached.trans (Nat.mul_le_mul_right _ further))).imp
          fun _ t done => done.skip beyond fun u lower upper => ?_
        rw [pteAt, show u / 1024 = k / 1024 by clear next; omega, if_neg table]
    · rw [if_neg inside]
      refine yields_pure ⟨dir, rfl, fun u _ => ?_, Keeps.refl _ s, rfl⟩
      rw [if_neg (by omega)]

theorem deallocuvm_spec {oldsz newsz : Nat} (dir : Dir ld s d rest total) (low : oldsz ≤ KERNBASE)
    (less : newsz < oldsz) : Yields (deallocuvm ld (kva d) oldsz newsz) s
      (fun r t => r = newsz ∧ Unmapped ld s t d ((newsz + 4095) / 4096) oldsz rest total) E := by
  have rounded := PGROUNDUP_page ((le_of_lt less).trans low)
  unfold deallocuvm
  rw [if_neg (by omega), rounded]
  refine yields_bind (deallocLoop_spec low _ s _ dir ?_ ?_) fun _ t done => yields_pure ⟨rfl, done⟩
  · simp only [KERNBASE] at low
    omega
  · omega

end Dealloc

section FreeVm
variable {ld : Linker} {s : Machine} {d : Nat} {rest total : Multiset Nat} {E : Panic → Machine → Prop}

/-- The tables named by the directory entries from `i` on. -/
def tablesFrom (directory : Nat → Nat) (i : Nat) : Multiset Nat :=
  gather 1024 fun j => if j < i then [] else frameOf (directory j)

theorem tablesFrom_step (directory : Nat → Nat) {i : Nat} (bound : i < 1024) :
    tablesFrom directory i = tablesFrom directory (i + 1) + (frameOf (directory i) : Multiset Nat) := by
  have exchange := gather_update (f := fun j => if j < i then [] else frameOf (directory j))
    (g := fun j => if j < i + 1 then [] else frameOf (directory j)) bound fun j _ other => by
      have same : (j < i + 1) = (j < i) := propext ⟨fun h => by omega, fun h => by omega⟩
      simp only [same]
  rw [if_neg (by omega), if_pos (by omega), Multiset.coe_nil, Multiset.add_zero] at exchange
  exact exchange.symm

theorem freeTables_spec (left : Nat) : ∀ s : Machine, left ≤ 1024 →
    Stock ld s (d ::ₘ (tablesFrom (s.mem d) (1024 - left) + rest)) total →
    Yields (freeTables ld (kva d) left) s (fun _ t => Stock ld t (d ::ₘ rest) total ∧ Keeps rest s t ∧
      t.exhausted = s.exhausted) E := by
  induction left with
  | zero =>
    intro s _ stock
    have none : tablesFrom (s.mem d) (1024 - 0) = 0 := gather_eq_zero fun j bound => if_pos bound
    rw [none, Multiset.zero_add] at stock
    exact yields_pure ⟨stock, Keeps.refl _ s, rfl⟩
  | succ left ih =>
    intro s bound stock
    have index : 1024 - (left + 1) < 1024 := by omega
    have next : 1024 - (left + 1) + 1 = 1024 - left := by omega
    rw [tablesFrom_step _ index, next] at stock
    unfold freeTables
    refine yields_step (load_kva s d index) ?_
    generalize 1024 - (left + 1) = i at *
    by_cases here : present (s.mem d i)
    · rw [frameOf_present here, Multiset.coe_singleton, Multiset.add_comm _ {s.mem d i / 4096},
        Multiset.singleton_add,
        Multiset.cons_add, Multiset.cons_swap] at stock
      have valid := stock.valid_held (Multiset.mem_cons_self ..)
      rw [if_pos here, PTE_ADDR]
      refine yields_step (P2V_frame s (by have := valid.range; omega)) ?_
      refine yields_bind (kfree_keeps stock) fun _ t post => ?_
      obtain ⟨freed, keeps, ghost⟩ := post
      have directory : t.mem d = s.mem d := keeps.mem d (Multiset.mem_cons_self ..)
      refine (ih t (by omega) (by rwa [directory])).imp fun _ u done => ⟨done.1, ?_, done.2.2.trans ghost⟩
      have rests : Keeps rest s t := keeps.subset fun f member =>
        Multiset.mem_cons_of_mem (Multiset.mem_add.mpr (.inr member))
      exact rests.trans done.2.1
    · rw [frameOf_absent here, Multiset.coe_nil, Multiset.add_zero] at stock
      rw [if_neg here]
      exact ih s (by omega) stock

/-- `freevm` returns all frames of an address space to the free list. -/
theorem freevm_spec (dir : Dir ld s d rest total) :
    Yields (freevm ld (kva d)) s (fun _ t => Stock ld t rest total ∧ Keeps rest s t ∧
      t.exhausted = s.exhausted) E := by
  unfold freevm
  rw [if_neg (kva_ne_zero d)]
  refine yields_bind (deallocuvm_spec dir le_rfl (by decide)) fun _ t done => ?_
  obtain ⟨_, done⟩ := done
  have unmapped : pages t.mem d = 0 := gather_eq_zero fun v user => by
    have low := userPages_eq ▸ user
    rw [done.entries v (lt_of_lt_of_le user userPages_le), if_pos ⟨by omega, by simp only [KERNBASE]; omega⟩]
    exact frameOf_absent (by decide)
  have whole : tables t.mem d = tablesFrom (t.mem d) (1024 - 1024) := gather_congr fun j _ => (if_neg (by omega)).symm
  have stock := done.dir.stock
  rw [own, unmapped, Multiset.add_zero, whole, Multiset.cons_add] at stock
  refine yields_bind (freeTables_spec 1024 t le_rfl stock) fun _ u post => ?_
  obtain ⟨emptied, keeps, ghost⟩ := post
  refine (kfree_keeps emptied).imp fun _ w last => ?_
  obtain ⟨freed, kept, ghost'⟩ := last
  exact ⟨freed, (done.keeps.trans keeps).trans kept, ghost'.trans (ghost.trans done.exhausted)⟩

/-- A kernel stack and the address space beside it are given back. -/
theorem Dir.reap {f : Nat} (dir : Dir ld s d (f ::ₘ rest) total) : Yields (do
    kfree ld (kva f)
    freevm ld (kva d)) s (fun _ t => Stock ld t rest total ∧ Keeps rest s t) E := by
  refine yields_bind dir.giveBack fun _ t post => ?_
  obtain ⟨left, kept, _⟩ := post
  refine (freevm_spec left).imp fun _ u post => ?_
  obtain ⟨stock, keeps, _⟩ := post
  exact ⟨stock, (kept.subset fun g member => Multiset.mem_add.mpr (.inr member)).trans keeps⟩

end FreeVm

end OsLabs.Xv6
