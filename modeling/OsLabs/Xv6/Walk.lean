import OsLabs.Xv6.PageTable

namespace OsLabs.Xv6
open Command Gather

theorem PDX_page {va : Nat} (small : va < 2 ^ 32) : PDX va = va / 4096 / 1024 := by
  simp only [PDX]
  omega

theorem PTX_page (va : Nat) : PTX va = va / 4096 % 1024 := rfl

/-- Joining flags to a page-aligned address adds them. -/
theorem lor_page (f : Nat) {x : Nat} (small : x < 4096) : 4096 * f ||| x = 4096 * f + x :=
  (Nat.two_pow_add_eq_or_of_lt (i := 12) small f).symm

theorem entry_page (f : Nat) {x : Nat} (small : x < 4096) : (4096 * f + x) / 4096 = f := by
  omega

theorem entry_flags (f : Nat) {x : Nat} (small : x < 4096) : (4096 * f + x) % 4096 = x := by
  omega

theorem entry_present (f x : Nat) : present (4096 * f + x) ↔ present x := by
  simp only [present]
  omega

theorem table_entry (f : Nat) : 4096 * f ||| PTE_P ||| PTE_W ||| PTE_U = 4096 * f + 7 := by
  rw [Nat.or_assoc, Nat.or_assoc]
  exact lor_page f (by decide)

section Found
variable {ld : Linker} {s : Machine} {d : Nat} {rest total : Multiset Nat} {va : Nat}

/-- The table of a present directory entry lies in low memory. -/
theorem Dir.table_valid (dir : Dir ld s d rest total) {i : Nat} (bound : i < 1024) (here : present (s.mem d i)) :
    ld.Valid (s.mem d i / 4096) :=
  dir.valid (mem_own.mpr (.inr (.inl (mem_tables.mpr ⟨i, bound, here, rfl⟩))))

/-- Where there is a table, `walkpgdir` finds the entry and changes nothing. -/
theorem walkpgdir_found (dir : Dir ld s d rest total) (small : va < 2 ^ 32) (alloc : Bool)
    (here : present (s.mem d (va / 4096 / 1024))) : walkpgdir (kva d) va alloc s =
      .ok (kva (s.mem d (va / 4096 / 1024) / 4096) + 4 * (va / 4096 % 1024)) s := by
  have bound : va / 4096 / 1024 < 1024 := by
    omega
  have valid := (dir.table_valid bound here).range.2
  have physical := P2V_frame s (f := s.mem d (va / 4096 / 1024) / 4096) (by omega)
  unfold walkpgdir
  rw [PDX_page small, PTX_page]
  change EStateM.bind _ _ s = _
  unfold EStateM.bind
  rw [load_kva s d bound]
  dsimp only
  rw [if_pos here]
  change EStateM.bind _ _ s = _
  unfold EStateM.bind
  rw [PTE_ADDR, physical]
  rfl

/-- Where there is a table, the walk ends inside it, at the entry for the address. -/
theorem walkpgdir_covered (dir : Dir ld s d rest total) (small : va < 2 ^ 32)
    (here : present (s.mem d (va / 4096 / 1024))) :
    ∃ pte, walkpgdir (kva d) va false s = .ok pte s ∧ load pte s = .ok (pteAt s.mem d (va / 4096)) s ∧
      pte ≠ 0 ∧ (pte - KERNBASE) / 4096 ∈ tables s.mem d := by
  have index : va / 4096 % 1024 < 1024 := by omega
  refine ⟨_, walkpgdir_found dir small false here, ?_, ?_, ?_⟩
  · rw [load_kva s _ index, pteAt, if_pos here]
  · have := kva_ne_zero (s.mem d (va / 4096 / 1024) / 4096)
    omega
  · refine mem_tables.mpr ⟨va / 4096 / 1024, by omega, here, ?_⟩
    simp only [kva, KERNBASE]
    omega

/-- Without `alloc` a missing table is reported by 0. -/
theorem walkpgdir_missing (small : va < 2 ^ 32)
    (gone : ¬ present (s.mem d (va / 4096 / 1024))) : walkpgdir (kva d) va false s = .ok 0 s := by
  have bound : va / 4096 / 1024 < 1024 := by
    omega
  unfold walkpgdir
  rw [PDX_page small]
  change EStateM.bind _ _ s = _
  unfold EStateM.bind
  rw [load_kva s d bound]
  dsimp only
  rw [if_neg gone]
  rfl

end Found

section NewTable
variable {ld : Linker} {s : Machine} {d tab i : Nat} {rest total : Multiset Nat}

/-- A directory entry is pointed to a fresh table of zeros. -/
def Machine.addTable (s : Machine) (d i tab : Nat) : Machine :=
  (s.writePage tab fun _ => 0).write d i (4096 * tab + 7)

theorem addTable_other {f : Nat} (notDirectory : f ≠ d) (notTable : f ≠ tab) :
    (s.addTable d i tab).mem f = s.mem f := by
  rw [Machine.addTable, write_other _ _ _ _ notDirectory, writePage_other _ _ _ notTable]

theorem addTable_directory (apart : tab ≠ d) (j : Nat) :
    (s.addTable d i tab).mem d j = if j = i then 4096 * tab + 7 else s.mem d j := by
  by_cases here : j = i
  · rw [if_pos here, here]
    exact write_same _ _ _ _
  · rw [if_neg here, Machine.addTable, write_word _ _ _ _ here, writePage_other _ _ _ apart.symm]

theorem addTable_table (apart : tab ≠ d) (j : Nat) : (s.addTable d i tab).mem tab j = 0 := by
  rw [Machine.addTable, write_other _ _ _ _ apart, writePage_same]

variable (dir : Dir ld s d rest total) (bound : i < 1024) (gone : ¬ present (s.mem d i)) (outside : tab ∉ own s.mem d)
include dir gone outside

/-- The new table maps nothing yet. -/
theorem addTable_pteAt {v : Nat} (small : v < 2 ^ 20) : pteAt (s.addTable d i tab).mem d v = pteAt s.mem d v := by
  have apart : tab ≠ d := fun same => outside (mem_own.mpr (.inl same))
  unfold pteAt
  rw [addTable_directory apart]
  by_cases here : v / 1024 = i
  · have flags : present (4096 * tab + 7) := (entry_present tab 7).mpr rfl
    rw [if_pos here, if_pos flags, entry_page tab (by decide), addTable_table apart, here, if_neg gone]
  · rw [if_neg here]
    by_cases already : present (s.mem d (v / 1024))
    · have member : s.mem d (v / 1024) / 4096 ∈ tables s.mem d := mem_tables.mpr ⟨_, by omega, already, rfl⟩
      have fresh : s.mem d (v / 1024) / 4096 ≠ tab := by
        intro same
        rw [same] at member
        exact outside (mem_own.mpr (.inr (.inl member)))
      rw [if_pos already, if_pos already, addTable_other (dir.table_ne member) fresh]
    · rw [if_neg already, if_neg already]

theorem addTable_space : Space (s.addTable d i tab).mem d := by
  have apart : tab ≠ d := fun same => outside (mem_own.mpr (.inl same))
  refine ⟨fun j small => ?_, fun v small => ?_⟩
  · rw [addTable_directory apart]
    by_cases here : j = i
    · rw [if_pos here]
      exact .inr (entry_flags tab (by decide))
    · rw [if_neg here]
      exact dir.space.pde j small
  · rw [addTable_pteAt dir gone outside small]
    exact dir.space.pte v small

include bound

theorem addTable_own : own (s.addTable d i tab).mem d = tab ::ₘ own s.mem d := by
  have apart : tab ≠ d := fun same => outside (mem_own.mpr (.inl same))
  have flags : present (4096 * tab + 7) := (entry_present tab 7).mpr rfl
  have exchange := gather_update (f := fun j => frameOf (s.mem d j))
    (g := fun j => frameOf ((s.addTable d i tab).mem d j)) bound fun j _ other => by
      rw [addTable_directory apart, if_neg other]
  rw [addTable_directory apart, if_pos rfl, frameOf_present flags, frameOf_absent gone, entry_page tab (by decide),
    Multiset.coe_nil, add_zero, Multiset.coe_singleton, Multiset.add_comm, Multiset.singleton_add] at exchange
  unfold own
  rw [pages_congr fun v small => addTable_pteAt dir gone outside small, show tables (s.addTable d i tab).mem d =
    tab ::ₘ tables s.mem d from exchange, Multiset.cons_add, Multiset.cons_swap]

end NewTable

/-- The ghost flag does not matter to the memory. -/
theorem Dir.exhaust {ld : Linker} {s : Machine} {d : Nat} {rest total : Multiset Nat} (dir : Dir ld s d rest total) :
    Dir ld { s with exhausted := true } d rest total := ⟨dir.stock.congr rfl fun _ _ => rfl, dir.space⟩

theorem Keeps.exhaust (fs : Multiset Nat) (s : Machine) : Keeps fs s { s with exhausted := true } :=
  ⟨fun _ _ => rfl, rfl, fun _ => rfl⟩

section Allocating
variable {ld : Linker} {s : Machine} {d : Nat} {rest total : Multiset Nat} {va : Nat} {E : Panic → Machine → Prop}

/-- What `walkpgdir` with `alloc` leaves when it succeeds: a table for the page
exists and the mapping is the old one. -/
structure Walked (ld : Linker) (s t : Machine) (d v : Nat) (rest total : Multiset Nat) : Prop where
  dir : Dir ld t d rest total
  here : present (t.mem d (v / 1024))
  same : ∀ u, u < 2 ^ 20 → pteAt t.mem d u = pteAt s.mem d u
  keeps : Keeps (pages s.mem d + rest) s t

/-- The word that the pointer of `walkpgdir` points to is the entry of the page. -/
theorem Walked.word {t : Machine} {v : Nat} (walked : Walked ld s t d v rest total) (bound : v < 2 ^ 20) :
    load (kva (t.mem d (v / 1024) / 4096) + 4 * (v % 1024)) t = .ok (pteAt s.mem d v) t := by
  have entry : t.mem (t.mem d (v / 1024) / 4096) (v % 1024) = pteAt s.mem d v := by
    rw [← walked.same _ bound, pteAt, if_pos walked.here]
  rw [load_kva t _ (Nat.mod_lt v (by decide)), entry]

theorem walkpgdir_spec (dir : Dir ld s d rest total) (small : va < 2 ^ 32) :
    Yields (walkpgdir (kva d) va true) s (fun r t =>
      (r = 0 ∧ ¬ present (s.mem d (va / 4096 / 1024)) ∧ own s.mem d + rest = total ∧
        t = { s with exhausted := true }) ∨
      (r = kva (t.mem d (va / 4096 / 1024) / 4096) + 4 * (va / 4096 % 1024) ∧
        t.exhausted = s.exhausted ∧ Walked ld s t d (va / 4096) rest total)) E := by
  have bound : va / 4096 / 1024 < 1024 := by
    omega
  by_cases here : present (s.mem d (va / 4096 / 1024))
  · exact yields_ok (walkpgdir_found dir small true here)
      (.inr ⟨rfl, rfl, dir, here, fun _ _ => rfl, Keeps.refl _ s⟩)
  · unfold walkpgdir
    rw [PDX_page small, PTX_page]
    refine yields_step (load_kva s d bound) ?_
    rw [if_neg here, if_neg (by decide)]
    refine yields_bind (kalloc_spec dir.stock) fun r t post => ?_
    rcases post with ⟨rfl, none, rfl⟩ | ⟨tab, rfl, _, stock, mem, cr3, ghost⟩
    · exact yields_pure (.inl ⟨rfl, here, none, rfl⟩)
    · rw [if_neg (kva_ne_zero tab)]
      have dirAfter : Dir ld t d (tab ::ₘ rest) total := by
        refine ⟨?_, by rw [mem]; exact dir.space⟩
        rw [mem, Multiset.add_cons]
        exact stock
      have nodup := dirAfter.stock.nodup_held
      rw [Multiset.add_cons] at nodup
      have outside : tab ∉ own t.mem d := fun member =>
        (Multiset.nodup_cons.mp nodup).1 (Multiset.mem_add.mpr (.inl member))
      have notRest : tab ∉ rest := fun member => (Multiset.nodup_cons.mp nodup).1 (Multiset.mem_add.mpr (.inr member))
      have apart : tab ≠ d := fun same => outside (mem_own.mpr (.inl same))
      have goneAfter : ¬ present (t.mem d (va / 4096 / 1024)) := by rwa [mem]
      refine yields_step (memset_zero t tab) (yields_step (V2P_kva _ tab) (yields_step (store_kva _ d _ bound)
        (yields_pure (.inr ?_))))
      rw [table_entry]
      change _ = kva ((t.addTable d _ tab).mem d _ / 4096) + _ ∧ (t.addTable d _ tab).exhausted = _ ∧
        Walked ld s (t.addTable d _ tab) d _ rest total
      rw [addTable_directory apart, if_pos rfl, entry_page tab (by decide)]
      refine ⟨rfl, ghost, ⟨?_, addTable_space dirAfter goneAfter outside⟩, ?_, fun u inside => ?_, fun f member => ?_,
        cr3, fun was => ghost.trans was⟩
      · rw [addTable_own dirAfter bound goneAfter outside, Multiset.cons_add, ← Multiset.add_cons]
        refine dirAfter.stock.congr rfl fun f notHeld => addTable_other ?_ ?_
        · rintro rfl
          exact notHeld (Multiset.mem_add.mpr (.inl (mem_own.mpr (.inl rfl))))
        · rintro rfl
          exact notHeld (Multiset.mem_add.mpr (.inr (Multiset.mem_cons_self f rest)))
      · rw [addTable_directory apart, if_pos rfl]
        exact (entry_present tab 7).mpr rfl
      · rw [addTable_pteAt dirAfter goneAfter outside inside, mem]
      · have foreign := dir.apart member
        have other : f ≠ tab := by
          rintro rfl
          rcases Multiset.mem_add.mp member with page | held
          · exact outside (mem_own.mpr (.inr (.inr (by rwa [mem]))))
          · exact notRest held
        rw [addTable_other foreign.1 other, mem]

end Allocating

end OsLabs.Xv6
