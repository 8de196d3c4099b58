import OsLabs.Lib.Gather
import OsLabs.Xv6.FreeList

namespace OsLabs.Xv6
open Command Gather

/-- The frame an entry names, if it is present. -/
def frameOf (pte : Nat) : List Nat := if present pte then [pte / 4096] else []

/-- The pages below `KERNBASE`. -/
def userPages : Nat := KERNBASE / 4096

def tables (m : Nat → Nat → Nat) (d : Nat) : Multiset Nat := gather 1024 fun i => frameOf (m d i)

def pages (m : Nat → Nat → Nat) (d : Nat) : Multiset Nat := gather userPages fun v => frameOf (pteAt m d v)

/-- The frames of an address space: its directory, its tables and its user pages. -/
def own (m : Nat → Nat → Nat) (d : Nat) : Multiset Nat := d ::ₘ (tables m d + pages m d)

/-- The entries of a page directory and its tables are as `walkpgdir` and `mappages` leave them. -/
structure Space (m : Nat → Nat → Nat) (d : Nat) : Prop where
  pde : ∀ i, i < 1024 → m d i = 0 ∨ m d i % 4096 = PTE_P + PTE_W + PTE_U
  pte : ∀ v, v < 2 ^ 20 → pteAt m d v = 0 ∨ present (pteAt m d v)

/-- An address space beside the frames `rest`, which others hold. -/
structure Dir (ld : Linker) (s : Machine) (d : Nat) (rest total : Multiset Nat) : Prop where
  stock : Stock ld s (own s.mem d + rest) total
  space : Space s.mem d

theorem frameOf_present {pte : Nat} (here : present pte) : frameOf pte = [pte / 4096] := if_pos here

theorem frameOf_absent {pte : Nat} (gone : ¬ present pte) : frameOf pte = [] := if_neg gone

theorem mem_frameOf {pte f : Nat} (member : f ∈ frameOf pte) : present pte ∧ f = pte / 4096 := by
  unfold frameOf at member
  by_cases here : present pte
  · rw [if_pos here, List.mem_singleton] at member
    exact ⟨here, member⟩
  · rw [if_neg here] at member
    cases member

theorem length_frameOf (pte : Nat) : (frameOf pte).length ≤ 1 := by
  unfold frameOf
  by_cases here : present pte
  · rw [if_pos here]
    exact le_rfl
  · rw [if_neg here]
    exact Nat.zero_le 1

theorem userPages_eq : userPages = 2 ^ 19 := by decide

theorem userPages_le : userPages ≤ 2 ^ 20 := by decide

theorem user_page {a : Nat} (small : a < KERNBASE) : a / 4096 < userPages := by
  have count := userPages_eq
  simp only [KERNBASE] at small
  omega

/-- A page that is present is under a page table. -/
theorem table_of_page {m : Nat → Nat → Nat} {d v : Nat} (here : present (pteAt m d v)) :
    present (m d (v / 1024)) := by
  by_contra gone
  rw [pteAt, if_neg gone] at here
  exact absurd here (by decide)

section Locality
variable {m m' : Nat → Nat → Nat} {d : Nat}

theorem mem_tables {f : Nat} : f ∈ tables m d ↔ ∃ i, i < 1024 ∧ present (m d i) ∧ f = m d i / 4096 := by
  unfold tables
  rw [mem_gather]
  constructor
  · rintro ⟨i, bound, member⟩
    exact ⟨i, bound, mem_frameOf member⟩
  · rintro ⟨i, bound, here, rfl⟩
    exact ⟨i, bound, by simp [frameOf_present here]⟩

theorem mem_pages {f : Nat} :
    f ∈ pages m d ↔ ∃ v, v < userPages ∧ present (pteAt m d v) ∧ f = pteAt m d v / 4096 := by
  unfold pages
  rw [mem_gather]
  constructor
  · rintro ⟨v, bound, member⟩
    exact ⟨v, bound, mem_frameOf member⟩
  · rintro ⟨v, bound, here, rfl⟩
    exact ⟨v, bound, by simp [frameOf_present here]⟩

theorem mem_own {f : Nat} : f ∈ own m d ↔ f = d ∨ f ∈ tables m d ∨ f ∈ pages m d := by
  simp [own]

/-- Beside its pages an address space holds its directory and at most 1024 tables. -/
theorem card_own (m : Nat → Nat → Nat) (d : Nat) : Multiset.card (own m d) ≤ 1025 + Multiset.card (pages m d) := by
  have few : Multiset.card (tables m d) ≤ 1024 := card_gather_le_count fun i _ => length_frameOf (m d i)
  rw [own, Multiset.card_cons, Multiset.card_add]
  omega

theorem pteAt_congr {v : Nat} (bound : v < 2 ^ 20) (directory : m' d = m d)
    (table : ∀ f ∈ tables m d, m' f = m f) : pteAt m' d v = pteAt m d v := by
  unfold pteAt
  rw [directory]
  by_cases here : present (m d (v / 1024))
  · rw [if_pos here, if_pos here, table _ (mem_tables.mpr ⟨v / 1024, by omega, here, rfl⟩)]
  · rw [if_neg here, if_neg here]

theorem tables_congr (directory : m' d = m d) : tables m' d = tables m d := by
  unfold tables
  rw [directory]

theorem pages_congr (same : ∀ v, v < 2 ^ 20 → pteAt m' d v = pteAt m d v) : pages m' d = pages m d :=
  gather_congr fun v bound => by rw [same v (lt_of_lt_of_le bound userPages_le)]

/-- An address space depends on its directory and its tables only. -/
theorem own_congr (directory : m' d = m d) (table : ∀ f ∈ tables m d, m' f = m f) : own m' d = own m d := by
  unfold own
  rw [tables_congr directory, pages_congr fun v bound => pteAt_congr bound directory table]

theorem Space.congr (space : Space m d) (directory : m' d = m d) (table : ∀ f ∈ tables m d, m' f = m f) :
    Space m' d := by
  refine ⟨fun i bound => ?_, fun v bound => ?_⟩
  · rw [directory]
    exact space.pde i bound
  · rw [pteAt_congr bound directory table]
    exact space.pte v bound

end Locality

section Account
variable {ld : Linker} {s t : Machine} {d : Nat} {rest total : Multiset Nat}

theorem Keeps.own (keeps : Keeps (own s.mem d + rest) s t) :
    t.mem d = s.mem d ∧ ∀ f ∈ tables s.mem d, t.mem f = s.mem f :=
  ⟨keeps.mem d (Multiset.mem_add.mpr (.inl (mem_own.mpr (.inl rfl)))), fun f member =>
    keeps.mem f (Multiset.mem_add.mpr (.inl (mem_own.mpr (.inr (.inl member)))))⟩

/-- An address space does not change with what is beside it. -/
theorem Dir.beside (dir : Dir ld s d rest total) {rest' : Multiset Nat} (keeps : Keeps (own s.mem d + rest') s t)
    (stock : Stock ld t (own s.mem d + rest') total) : Dir ld t d rest' total := by
  obtain ⟨directory, table⟩ := keeps.own
  refine ⟨?_, dir.space.congr directory table⟩
  rwa [own_congr directory table]

/-- A frame beside an address space is given back. -/
theorem Dir.giveBack {f : Nat} {E : Panic → Machine → Prop} (dir : Dir ld s d (f ::ₘ rest) total) :
    Yields (kfree ld (kva f)) s (fun _ t => Dir ld t d rest total ∧ Keeps (own s.mem d + rest) s t ∧
      t.exhausted = s.exhausted) E := by
  have stock := dir.stock
  rw [Multiset.add_cons] at stock
  refine (kfree_keeps stock).imp fun _ t post => ?_
  obtain ⟨after, keeps, ghost⟩ := post
  exact ⟨dir.beside keeps after, keeps, ghost⟩

theorem Dir.valid (dir : Dir ld s d rest total) {f : Nat} (member : f ∈ own s.mem d) : ld.Valid f :=
  dir.stock.valid_held (Multiset.mem_add.mpr (.inl member))

theorem Dir.table_ne (dir : Dir ld s d rest total) {f : Nat} (member : f ∈ tables s.mem d) : f ≠ d := by
  have nodup := (Multiset.nodup_add.mp dir.stock.nodup_held).1
  rintro rfl
  exact (Multiset.nodup_cons.mp nodup).1 (Multiset.mem_add.mpr (.inl member))

theorem Dir.table_injective (dir : Dir ld s d rest total) {i j : Nat} (left : i < 1024) (right : j < 1024)
    (presentLeft : present (s.mem d i)) (presentRight : present (s.mem d j))
    (same : s.mem d i / 4096 = s.mem d j / 4096) : i = j := by
  by_contra different
  have nodup := (Multiset.nodup_add.mp dir.stock.nodup_held).1
  have nodupTables := (Multiset.nodup_add.mp (Multiset.nodup_cons.mp nodup).2).1
  refine gather_apart nodupTables left right different (x := s.mem d i / 4096) ?_ ?_
  · simp [frameOf_present presentLeft]
  · rw [same]
    simp [frameOf_present presentRight]

/-- User pages and foreign frames are neither the directory nor tables. -/
theorem Dir.apart (dir : Dir ld s d rest total) {f : Nat} (member : f ∈ pages s.mem d + rest) :
    f ≠ d ∧ f ∉ tables s.mem d := by
  have nodup := dir.stock.nodup_held
  unfold own at nodup
  rw [Multiset.cons_add, add_assoc] at nodup
  obtain ⟨notDirectory, nodup⟩ := Multiset.nodup_cons.mp nodup
  refine ⟨?_, fun table => Multiset.disjoint_left.mp (Multiset.nodup_add.mp nodup).2.2 table member⟩
  rintro rfl
  exact notDirectory (Multiset.mem_add.mpr (.inr member))

end Account

end OsLabs.Xv6
