import OsLabs.Xv6.Vm
import OsLabs.Xv6.Walk

namespace OsLabs.Xv6
open Command Gather

/-- The entry for page `v` is overwritten. -/
def Machine.setPte (s : Machine) (d v x : Nat) : Machine := s.write (s.mem d (v / 1024) / 4096) (v % 1024) x

/-- The frame an entry of page `v` accounts for: entries above `KERNBASE` own nothing. -/
def charge (v pte : Nat) : List Nat := if v < userPages then frameOf pte else []

section SetPte
variable {ld : Linker} {s : Machine} {d v x : Nat} {rest total : Multiset Nat}

theorem setPte_other {f : Nat} (other : f ≠ s.mem d (v / 1024) / 4096) : (s.setPte d v x).mem f = s.mem f :=
  write_other _ _ _ _ other

theorem table_mem (small : v < 2 ^ 20) (here : present (s.mem d (v / 1024))) :
    s.mem d (v / 1024) / 4096 ∈ tables s.mem d := mem_tables.mpr ⟨v / 1024, by omega, here, rfl⟩

variable (dir : Dir ld s d rest total) (small : v < 2 ^ 20) (here : present (s.mem d (v / 1024)))
include dir small here

theorem setPte_directory : (s.setPte d v x).mem d = s.mem d :=
  setPte_other (dir.table_ne (table_mem small here)).symm

theorem setPte_pteAt {u : Nat} (inside : u < 2 ^ 20) :
    pteAt (s.setPte d v x).mem d u = if u = v then x else pteAt s.mem d u := by
  unfold pteAt
  rw [setPte_directory dir small here]
  by_cases same : u = v
  · subst same
    rw [if_pos here, if_pos rfl]
    exact write_same _ _ _ _
  · rw [if_neg same]
    by_cases table : present (s.mem d (u / 1024))
    · rw [if_pos table, if_pos table]
      by_cases shared : s.mem d (u / 1024) / 4096 = s.mem d (v / 1024) / 4096
      · have slot := dir.table_injective (by omega) (by omega) table here shared
        rw [shared]
        exact write_word _ _ _ _ (by omega)
      · rw [setPte_other shared]
    · rw [if_neg table, if_neg table]

theorem setPte_space (proper : x = 0 ∨ present x) : Space (s.setPte d v x).mem d := by
  refine ⟨fun i bound => ?_, fun u inside => ?_⟩
  · rw [setPte_directory dir small here]
    exact dir.space.pde i bound
  · rw [setPte_pteAt dir small here inside]
    by_cases same : u = v
    · rwa [if_pos same]
    · rw [if_neg same]
      exact dir.space.pte u inside

/-- Overwriting an entry exchanges the frame of the old entry for that of the new one. -/
theorem setPte_own : own (s.setPte d v x).mem d + (charge v (pteAt s.mem d v) : Multiset Nat) =
    own s.mem d + (charge v x : Multiset Nat) := by
  have directory := setPte_directory (x := x) dir small here
  unfold own
  rw [tables_congr directory, Multiset.cons_add, Multiset.cons_add, Multiset.add_assoc, Multiset.add_assoc]
  refine congrArg (Multiset.cons d) (congrArg (tables s.mem d + ·) ?_)
  by_cases user : v < userPages
  · have exchange := gather_update (f := fun u => frameOf (pteAt s.mem d u))
      (g := fun u => frameOf (pteAt (s.setPte d v x).mem d u)) user fun u bound other => by
        rw [setPte_pteAt dir small here (lt_of_lt_of_le bound userPages_le), if_neg other]
    rw [setPte_pteAt dir small here small, if_pos rfl] at exchange
    unfold charge
    rw [if_pos user, if_pos user]
    exact exchange
  · unfold charge
    rw [if_neg user, if_neg user]
    refine congrArg (· + _) (gather_congr fun u bound => ?_)
    rw [setPte_pteAt dir small here (lt_of_lt_of_le bound userPages_le), if_neg (by omega)]

end SetPte

section MapPage
variable {ld : Linker} {s : Machine} {d f a perm : Nat} {rest total : Multiset Nat} {E : Panic → Machine → Prop}

/-- The entry `mappages` writes. -/
def mapEntry (f perm : Nat) : Nat := 4096 * f + (perm ||| PTE_P)

theorem mapEntry_lor (f : Nat) {perm : Nat} (flags : perm < 4096) :
    4096 * f ||| perm ||| PTE_P = mapEntry f perm := by
  have bound : perm ||| PTE_P < 2 ^ 12 := Nat.or_lt_two_pow flags (by decide)
  rw [Nat.or_assoc]
  exact lor_page f bound

theorem mapEntry_present (f perm : Nat) : present (mapEntry f perm) := by
  unfold mapEntry
  rw [entry_present]
  unfold present PTE_P
  rw [Nat.or_mod_two_eq_one]
  exact .inr rfl

theorem mapEntry_frame (f : Nat) {perm : Nat} (flags : perm < 4096) : mapEntry f perm / 4096 = f :=
  entry_page f (Nat.or_lt_two_pow (n := 12) flags (by decide))

/-- The flags of a present entry survive being mapped again. -/
theorem mapEntry_flags (f : Nat) {pte : Nat} (here : present pte) :
    PTE_FLAGS (mapEntry f (PTE_FLAGS pte)) = PTE_FLAGS pte := by
  have odd : PTE_FLAGS pte ||| PTE_P = PTE_FLAGS pte := by
    unfold PTE_FLAGS PTE_P
    unfold present at here
    have split : pte % 4096 = 2 ^ 1 * (pte % 4096 / 2) + 1 := by omega
    rw [split, Nat.two_pow_add_eq_or_of_lt (i := 1) (by decide), Nat.or_assoc, Nat.or_self]
  unfold mapEntry
  rw [odd]
  exact entry_flags f (Nat.mod_lt _ (by decide))

/-- What one more mapped page leaves. -/
structure Mapped (ld : Linker) (s t : Machine) (d v x : Nat) (rest total : Multiset Nat) : Prop where
  dir : Dir ld t d rest total
  entries : ∀ u, u < 2 ^ 20 → pteAt t.mem d u = if u = v then x else pteAt s.mem d u
  keeps : Keeps (pages s.mem d + ((charge v x : Multiset Nat) + rest)) s t
  exhausted : t.exhausted = s.exhausted

theorem mapPage_spec (small : a < 2 ^ 32) (flags : perm < 4096)
    (dir : Dir ld s d ((charge (a / 4096) (mapEntry f perm) : Multiset Nat) + rest) total)
    (empty : ¬ present (pteAt s.mem d (a / 4096))) :
    Yields (mapPage (kva d) a (4096 * f) perm) s (fun r t =>
      (r = false ∧ own s.mem d + ((charge (a / 4096) (mapEntry f perm) : Multiset Nat) + rest) = total ∧
        ¬ present (s.mem d (a / 4096 / 1024)) ∧ t = { s with exhausted := true }) ∨
      (r = true ∧ Mapped ld s t d (a / 4096) (mapEntry f perm) rest total)) E := by
  have inside : a / 4096 < 2 ^ 20 := by
    omega
  have index : a / 4096 % 1024 < 1024 := by omega
  refine yields_bind (walkpgdir_spec dir small) fun r t post => ?_
  rcases post with ⟨rfl, gone, spent, rfl⟩ | ⟨rfl, ghost, walked⟩
  · exact yields_pure (.inl ⟨rfl, spent, gone, rfl⟩)
  · rw [if_neg (by have := kva_ne_zero (t.mem d (a / 4096 / 1024) / 4096); omega)]
    have entry : t.mem (t.mem d (a / 4096 / 1024) / 4096) (a / 4096 % 1024) = pteAt s.mem d (a / 4096) := by
      rw [← walked.same _ inside, pteAt, if_pos walked.here]
    refine yields_step (load_kva t _ index) ?_
    rw [entry, if_neg empty]
    refine yields_step (store_kva t _ _ index) (yields_pure (.inr ⟨rfl, ?_⟩))
    rw [mapEntry_lor f flags]
    change Mapped ld s (t.setPte d (a / 4096) (mapEntry f perm)) d _ _ rest total
    have proper : mapEntry f perm = 0 ∨ present (mapEntry f perm) := .inr (mapEntry_present f perm)
    have gone : charge (a / 4096) (pteAt t.mem d (a / 4096)) = [] := by
      unfold charge
      rw [walked.same _ inside, frameOf_absent empty, ite_self]
    have exchange := setPte_own (x := mapEntry f perm) walked.dir inside walked.here
    rw [gone, Multiset.coe_nil, Multiset.add_zero] at exchange
    refine ⟨⟨?_, setPte_space walked.dir inside walked.here proper⟩, fun u bound => ?_, ?_, ghost⟩
    · rw [exchange, Multiset.add_assoc]
      refine walked.dir.stock.congr rfl fun g notHeld => setPte_other ?_
      rintro rfl
      exact notHeld (Multiset.mem_add.mpr (.inl (mem_own.mpr (.inr (.inl (table_mem inside walked.here))))))
    · rw [setPte_pteAt walked.dir inside walked.here bound, walked.same u bound]
    · refine ⟨fun g member => ?_, walked.keeps.cr3, walked.keeps.exhausted⟩
      rw [← walked.keeps.mem g member]
      rw [← pages_congr walked.same] at member
      refine setPte_other fun same => (walked.dir.apart member).2 ?_
      rw [same]
      exact table_mem inside walked.here

end MapPage

end OsLabs.Xv6
