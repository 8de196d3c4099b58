import Mathlib.Data.Multiset.UnionInter
import OsLabs.Xv6.Machine

namespace OsLabs.Xv6
open Command

/-- The kernel address of a frame. -/
def kva (f : Nat) : Nat := KERNBASE + 4096 * f

/-- The frames `kfree` accepts. -/
def Linker.Valid (ld : Linker) (f : Nat) : Prop := ld.kernelEnd ≤ kva f ∧ 4096 * f < PHYSTOP

theorem Linker.Valid.range {ld : Linker} {f : Nat} (valid : ld.Valid f) : 0 < f ∧ f < 2 ^ 16 := by
  obtain ⟨lower, upper⟩ := valid
  have text := ld.behindText
  have order := ld.ordered
  simp only [kva, KERNLINK, KERNBASE, EXTMEM, PHYSTOP] at *
  omega

/-- The list of free frames that starts at `p` and is linked through word 0 of each. -/
def Chain (mem : Nat → Nat → Nat) : Nat → List Nat → Prop
  | p, [] => p = 0
  | p, f :: fs => p = kva f ∧ Chain mem (mem f 0) fs

theorem Chain.congr {mem mem' : Nat → Nat → Nat} {p : Nat} {fs : List Nat} (chain : Chain mem p fs)
    (same : ∀ f ∈ fs, mem' f = mem f) : Chain mem' p fs := by
  induction fs generalizing p with
  | nil => exact chain
  | cons f fs ih =>
    obtain ⟨head, tail⟩ := chain
    refine ⟨head, ?_⟩
    rw [same f (List.mem_cons_self ..)]
    exact ih tail fun g member => same g (List.mem_cons_of_mem _ member)

theorem kva_ne_zero (f : Nat) : kva f ≠ 0 := by
  simp only [kva, KERNBASE]
  omega

theorem kva_injective {f g : Nat} (same : kva f = kva g) : f = g := by
  unfold kva at same
  omega

/-- The free list is what its links say. -/
theorem Chain.unique {mem : Nat → Nat → Nat} {p : Nat} {fs gs : List Nat} (left : Chain mem p fs)
    (right : Chain mem p gs) :
    fs = gs := by
  induction fs generalizing p gs with
  | nil =>
    cases gs with
    | nil => rfl
    | cons g gs => exact absurd (right.1.symm.trans left) (kva_ne_zero g)
  | cons f fs ih =>
    cases gs with
    | nil => exact absurd (left.1.symm.trans right) (kva_ne_zero f)
    | cons g gs =>
      obtain rfl := kva_injective (left.1.symm.trans right.1)
      rw [ih left.2 right.2]

/-- The frames handed to the allocator at boot are the free ones and those in
`held`, each exactly once. -/
structure Stock (ld : Linker) (s : Machine) (held total : Multiset Nat) : Prop where
  chain : ∃ free : List Nat, Chain s.mem s.freelist free ∧ (free : Multiset Nat) + held = total
  nodup : total.Nodup
  valid : ∀ f ∈ total, ld.Valid f

/-- `s'` follows from `s` without a write to the frames `fs`. -/
structure Keeps (fs : Multiset Nat) (s s' : Machine) : Prop where
  mem : ∀ f ∈ fs, s'.mem f = s.mem f
  cr3 : s'.cr3 = s.cr3
  exhausted : s.exhausted = true → s'.exhausted = true

theorem Keeps.refl (fs : Multiset Nat) (s : Machine) : Keeps fs s s := ⟨fun _ _ => rfl, rfl, id⟩

theorem Keeps.trans {fs : Multiset Nat} {s t u : Machine} (first : Keeps fs s t) (second : Keeps fs t u) :
    Keeps fs s u :=
  ⟨fun f member => (second.mem f member).trans (first.mem f member), second.cr3.trans first.cr3,
    fun ghost => second.exhausted (first.exhausted ghost)⟩

theorem Keeps.subset {fs gs : Multiset Nat} {s t : Machine} (keeps : Keeps fs s t)
    (sub : ∀ f ∈ gs, f ∈ fs) : Keeps gs s t :=
  ⟨fun f member => keeps.mem f (sub f member), keeps.cr3, keeps.exhausted⟩

section Access
variable {f w : Nat}

theorem write_same (s : Machine) (f w x : Nat) : (s.write f w x).mem f w = x := if_pos ⟨rfl, rfl⟩

theorem write_other {g : Nat} (s : Machine) (f w x : Nat) (other : g ≠ f) : (s.write f w x).mem g = s.mem g := by
  funext u
  exact if_neg fun same => other same.1

theorem write_word {u : Nat} (s : Machine) (f w x : Nat) (other : u ≠ w) : (s.write f w x).mem f u = s.mem f u :=
  if_neg fun same => other same.2

theorem writePage_same (s : Machine) (f : Nat) (page : Nat → Nat) : (s.writePage f page).mem f = page := by
  funext u
  exact if_pos rfl

theorem writePage_other {g : Nat} (s : Machine) (f : Nat) (page : Nat → Nat) (other : g ≠ f) :
    (s.writePage f page).mem g = s.mem g := by
  funext u
  exact if_neg other

theorem frameAt_kva (s : Machine) (f : Nat) (w : Nat) (bound : w < 1024) : frameAt s (kva f + 4 * w) = some f := by
  have frame : (kva f + 4 * w - KERNBASE) / 4096 = f := by
    simp only [kva, KERNBASE]
    omega
  rw [frameAt, if_pos (by simp only [kva, KERNBASE]; omega), frame]

theorem word_kva (f w : Nat) (bound : w < 1024) : (kva f + 4 * w) % 4096 / 4 = w := by
  simp only [kva, KERNBASE]
  omega

theorem load_kva (s : Machine) (f : Nat) (bound : w < 1024) : load (kva f + 4 * w) s = .ok (s.mem f w) s := by
  unfold load
  rw [frameAt_kva s f w bound, word_kva f w bound]

theorem store_kva (s : Machine) (f x : Nat) (bound : w < 1024) :
    store (kva f + 4 * w) x s = .ok () (s.write f w x) := by
  unfold store
  rw [frameAt_kva s f w bound, word_kva f w bound]

theorem frameAt_page (s : Machine) (f : Nat) : frameAt s (kva f) = some f := by
  have frame := frameAt_kva s f 0 (by decide)
  rwa [Nat.mul_zero, Nat.add_zero] at frame

theorem memset_kva (s : Machine) (f x : Nat) :
    memset (kva f) x s = .ok () (s.writePage f fun _ => x * 0x01010101) := by
  unfold memset
  rw [frameAt_page]

theorem memset_zero (s : Machine) (f : Nat) : memset (kva f) 0 s = .ok () (s.writePage f fun _ => 0) := by
  rw [memset_kva]

theorem memmove_kva (s : Machine) (f g : Nat) : memmove (kva f) (kva g) s = .ok () (s.writePage f (s.mem g)) := by
  unfold memmove
  rw [frameAt_page, frameAt_page]

theorem V2P_kva (s : Machine) (f : Nat) : V2P (kva f) s = .ok (4096 * f) s := by
  unfold V2P kva
  rw [if_neg (by omega), Nat.add_sub_cancel_left]
  rfl

theorem P2V_frame (s : Machine) (small : f < 2 ^ 19) : P2V (f * 4096) s = .ok (kva f) s := by
  have address : (f * 4096 + KERNBASE) % 2 ^ 32 = kva f := by
    simp only [kva, KERNBASE]
    omega
  unfold P2V
  rw [if_neg (by simp only [KERNBASE]; omega), address]
  rfl

end Access

section Allocator
variable {ld : Linker} {s : Machine} {held total : Multiset Nat} {E : Panic → Machine → Prop}

theorem Stock.nodup_held (stock : Stock ld s held total) : held.Nodup := by
  obtain ⟨⟨free, _, account⟩, nodup, _⟩ := stock
  rw [← account] at nodup
  exact (Multiset.nodup_add.mp nodup).2.1

theorem Stock.valid_held (stock : Stock ld s held total) {f : Nat} (member : f ∈ held) : ld.Valid f := by
  obtain ⟨⟨free, _, account⟩, _, valid⟩ := stock
  exact valid f (by rw [← account]; exact Multiset.mem_add.mpr (.inr member))

theorem Stock.congr {t : Machine} (stock : Stock ld s held total) (head : t.freelist = s.freelist)
    (same : ∀ f, f ∉ held → t.mem f = s.mem f) : Stock ld t held total := by
  obtain ⟨⟨free, chain, account⟩, nodup, valid⟩ := stock
  refine ⟨⟨free, ?_, account⟩, nodup, valid⟩
  rw [head]
  refine chain.congr fun f member => same f fun also => ?_
  rw [← account] at nodup
  exact Multiset.disjoint_left.mp (Multiset.nodup_add.mp nodup).2.2 (Multiset.mem_coe.mpr member) also

theorem load_page (s : Machine) (f : Nat) : load (kva f) s = .ok (s.mem f 0) s := by
  have word := load_kva s f (w := 0) (by decide)
  rwa [Nat.mul_zero, Nat.add_zero] at word

theorem store_page (s : Machine) (f x : Nat) : store (kva f) x s = .ok () (s.write f 0 x) := by
  have word := store_kva s f x (w := 0) (by decide)
  rwa [Nat.mul_zero, Nat.add_zero] at word

/-- `kalloc` hands out a frame nobody holds, or returns 0 when none is left. -/
theorem kalloc_spec (stock : Stock ld s held total) :
    Yields kalloc s (fun r t => (r = 0 ∧ held = total ∧ t = { s with exhausted := true }) ∨
      ∃ f, r = kva f ∧ ld.Valid f ∧ Stock ld t (f ::ₘ held) total ∧ t.mem = s.mem ∧ t.cr3 = s.cr3 ∧
        t.exhausted = s.exhausted) E := by
  obtain ⟨⟨free, chain, account⟩, nodup, valid⟩ := stock
  refine yields_step (t := s) rfl ?_
  cases free with
  | nil =>
    rw [if_pos (show s.freelist = 0 from chain)]
    exact yields_step rfl (yields_pure (.inl ⟨rfl, by simpa using account, rfl⟩))
  | cons f free =>
    obtain ⟨head, tail⟩ := chain
    have member : f ∈ total := by
      rw [← account]
      exact Multiset.mem_add.mpr (.inl (by simp))
    rw [head, if_neg (kva_ne_zero f)]
    refine yields_step (load_page s f)
      (yields_step rfl (yields_pure (.inr ⟨f, rfl, valid f member, ?_, rfl, rfl, rfl⟩)))
    refine ⟨⟨free, tail, ?_⟩, nodup, valid⟩
    rw [← account, ← Multiset.cons_coe, Multiset.cons_add, Multiset.add_cons]

/-- What `kfree` leaves of a frame it accepts. -/
def freed (s : Machine) (f : Nat) : Machine :=
  { (s.writePage f fun _ => 1 * 0x01010101).write f 0 s.freelist with freelist := kva f }

theorem freed_other {f g : Nat} (other : g ≠ f) : (freed s f).mem g = s.mem g :=
  (write_other _ _ _ _ other).trans (writePage_other _ _ _ other)

theorem kfree_frame {f : Nat} (valid : ld.Valid f) : kfree ld (kva f) s = .ok () (freed s f) := by
  have aligned : ¬ (kva f % 4096 ≠ 0 ∨ kva f < ld.kernelEnd) := by
    have lower := valid.1
    simp only [kva, KERNBASE] at lower ⊢
    omega
  unfold kfree
  rw [if_neg aligned]
  change EStateM.bind (V2P (kva f)) _ s = _
  rw [EStateM.bind, V2P_kva]
  dsimp only
  rw [if_neg (not_le.mpr valid.2)]
  change EStateM.bind (memset (kva f) 1) _ s = _
  rw [EStateM.bind, memset_kva]
  change EStateM.bind (store (kva f) s.freelist) _ _ = _
  rw [EStateM.bind, store_page]
  rfl

theorem Chain.freed {f : Nat} {free : List Nat} (chain : Chain s.mem s.freelist free) (apart : f ∉ free) :
    Chain (freed s f).mem (freed s f).freelist (f :: free) := by
  refine ⟨rfl, ?_⟩
  have link : (Xv6.freed s f).mem f 0 = s.freelist := write_same ..
  rw [link]
  exact chain.congr fun g member => freed_other fun same => apart (same ▸ member)

/-- `kfree` of a frame the caller holds puts it on the free list. -/
theorem kfree_spec {f : Nat} (stock : Stock ld s (f ::ₘ held) total) :
    Yields (kfree ld (kva f)) s (fun _ t => Stock ld t held total ∧ (∀ g, g ≠ f → t.mem g = s.mem g) ∧
      t.cr3 = s.cr3 ∧ t.exhausted = s.exhausted) E := by
  obtain ⟨⟨free, chain, account⟩, nodup, valid⟩ := stock
  have member : f ∈ total := by
    rw [← account]
    exact Multiset.mem_add.mpr (.inr (Multiset.mem_cons_self f held))
  have apart : f ∉ free := fun inFree => by
    rw [← account] at nodup
    exact Multiset.disjoint_left.mp (Multiset.nodup_add.mp nodup).2.2 (Multiset.mem_coe.mpr inFree)
      (Multiset.mem_cons_self f held)
  refine yields_ok (kfree_frame (valid f member))
    ⟨⟨⟨f :: free, chain.freed apart, ?_⟩, nodup, valid⟩, fun g => freed_other, rfl, rfl⟩
  rw [← account, ← Multiset.cons_coe, Multiset.cons_add, Multiset.add_cons]

/-- Of what else the caller holds nothing changes. -/
theorem kfree_keeps {f : Nat} (stock : Stock ld s (f ::ₘ held) total) :
    Yields (kfree ld (kva f)) s (fun _ t => Stock ld t held total ∧ Keeps held s t ∧
      t.exhausted = s.exhausted) E := by
  refine (kfree_spec stock).imp fun _ t post => ?_
  obtain ⟨after, mem, cr3, ghost⟩ := post
  refine ⟨after, ⟨fun g member => mem g ?_, cr3, fun was => ghost.trans was⟩, ghost⟩
  rintro rfl
  exact (Multiset.nodup_cons.mp stock.nodup_held).1 member

end Allocator

end OsLabs.Xv6
