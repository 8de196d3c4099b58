import OsLabs.Xv6.UserMap

namespace OsLabs.Xv6
open Command Gather

/-- A page of the parent against the page of the child: never touched, or copied to
another frame with the same flags. -/
inductive PageCopied (s t : Machine) (x y : Nat) : Prop
  | skipped : x = 0 → y = 0 → PageCopied s t x y
  | copied : present x → present y → PTE_FLAGS y = PTE_FLAGS x → t.mem (y / 4096) = s.mem (x / 4096) → PageCopied s t x y

/-- The child `e` of the address space `d` when the pages below `k` have been copied. -/
structure Copying (ld : Linker) (s t : Machine) (d e k : Nat) (rest total : Multiset Nat) : Prop where
  dir : Dir ld t e (own s.mem d + rest) total
  keeps : Keeps (own s.mem d + rest) s t
  below : ∀ v, v < userPages → v < k → PageCopied s t (pteAt s.mem d v) (pteAt t.mem e v)
  above : ∀ v, v < userPages → k ≤ v → pteAt t.mem e v = 0
  kernel : ∀ v, v < 2 ^ 20 → userPages ≤ v → ¬ userBit (pteAt t.mem e v)
  exhausted : t.exhausted = s.exhausted

section Copy
variable {ld : Linker} {s t : Machine} {d e k : Nat} {rest total : Multiset Nat}

theorem Copying.entry (copying : Copying ld s t d e k rest total) {v : Nat} (bound : v < 2 ^ 20) :
    pteAt t.mem d v = pteAt s.mem d v :=
  pteAt_congr bound copying.keeps.own.1 copying.keeps.own.2

/-- The parent's address space is still in order beside the child's. -/
theorem Copying.parent (copying : Copying ld s t d e k rest total) (parent : Dir ld s d rest total) :
    Dir ld t d (own t.mem e + rest) total := by
  obtain ⟨directory, table⟩ := copying.keeps.own
  refine ⟨?_, parent.space.congr directory table⟩
  rw [own_congr directory table, add_left_comm]
  exact copying.dir.stock

/-- A page without an entry is skipped. -/
theorem Copying.skip (copying : Copying ld s t d e k rest total) (untouched : pteAt s.mem d k = 0) :
    Copying ld s t d e (k + 1) rest total := by
  refine { copying with below := fun v user before => ?_, above := fun v user after => copying.above v user (by omega) }
  by_cases last : v = k
  · subst last
    exact .skipped untouched (copying.above v user le_rfl)
  · exact copying.below v user (by omega)

/-- A page is copied to a fresh frame and mapped. -/
theorem Copying.page (copying : Copying ld s t d e k rest total) {t₁ u : Machine} {f : Nat} (user : k < userPages)
    (here : present (pteAt s.mem d k))
    (taken : Taken ld t t₁ e f (s.mem (pteAt s.mem d k / 4096)) (own s.mem d + rest) total)
    (mapped : Mapped ld t₁ u e k (mapEntry f (PTE_FLAGS (pteAt s.mem d k))) (own s.mem d + rest) total) :
    Copying ld s u d e (k + 1) rest total := by
  have flags : PTE_FLAGS (pteAt s.mem d k) < 4096 := Nat.mod_lt _ (by decide)
  have keeps := mapped.keeps
  rw [charge_user user f flags, pages_congr taken.same] at keeps
  have kept : Keeps (pages t.mem e + (own s.mem d + rest)) t u := taken.keeps.trans (keeps.subset fun g member => by
    rw [Multiset.add_cons]
    exact Multiset.mem_cons_of_mem member)
  have others : ∀ v, v < userPages → v ≠ k → pteAt u.mem e v = pteAt t.mem e v := by
    intro v low other
    have bound := lt_of_lt_of_le low userPages_le
    rw [mapped.entries v bound, if_neg other, taken.same v bound]
  refine ⟨mapped.dir, copying.keeps.trans (kept.subset fun g member => Multiset.mem_add.mpr (.inr member)),
    fun v low before => ?_, fun v low after => ?_, fun v bound high => ?_,
    mapped.exhausted.trans (taken.exhausted.trans copying.exhausted)⟩
  · by_cases last : v = k
    · subst last
      rw [mapped.entries v (lt_of_lt_of_le low userPages_le), if_pos rfl]
      refine .copied here (mapEntry_present _ _) ?_ ?_
      · exact mapEntry_flags f here
      · rw [mapEntry_frame f flags,
          keeps.mem f (by rw [Multiset.add_cons]; exact Multiset.mem_cons_self ..), taken.content]
    · rw [others v low last]
      have before := copying.below v low (by omega)
      cases before with
      | skipped zero none => exact .skipped zero none
      | copied here mapped same content =>
        refine .copied here mapped same ?_
        rw [kept.mem _ (Multiset.mem_add.mpr (.inl (mem_pages.mpr ⟨v, low, mapped, rfl⟩))), content]
  · rw [others v low (by omega)]
    exact copying.above v low (by omega)
  · rw [mapped.entries v bound, if_neg (by omega), taken.same v bound]
    exact copying.kernel v bound high

/-- The child has no more pages than the parent. -/
theorem Copying.few (copying : Copying ld s t d e k rest total) :
    Multiset.card (pages t.mem e) ≤ Multiset.card (pages s.mem d) := by
  refine card_gather_le fun v user => ?_
  by_cases before : v < k
  · cases copying.below v user before with
    | skipped _ zero =>
      rw [zero]
      exact Nat.zero_le _
    | copied here _ _ _ =>
      rw [frameOf_present here]
      exact length_frameOf _
  · rw [copying.above v user (not_lt.mp before)]
    exact Nat.zero_le _

/-- Every page below `k` lies under a page table. -/
def Tabled (s : Machine) (d k : Nat) : Prop := ∀ v, v < k → present (s.mem d (v / 1024))

/-- What a failed `copyuvm` leaves; few frames were free. -/
def Abandoned (ld : Linker) (s t : Machine) (d : Nat) (rest total : Multiset Nat) : Prop :=
  Multiset.card total ≤ 1026 + Multiset.card (pages s.mem d) + Multiset.card (own s.mem d + rest) ∧
    GaveUp ld s t (own s.mem d + rest) total

/-- The loop of `copyuvm`: it panics over a missing page table, gives up without memory, or copies all pages. -/
theorem copyLoop_spec {sz : Nat} (low : sz ≤ KERNBASE) (parent : Dir ld s d rest total) (fuel : Nat) :
    ∀ (t : Machine) (k : Nat), Copying ld s t d e k rest total → Tabled s d k → sz ≤ (k + fuel) * 4096 →
      Yields (copyLoop ld (kva d) (kva e) sz fuel (k * 4096)) t (fun r u =>
        (r = 0 ∧ Abandoned ld s u d rest total) ∨
          (r = kva e ∧ ∃ k, sz ≤ k * 4096 ∧ Tabled s d k ∧ Copying ld s u d e k rest total))
        fun e _ => e = .copyuvmNoPte ∧ ∃ v, v * 4096 < sz ∧ ¬ present (s.mem d (v / 1024)) := by
  induction fuel with
  | zero =>
    intro t k copying tabled reached
    unfold copyLoop
    rw [if_neg (by omega)]
    exact yields_pure (.inr ⟨rfl, k, reached, tabled, copying⟩)
  | succ fuel ih =>
    intro t k copying tabled reached
    unfold copyLoop
    by_cases inside : k * 4096 < sz
    · have user := heap_page inside low
      obtain ⟨page, small, onward⟩ := page_address (userPages_eq ▸ user)
      have bound := lt_of_lt_of_le user userPages_le
      have further : sz ≤ (k + 1 + fuel) * 4096 := reached.trans (Nat.mul_le_mul_right _ (by omega))
      rw [if_pos inside]
      have few := copying.few
      by_cases table : present (t.mem d (k / 1024))
      · have tabledNext : Tabled s d (k + 1) := by
          intro v before
          by_cases last : v = k
          · rwa [last, ← copying.keeps.own.1]
          · exact tabled v (by omega)
        have found := walkpgdir_found (copying.parent parent) small false (by rwa [page])
        rw [page] at found
        refine yields_step found ?_
        rw [if_neg (by have := kva_ne_zero (t.mem d (k / 1024) / 4096); omega)]
        have entry : t.mem (t.mem d (k / 1024) / 4096) (k % 1024) = pteAt s.mem d k := by
          rw [← copying.entry bound, pteAt, if_pos table]
        refine yields_step (load_kva t _ (Nat.mod_lt _ (by decide))) ?_
        rw [entry, onward]
        by_cases untouched : pteAt s.mem d k = 0
        · rw [if_pos untouched]
          exact ih t (k + 1) (copying.skip untouched) tabledNext further
        · have here := (parent.space.pte k bound).resolve_left untouched
          rw [if_neg untouched, if_neg (not_not.mpr here)]
          refine yields_bind (kalloc_spec copying.dir.stock) fun r u post => ?_
          rcases post with ⟨rfl, spent, rfl⟩ | ⟨f, rfl, _, stock, mem, cr3, ghost⟩
          · rw [if_pos rfl]
            refine yields_bind (freevm_spec copying.dir.exhaust) fun _ u freed =>
              yields_pure (.inl ⟨rfl, ?_, freed.1, ?_, freed.2.2⟩)
            · have size := card_own t.mem e
              rw [← spent, Multiset.card_add]
              omega
            exact (copying.keeps.trans (Keeps.exhaust _ t)).trans freed.2.1
          · have inParent : pteAt s.mem d k / 4096 ∈ own s.mem d :=
              mem_own.mpr (.inr (.inr (mem_pages.mpr ⟨k, user, here, rfl⟩)))
            have content : u.mem (pteAt s.mem d k / 4096) = s.mem (pteAt s.mem d k / 4096) := by
              rw [mem, copying.keeps.mem _ (Multiset.mem_add.mpr (.inl inParent))]
            have taken := copying.dir.take mem cr3 ghost stock (s.mem (pteAt s.mem d k / 4096))
            have flags : PTE_FLAGS (pteAt s.mem d k) < 4096 := Nat.mod_lt _ (by decide)
            have valid := (parent.valid inParent).range.2
            rw [if_neg (kva_ne_zero f)]
            refine yields_step (P2V_frame u (by omega)) (yields_step (memmove_kva u f _) ?_)
            rw [content]
            refine yields_step (V2P_kva _ f) ?_
            refine yields_bind (taken.map user flags (copying.above k user le_rfl)) fun r w post => ?_
            rcases post with ⟨rfl, spent, _, rfl⟩ | ⟨rfl, mapped⟩
            · rw [if_pos (by decide)]
              have kept : Keeps (own s.mem d + rest) s (u.writePage f (s.mem (pteAt s.mem d k / 4096))) :=
                copying.keeps.trans (taken.keeps.subset fun g member => Multiset.mem_add.mpr (.inr member))
              refine yields_bind (Taken.giveBack taken.dir.exhaust (kept.trans (Keeps.exhaust _ _)) rfl)
                fun _ x failed => ?_
              refine yields_bind (freevm_spec failed.dir) fun _ y freed =>
                yields_pure (.inl ⟨rfl, ?_, freed.1, ?_, ?_⟩)
              · have size := card_own (u.writePage f (s.mem (pteAt s.mem d k / 4096))).mem e
                rw [pages_congr taken.same] at size
                rw [← spent, Multiset.card_add, Multiset.card_cons]
                omega
              · exact failed.keeps.trans freed.2.1
              · exact freed.2.2.trans failed.exhausted
            · rw [if_neg (by decide)]
              exact ih w (k + 1) (copying.page user here taken mapped) tabledNext further
      · refine yields_step (walkpgdir_missing (d := d) small (by rwa [page])) ?_
        rw [if_pos rfl]
        rw [copying.keeps.own.1] at table
        exact yields_throw ⟨rfl, k, inside, table⟩
    · rw [if_neg inside]
      exact yields_pure (.inr ⟨rfl, k, not_lt.mp inside, tabled, copying⟩)

/-- `copyuvm` panics over a missing page table, gives up without memory, or returns a copy of
the address space. -/
theorem copyuvm_spec {sz : Nat} (low : sz ≤ KERNBASE) (parent : Dir ld s d rest total) :
    Yields (copyuvm ld (kva d) sz) s (fun r t =>
      (r = 0 ∧ Abandoned ld s t d rest total) ∨
        ∃ e k, r = kva e ∧ sz ≤ k * 4096 ∧ Tabled s d k ∧ Copying ld s t d e k rest total)
      fun e _ => e = .copyuvmNoPte ∧ ∃ v, v * 4096 < sz ∧ ¬ present (s.mem d (v / 1024)) := by
  unfold copyuvm
  refine yields_bind (setupkvm_spec parent.stock) fun r t post => ?_
  rcases post with ⟨rfl, few, gaveUp⟩ | ⟨e, rfl, made⟩
  · exact yields_pure (.inl ⟨rfl, by omega, gaveUp⟩)
  · rw [if_neg (kva_ne_zero e)]
    have start : Copying ld s t d e 0 rest total :=
      ⟨made.dir, made.keeps, fun v _ before => absurd before (Nat.not_lt_zero v), fun v user _ => made.user v user,
        made.kernel, made.exhausted⟩
    have spec := copyLoop_spec low parent ((sz + (4096 - 1)) / 4096) t 0 start
      (fun v before => absurd before (Nat.not_lt_zero v)) (by omega)
    rw [Nat.zero_mul] at spec
    refine spec.imp fun r u post => ?_
    rcases post with gaveUp | ⟨result, k, reached, tabled, copying⟩
    · exact .inl gaveUp
    · exact .inr ⟨e, k, result, reached, tabled, copying⟩

end Copy

end OsLabs.Xv6
