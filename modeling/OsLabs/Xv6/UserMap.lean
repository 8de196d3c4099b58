import OsLabs.Xv6.KernelMap

namespace OsLabs.Xv6
open Command Gather

section UserPage
variable {ld : Linker} {s : Machine} {d v f perm : Nat} {rest total : Multiset Nat} {E : Panic → Machine → Prop}

theorem charge_user (user : v < userPages) (f : Nat) (flags : perm < 4096) :
    (charge v (mapEntry f perm) : Multiset Nat) + rest = f ::ₘ rest := by
  rw [charge, if_pos user, frameOf_present (mapEntry_present f perm), mapEntry_frame f flags, Multiset.coe_singleton,
    Multiset.singleton_add]

/-- `mappages` of one user page to a frame the caller holds. -/
theorem mappages_user_spec (user : v < userPages) (flags : perm < 4096) (dir : Dir ld s d (f ::ₘ rest) total)
    (empty : ¬ present (pteAt s.mem d v)) :
    Yields (mappages (kva d) (v * 4096) 4096 (4096 * f) perm) s (fun r t =>
      (r = -1 ∧ own s.mem d + (f ::ₘ rest) = total ∧ ¬ present (s.mem d (v / 1024)) ∧
          t = { s with exhausted := true }) ∨
        (r = 0 ∧ Mapped ld s t d v (mapEntry f perm) rest total)) E := by
  rw [← charge_user user f flags] at dir ⊢
  exact mappages_single_spec (lt_of_lt_of_le user userPages_le) flags dir empty

end UserPage

section Alloc
variable {ld : Linker} {d : Nat} {rest total : Multiset Nat} {E : Panic → Machine → Prop}

/-- The permissions of a heap page: present, writable, user. -/
def heapEntry (f : Nat) : Nat := mapEntry f (PTE_W ||| PTE_U)

theorem heapEntry_eq (f : Nat) : heapEntry f = 4096 * f + 7 := rfl

/-- What allocating zeroed pages from page `v` up to `newsz` leaves. -/
structure Allocated (ld : Linker) (s t : Machine) (d v newsz : Nat) (rest total : Multiset Nat) : Prop where
  dir : Dir ld t d rest total
  fresh : ∀ u, u < 2 ^ 20 → v ≤ u → u * 4096 < newsz → ∃ f, pteAt t.mem d u = heapEntry f ∧ ∀ w, t.mem f w = 0
  entries : ∀ u, u < 2 ^ 20 → ¬ (v ≤ u ∧ u * 4096 < newsz) → pteAt t.mem d u = pteAt s.mem d u
  keeps : Keeps (pages s.mem d + rest) s t
  exhausted : t.exhausted = s.exhausted

theorem Allocated.none {s : Machine} {v newsz : Nat} (dir : Dir ld s d rest total) (reached : newsz ≤ v * 4096) :
    Allocated ld s s d v newsz rest total :=
  ⟨dir, fun u _ lower upper => absurd (Nat.mul_le_mul_right 4096 lower) (by omega), fun _ _ _ => rfl,
    Keeps.refl _ s, rfl⟩

/-- A fresh frame has been taken from the allocator and filled. -/
structure Taken (ld : Linker) (s t : Machine) (d f : Nat) (page : Nat → Nat) (rest total : Multiset Nat) : Prop where
  dir : Dir ld t d (f ::ₘ rest) total
  directory : t.mem d = s.mem d
  content : t.mem f = page
  same : ∀ v, v < 2 ^ 20 → pteAt t.mem d v = pteAt s.mem d v
  keeps : Keeps (pages s.mem d + rest) s t
  exhausted : t.exhausted = s.exhausted

theorem Dir.take {s t : Machine} {f : Nat} (dir : Dir ld s d rest total) (mem : t.mem = s.mem) (cr3 : t.cr3 = s.cr3)
    (ghost : t.exhausted = s.exhausted) (stock : Stock ld t (f ::ₘ (own s.mem d + rest)) total) (page : Nat → Nat) :
    Taken ld s (t.writePage f page) d f page rest total := by
  have held : Dir ld t d (f ::ₘ rest) total := by
    refine ⟨?_, by rw [mem]; exact dir.space⟩
    rw [mem, Multiset.add_cons]
    exact stock
  have apart := held.apart (Multiset.mem_add.mpr (.inr (Multiset.mem_cons_self f rest)))
  have directory : (t.writePage f page).mem d = t.mem d := writePage_other _ _ _ apart.1.symm
  have table : ∀ g ∈ tables t.mem d, (t.writePage f page).mem g = t.mem g := by
    intro g member
    refine writePage_other _ _ _ ?_
    rintro rfl
    exact apart.2 member
  refine ⟨⟨?_, held.space.congr directory table⟩, by rw [directory, mem], writePage_same _ _ _, fun v bound => ?_,
    ⟨fun g member => ?_, cr3, fun was => ghost.trans was⟩, ghost⟩
  · rw [own_congr directory table]
    refine held.stock.congr rfl fun g notHeld => writePage_other _ _ _ ?_
    rintro rfl
    exact notHeld (Multiset.mem_add.mpr (.inr (Multiset.mem_cons_self ..)))
  · rw [pteAt_congr bound directory table, mem]
  · rw [writePage_other, mem]
    rintro rfl
    refine (Multiset.nodup_cons.mp stock.nodup_held).1 ?_
    rcases Multiset.mem_add.mp member with page | other
    · exact Multiset.mem_add.mpr (.inl (mem_own.mpr (.inr (.inr page))))
    · exact Multiset.mem_add.mpr (.inr other)

/-- A page allocated and mapped in front of the others. -/
theorem Allocated.cons {s₀ s t u : Machine} {v f newsz : Nat} (user : v < userPages) (inside : v * 4096 < newsz)
    (taken : Taken ld s₀ s d f (fun _ => 0) rest total) (empty : pteAt s₀.mem d v = 0)
    (mapped : Mapped ld s t d v (heapEntry f) rest total) (later : Allocated ld t u d (v + 1) newsz rest total) :
    Allocated ld s₀ u d v newsz rest total := by
  have below := lt_of_lt_of_le user userPages_le
  have first : Keeps (pages s.mem d + (f ::ₘ rest)) s t := by
    have keeps := mapped.keeps
    unfold heapEntry at keeps
    rwa [charge_user user f (by decide)] at keeps
  have kept : ∀ g, g ∈ pages s.mem d + (f ::ₘ rest) → g ∈ pages t.mem d + rest := by
    intro g member
    rw [Multiset.add_cons, Multiset.mem_cons] at member
    rcases member with rfl | member
    · refine Multiset.mem_add.mpr (.inl (mem_pages.mpr ⟨v, user, ?_⟩))
      rw [mapped.entries v below, if_pos rfl]
      exact ⟨mapEntry_present g _, (mapEntry_frame g (by decide)).symm⟩
    · rcases Multiset.mem_add.mp member with page | other
      · obtain ⟨i, low, here, frame⟩ := mem_pages.mp page
        refine Multiset.mem_add.mpr (.inl (mem_pages.mpr ⟨i, low, ?_⟩))
        have other : i ≠ v := by
          rintro rfl
          rw [taken.same i below, empty] at here
          exact absurd here (by decide)
        rw [mapped.entries i (lt_of_lt_of_le low userPages_le), if_neg other]
        exact ⟨here, frame⟩
      · exact Multiset.mem_add.mpr (.inr other)
  have whole : Keeps (pages s.mem d + (f ::ₘ rest)) s u := first.trans (later.keeps.subset kept)
  refine ⟨later.dir, fun i bound lower upper => ?_, fun i bound outside => ?_,
    taken.keeps.trans (whole.subset fun g member => ?_),
      later.exhausted.trans (mapped.exhausted.trans taken.exhausted)⟩
  · by_cases head : i = v
    · subst head
      refine ⟨f, ?_, fun w => ?_⟩
      · rw [later.entries i bound (by omega), mapped.entries i bound, if_pos rfl]
      · rw [whole.mem f (by rw [Multiset.add_cons]; exact Multiset.mem_cons_self ..), taken.content]
    · exact later.fresh i bound (by omega) upper
  · have notHead : i ≠ v := by
      rintro rfl
      exact outside ⟨le_rfl, inside⟩
    rw [later.entries i bound fun range => outside ⟨by omega, range.2⟩, mapped.entries i bound, if_neg notHead,
      taken.same i bound]
  · rw [Multiset.add_cons, pages_congr taken.same]
    exact Multiset.mem_cons_of_mem member

/-- `mappages` of a frame that was just filled. -/
theorem Taken.map {s t : Machine} {v f perm : Nat} {page : Nat → Nat} (taken : Taken ld s t d f page rest total)
    (user : v < userPages) (flags : perm < 4096) (empty : pteAt s.mem d v = 0) :
    Yields (mappages (kva d) (v * 4096) 4096 (4096 * f) perm) t (fun r u =>
      (r = -1 ∧ own t.mem d + (f ::ₘ rest) = total ∧ ¬ present (s.mem d (v / 1024)) ∧
          u = { t with exhausted := true }) ∨
        (r = 0 ∧ Mapped ld t u d v (mapEntry f perm) rest total)) E := by
  rw [← taken.directory]
  refine mappages_user_spec user flags taken.dir ?_
  rw [taken.same v (lt_of_lt_of_le user userPages_le), empty]
  decide

/-- A frame that could not be mapped is given back. -/
theorem Taken.giveBack {s t : Machine} {f : Nat} (dir : Dir ld t d (f ::ₘ rest) total) (keeps : Keeps rest s t)
    (ghost : t.exhausted = true) : Yields (kfree ld (kva f)) t (fun _ u => MapFailed ld s u d rest total) E := by
  refine dir.giveBack.imp fun _ u post => ?_
  obtain ⟨after, kept, ghost'⟩ := post
  exact ⟨after, keeps.trans (kept.subset fun g member => Multiset.mem_add.mpr (.inr member)), ghost'.trans ghost⟩

theorem round_up (sz : Nat) : sz ≤ (sz + 4095) / 4096 * 4096 := by
  omega

theorem ceil_le {sz k : Nat} (below : sz ≤ k * 4096) : (sz + 4095) / 4096 ≤ k := by
  omega

theorem pages_enough (k newsz : Nat) : newsz ≤ (k + (newsz - k * 4096 + (4096 - 1)) / 4096) * 4096 := by
  omega

theorem allocLoop_spec {oldsz newsz : Nat} (low : newsz < KERNBASE) (fuel : Nat) :
    ∀ (s : Machine) (k : Nat), Dir ld s d rest total → oldsz ≤ k * 4096 → newsz ≤ (k + fuel) * 4096 →
      (∀ u, k ≤ u → u * 4096 < newsz → pteAt s.mem d u = 0) →
      Yields (allocLoop ld (kva d) oldsz newsz fuel (k * 4096)) s
        (fun r t => (r = newsz ∧ Allocated ld s t d k newsz rest total) ∨
          (r = 0 ∧ MapFailed ld s t d rest total)) E := by
  induction fuel with
  | zero =>
    intro s k dir _ reached _
    unfold allocLoop
    rw [if_neg (by omega)]
    exact yields_pure (.inl ⟨rfl, Allocated.none dir reached⟩)
  | succ fuel ih =>
    intro s k dir start reached empty
    unfold allocLoop
    by_cases inside : k * 4096 < newsz
    · have user : k < userPages := heap_page inside (le_of_lt low)
      have less : oldsz < newsz := lt_of_le_of_lt start inside
      obtain ⟨_, _, onward⟩ := page_address (userPages_eq ▸ user)
      rw [if_pos inside]
      refine yields_bind (kalloc_spec dir.stock) fun r t post => ?_
      rcases post with ⟨rfl, _, rfl⟩ | ⟨f, rfl, _, stock, mem, cr3, ghost⟩
      · rw [if_pos rfl]
        refine yields_bind (deallocuvm_spec dir.exhaust (le_of_lt low) less) fun _ t post =>
          yields_pure (.inr ⟨rfl, ?_⟩)
        exact ⟨post.2.dir, (Keeps.exhaust rest s).trans post.2.keeps, post.2.exhausted⟩
      · have taken := dir.take mem cr3 ghost stock fun _ => 0
        have others : Keeps rest s (t.writePage f fun _ => 0) :=
          taken.keeps.subset fun g member => Multiset.mem_add.mpr (.inr member)
        rw [if_neg (kva_ne_zero f)]
        refine yields_step (memset_zero t f) (yields_step (V2P_kva _ f) ?_)
        refine yields_bind (taken.map user (by decide) (empty k le_rfl inside)) fun r u post => ?_
        rcases post with ⟨rfl, _, _, rfl⟩ | ⟨rfl, mapped⟩
        · rw [if_pos (by decide)]
          refine yields_bind (deallocuvm_spec taken.dir.exhaust (le_of_lt low) less) fun _ u post => ?_
          obtain ⟨_, undone⟩ := post
          refine yields_bind (Taken.giveBack (s := s) undone.dir ?_ undone.exhausted) fun _ w failed =>
            yields_pure (.inr ⟨rfl, failed⟩)
          exact (others.trans (Keeps.exhaust rest _)).trans
            (undone.keeps.subset fun g member => Multiset.mem_cons_of_mem member)
        · rw [if_neg (by decide), onward]
          have later : ∀ v, k + 1 ≤ v → v * 4096 < newsz → pteAt u.mem d v = 0 := by
            intro v lower upper
            have bound := lt_of_lt_of_le (heap_page upper (le_of_lt low)) userPages_le
            rw [mapped.entries v bound, if_neg (by omega), taken.same v bound, empty v (by omega) upper]
          have kept : Keeps rest (t.writePage f fun _ => 0) u := mapped.keeps.subset fun g member =>
            Multiset.mem_add.mpr (.inr (Multiset.mem_add.mpr (.inr member)))
          have onStart : oldsz ≤ (k + 1) * 4096 := start.trans (Nat.mul_le_mul_right _ (Nat.le_succ k))
          have onReached : newsz ≤ (k + 1 + fuel) * 4096 := reached.trans (Nat.mul_le_mul_right _ (by omega))
          refine (ih u (k + 1) mapped.dir onStart onReached later).imp fun r w post => ?_
          rcases post with ⟨size, done⟩ | ⟨zero, failed⟩
          · exact .inl ⟨size, Allocated.cons user inside taken (empty k le_rfl inside) mapped done⟩
          · refine .inr ⟨zero, failed.dir, (others.trans kept).trans failed.keeps, failed.exhausted⟩
    · rw [if_neg inside]
      exact yields_pure (.inl ⟨rfl, Allocated.none dir (not_lt.mp inside)⟩)

/-- `allocuvm` to a larger break below `KERNBASE` maps zeroed pages or takes everything back. -/
theorem allocuvm_spec {s : Machine} {oldsz newsz : Nat} (dir : Dir ld s d rest total) (low : newsz < KERNBASE)
    (more : oldsz ≤ newsz)
    (empty : ∀ u, (oldsz + 4095) / 4096 ≤ u → u * 4096 < newsz → pteAt s.mem d u = 0) :
    Yields (allocuvm ld (kva d) oldsz newsz) s (fun r t =>
      (r = newsz ∧ Allocated ld s t d ((oldsz + 4095) / 4096) newsz rest total) ∨
        (r = 0 ∧ MapFailed ld s t d rest total)) E := by
  have rounded := PGROUNDUP_page (le_of_lt (lt_of_le_of_lt more low))
  unfold allocuvm
  rw [if_neg (not_le.mpr low), if_neg (not_lt.mpr more), rounded]
  exact allocLoop_spec low _ s _ dir (round_up oldsz) (pages_enough _ newsz) empty

end Alloc

end OsLabs.Xv6
