import OsLabs.Xv6.Teardown

namespace OsLabs.Xv6
open Command Gather

section Range
variable {ld : Linker} {d : Nat} {rest total : Multiset Nat} {E : Panic → Machine → Prop}

/-- What mapping the pages `v..v+left` above `KERNBASE` to the frames from `f` on leaves. -/
structure MappedRange (ld : Linker) (s t : Machine) (d v left f perm : Nat) (rest total : Multiset Nat) : Prop where
  dir : Dir ld t d rest total
  entries : ∀ u, u < 2 ^ 20 →
    pteAt t.mem d u = if v ≤ u ∧ u ≤ v + left then mapEntry (f + (u - v)) perm else pteAt s.mem d u
  keeps : Keeps rest s t
  exhausted : t.exhausted = s.exhausted

/-- Mapping without `PTE_U` opens nothing to programs. -/
theorem MappedRange.closed {s t : Machine} {v left f perm : Nat}
    (mapped : MappedRange ld s t d v left f perm rest total)
    (few : perm = 0 ∨ perm = PTE_W) (before : ∀ u, u < 2 ^ 20 → ¬ userBit (pteAt s.mem d u)) :
    ∀ u, u < 2 ^ 20 → ¬ userBit (pteAt t.mem d u) := by
  intro u bound
  rw [mapped.entries u bound]
  by_cases inside : v ≤ u ∧ u ≤ v + left
  · rw [if_pos inside]
    have bits : perm ||| PTE_P = 1 ∨ perm ||| PTE_P = 3 := by
      rcases few with rfl | rfl
      · exact .inl rfl
      · exact .inr rfl
    unfold mapEntry userBit
    omega
  · rw [if_neg inside]
    exact before u bound

/-- The pages of programs are not touched. -/
theorem MappedRange.pages {s t : Machine} {v left f perm : Nat}
    (mapped : MappedRange ld s t d v left f perm rest total)
    (high : userPages ≤ v) : pages t.mem d = Xv6.pages s.mem d := by
  refine gather_congr fun u user => ?_
  rw [mapped.entries u (lt_of_lt_of_le user userPages_le), if_neg (by omega)]

/-- An allocation inside the loop has failed; the address space is still in order. -/
structure MapFailed (ld : Linker) (s t : Machine) (d : Nat) (rest total : Multiset Nat) : Prop where
  dir : Dir ld t d rest total
  keeps : Keeps rest s t
  exhausted : t.exhausted = true

theorem kernelPage_spec {s : Machine} {v f perm : Nat} (flags : perm < 4096) (dir : Dir ld s d rest total)
    (high : userPages ≤ v) (bound : v < 2 ^ 20) (empty : ¬ present (pteAt s.mem d v)) :
    Yields (mapPage (kva d) (v * 4096) (f * 4096) perm) s (fun r t =>
      (r = false ∧ own t.mem d + rest = total ∧ t.mem = s.mem ∧ MapFailed ld s t d rest total) ∨
        (r = true ∧ MappedRange ld s t d v 0 f perm rest total)) E := by
  have index : v * 4096 / 4096 = v := Nat.mul_div_cancel v (by decide)
  have above : (charge v (mapEntry f perm) : Multiset Nat) + rest = rest := by
    rw [charge, if_neg (not_lt.mpr high), Multiset.coe_nil, Multiset.zero_add]
  have spec := mapPage_spec (s := s) (d := d) (f := f) (a := v * 4096) (E := E) (by omega) flags
    (by rw [index, above]; exact dir) (by rwa [index])
  rw [index, above] at spec
  rw [Nat.mul_comm f]
  refine spec.imp fun r t post => ?_
  rcases post with ⟨failed, spent, _, rfl⟩ | ⟨done, mapped⟩
  · exact .inl ⟨failed, spent, rfl, dir.exhaust, Keeps.exhaust rest s, rfl⟩
  · refine .inr ⟨done, mapped.dir, fun u inside => ?_, mapped.keeps.subset fun g member => ?_, mapped.exhausted⟩
    · rw [mapped.entries u inside]
      by_cases here : u = v
      · rw [if_pos here, if_pos (by omega), here, Nat.sub_self, Nat.add_zero]
      · rw [if_neg here, if_neg (by omega)]
    · rw [above]
      exact Multiset.mem_add.mpr (.inr member)

theorem mapLoop_spec {perm : Nat} (flags : perm < 4096) (left : Nat) : ∀ (s : Machine) (v f : Nat),
    Dir ld s d rest total → userPages ≤ v → v + left < 2 ^ 20 → f + left < 2 ^ 20 →
    (∀ u, v ≤ u → u ≤ v + left → ¬ present (pteAt s.mem d u)) →
    Yields (mapLoop (kva d) perm left (v * 4096) (f * 4096)) s (fun r t =>
      (r = -1 ∧ own t.mem d + rest = total ∧ pages t.mem d = pages s.mem d ∧ MapFailed ld s t d rest total) ∨
        (r = 0 ∧ MappedRange ld s t d v left f perm rest total)) E := by
  induction left with
  | zero =>
    intro s v f dir high bound _ empty
    unfold mapLoop
    refine yields_bind (kernelPage_spec flags dir high bound (empty v le_rfl le_rfl)) fun r t post => ?_
    rcases post with ⟨rfl, spent, same, failed⟩ | ⟨rfl, mapped⟩
    · exact yields_pure (.inl ⟨rfl, spent, by rw [same], failed⟩)
    · exact yields_pure (.inr ⟨rfl, mapped⟩)
  | succ left ih =>
    intro s v f dir high bound frames empty
    unfold mapLoop
    refine yields_bind (kernelPage_spec flags dir high (by omega) (empty v le_rfl (by omega))) fun r t post => ?_
    rcases post with ⟨rfl, spent, same, failed⟩ | ⟨rfl, mapped⟩
    · exact yields_pure (.inl ⟨rfl, spent, by rw [same], failed⟩)
    · rw [if_pos rfl, show (v * 4096 + 4096) % 2 ^ 32 = (v + 1) * 4096 by omega,
        show (f * 4096 + 4096) % 2 ^ 32 = (f + 1) * 4096 by omega]
      refine (ih t (v + 1) (f + 1) mapped.dir (by omega) (by omega) (by omega) fun u lower upper => ?_).imp
        fun r w post => ?_
      · rw [mapped.entries u (by omega), if_neg (by omega)]
        exact empty u (by omega) (by omega)
      · rcases post with ⟨minus, spent, same, failed⟩ | ⟨zero, later⟩
        · exact .inl ⟨minus, spent, same.trans (mapped.pages high), failed.dir, mapped.keeps.trans failed.keeps,
            failed.exhausted⟩
        · refine .inr ⟨zero, later.dir, fun u inside => ?_, mapped.keeps.trans later.keeps,
            later.exhausted.trans mapped.exhausted⟩
          rw [later.entries u inside, mapped.entries u inside]
          by_cases first : u = v
          · rw [if_neg (by omega), if_pos (by omega), if_pos (by omega)]
          · by_cases range : v ≤ u ∧ u ≤ v + (left + 1)
            · rw [if_pos (by omega), if_pos range, show f + 1 + (u - (v + 1)) = f + (u - v) by omega]
            · rw [if_neg (by omega), if_neg (by omega), if_neg range]

/-- `mappages` of a range of whole pages. -/
theorem mappages_pages (pgdir perm v n pa : Nat) (bound : v + n < 2 ^ 20) :
    mappages pgdir (v * 4096) ((n + 1) * 4096) pa perm = mapLoop pgdir perm n (v * 4096) pa := by
  have first : PGROUNDDOWN (v * 4096) = v * 4096 := by
    rw [PGROUNDDOWN, Nat.mul_div_cancel v (by decide)]
  have last : PGROUNDDOWN ((v * 4096 + (n + 1) * 4096 + (2 ^ 32 - 1)) % 2 ^ 32) = (v + n) * 4096 := by
    unfold PGROUNDDOWN
    omega
  have count : ((v + n) * 4096 + 2 ^ 32 - v * 4096) % 2 ^ 32 / 4096 = n := by
    omega
  unfold mappages
  rw [first, last]
  dsimp only
  rw [count]

theorem mappages_single (pgdir perm pa : Nat) {v : Nat} (bound : v < 2 ^ 20) :
    mappages pgdir (v * 4096) 4096 pa perm = mapLoop pgdir perm 0 (v * 4096) pa := by
  have loop := mappages_pages pgdir perm v 0 pa bound
  rwa [Nat.zero_add, Nat.one_mul] at loop

/-- `mappages` of one page. -/
theorem mappages_single_spec {s : Machine} {v f perm : Nat} (bound : v < 2 ^ 20) (flags : perm < 4096)
    (dir : Dir ld s d ((charge v (mapEntry f perm) : Multiset Nat) + rest) total)
    (empty : ¬ present (pteAt s.mem d v)) :
    Yields (mappages (kva d) (v * 4096) 4096 (4096 * f) perm) s (fun r t =>
      (r = -1 ∧ own s.mem d + ((charge v (mapEntry f perm) : Multiset Nat) + rest) = total ∧
          ¬ present (s.mem d (v / 1024)) ∧ t = { s with exhausted := true }) ∨
        (r = 0 ∧ Mapped ld s t d v (mapEntry f perm) rest total)) E := by
  have index : v * 4096 / 4096 = v := Nat.mul_div_cancel v (by decide)
  have spec := mapPage_spec (a := v * 4096) (E := E) (by omega) flags (by rwa [index]) (by rwa [index])
  rw [index] at spec
  rw [mappages_single _ _ _ bound]
  unfold mapLoop
  refine yields_bind spec fun r t post => ?_
  rcases post with ⟨rfl, spent, gone, same⟩ | ⟨rfl, mapped⟩
  · exact yields_pure (.inl ⟨rfl, spent, gone, same⟩)
  · exact yields_pure (.inr ⟨rfl, mapped⟩)

/-- One row of `kmap`: either the loop goes on with the row mapped, or the
address space is given up. -/
theorem mapKernel_row {s : Machine} {virt physStart physEnd perm v n f : Nat} {rows : List (Nat × Nat × Nat × Nat)}
    {Q : Nat → Machine → Prop} (flags : perm < 4096) (dir : Dir ld s d rest total) (none : pages s.mem d = 0)
    (high : userPages ≤ v)
    (bound : v + n < 2 ^ 20) (frames : f + n < 2 ^ 20) (address : virt = v * 4096) (start : physStart = f * 4096)
    (size : (physEnd + 2 ^ 32 - physStart) % 2 ^ 32 = (n + 1) * 4096)
    (empty : ∀ u, v ≤ u → u ≤ v + n → ¬ present (pteAt s.mem d u))
    (next : ∀ t, pages t.mem d = 0 → MappedRange ld s t d v n f perm rest total →
      Yields (mapKernel ld (kva d) rows) t Q E)
    (fail : ∀ t, Multiset.card total ≤ 1025 + Multiset.card rest → Stock ld t rest total → Keeps rest s t →
      t.exhausted = true → Q 0 t) :
    Yields (mapKernel ld (kva d) ((virt, physStart, physEnd, perm) :: rows)) s Q E := by
  unfold mapKernel
  rw [size, address, start, mappages_pages (kva d) perm v n _ bound]
  refine yields_bind (mapLoop_spec flags n s v f dir high bound frames empty) fun r t post => ?_
  rcases post with ⟨rfl, spent, same, failed⟩ | ⟨rfl, mapped⟩
  · rw [if_pos (by decide)]
    refine yields_bind (freevm_spec failed.dir) fun _ u done => yields_pure ?_
    have size := card_own t.mem d
    rw [same, none, Multiset.card_zero] at size
    have few : Multiset.card total ≤ 1025 + Multiset.card rest := by
      rw [← spent, Multiset.card_add]
      omega
    exact fail u few done.1 (failed.keeps.trans done.2.1) (done.2.2.trans failed.exhausted)
  · rw [if_neg (by decide)]
    exact next t ((mapped.pages high).trans none) mapped

/-- A directory of zeros is an address space without tables. -/
theorem Dir.empty {s : Machine} (stock : Stock ld s (d ::ₘ rest) total) :
    Dir ld (s.writePage d fun _ => 0) d rest total ∧
      ∀ u, pteAt (s.writePage d fun _ => 0).mem d u = 0 := by
  have zero : ∀ i, (s.writePage d fun _ => 0).mem d i = 0 := fun i => by rw [writePage_same]
  have entries : ∀ u, pteAt (s.writePage d fun _ => 0).mem d u = 0 := fun u => by
    rw [pteAt, zero, if_neg (by decide)]
  have noTables : tables (s.writePage d fun _ => 0).mem d = 0 := gather_eq_zero fun i _ => by
    rw [zero]
    exact frameOf_absent (by decide)
  have noPages : pages (s.writePage d fun _ => 0).mem d = 0 := gather_eq_zero fun v _ => by
    rw [entries]
    exact frameOf_absent (by decide)
  refine ⟨⟨?_, fun i _ => .inl (zero i), fun v _ => .inl (entries v)⟩, entries⟩
  rw [own, noTables, noPages, Multiset.add_zero, Multiset.cons_add, Multiset.zero_add]
  refine stock.congr rfl fun f notHeld => writePage_other _ _ _ ?_
  rintro rfl
  exact notHeld (Multiset.mem_cons_self ..)

/-- What `setupkvm` and `copyuvm` leave when they give up. -/
structure GaveUp (ld : Linker) (s t : Machine) (rest total : Multiset Nat) : Prop where
  stock : Stock ld t rest total
  keeps : Keeps rest s t
  exhausted : t.exhausted = true

/-- A new address space with the kernel part only, which programs cannot access. -/
structure KernelOnly (ld : Linker) (s t : Machine) (d : Nat) (rest total : Multiset Nat) : Prop where
  dir : Dir ld t d rest total
  user : ∀ u, u < userPages → pteAt t.mem d u = 0
  kernel : ∀ u, u < 2 ^ 20 → userPages ≤ u → ¬ userBit (pteAt t.mem d u)
  keeps : Keeps rest s t
  exhausted : t.exhausted = s.exhausted

/-- The loop over `kmap` fills the kernel half of a fresh directory. -/
theorem mapKernel_spec {s : Machine} (dir : Dir ld s d rest total) (zero : ∀ u, pteAt s.mem d u = 0) :
    Yields (mapKernel ld (kva d) (kmap ld)) s (fun r t =>
      (r = 0 ∧ Multiset.card total ≤ 1025 + Multiset.card rest ∧ GaveUp ld s t rest total) ∨
      (r = kva d ∧ KernelOnly ld s t d rest total)) E := by
  obtain ⟨q, page⟩ : ∃ q, ld.data = q * 4096 := ⟨ld.data / 4096, by have := ld.aligned; omega⟩
  have order : 524544 < q ∧ q < 581632 := by
    have behindText := ld.behindText
    have inMemory := ld.ordered.trans_lt ld.inMemory
    simp only [KERNLINK, KERNBASE, EXTMEM, PHYSTOP, page] at behindText inMemory
    omega
  have split := userPages_eq
  have none : pages s.mem d = 0 := gather_eq_zero fun v _ => by
    rw [zero]
    exact frameOf_absent (by decide)
  unfold kmap
  rw [page]
  refine mapKernel_row (v := 524288) (n := 255) (f := 0) (by decide) dir none (by omega) (by decide)
    (by decide) rfl rfl
    (by decide) (fun u _ _ => by rw [zero]; decide) (fun t₁ noneFirst first => ?_) fun u few stock also ghost =>
      .inl ⟨rfl, few, stock, also, ghost⟩
  refine mapKernel_row (v := 524544) (n := q - 524545) (f := 256) (by decide) first.dir noneFirst (by omega)
    (by omega) (by omega)
    rfl rfl (by simp only [KERNLINK, KERNBASE, EXTMEM]; omega) (fun u lower upper => ?_)
      (fun t₂ noneSecond second => ?_)
    fun u few stock also ghost => .inl ⟨rfl, few, stock, (first.keeps).trans also, ghost⟩
  · rw [first.entries u (by omega), if_neg (by omega), zero]
    decide
  refine mapKernel_row (v := q) (n := 581631 - q) (f := q - 524288) (by decide) second.dir noneSecond
    (by omega) (by omega)
    (by omega) rfl (by simp only [KERNBASE]; omega) (by simp only [KERNBASE, PHYSTOP]; omega)
    (fun u lower upper => ?_) (fun t₃ noneThird third => ?_)
    fun u few stock also ghost => .inl ⟨rfl, few, stock, (first.keeps.trans second.keeps).trans also, ghost⟩
  · rw [second.entries u (by omega), if_neg (by omega), first.entries u (by omega), if_neg (by omega), zero]
    decide
  refine mapKernel_row (v := 1040384) (n := 8191) (f := 1040384) (by decide) third.dir noneThird (by omega)
    (by decide) (by decide)
    rfl rfl (by decide) (fun u lower upper => ?_) (fun t₄ _ fourth => ?_)
    fun u few stock also ghost =>
      .inl ⟨rfl, few, stock, ((first.keeps.trans second.keeps).trans third.keeps).trans also, ghost⟩
  · rw [third.entries u (by omega), if_neg (by omega), second.entries u (by omega), if_neg (by omega),
      first.entries u (by omega), if_neg (by omega), zero]
    decide
  have closed := fourth.closed (.inr rfl) (third.closed (.inr rfl) (second.closed (.inl rfl) (first.closed (.inr rfl)
    fun u _ => by rw [zero]; decide)))
  refine yields_pure (.inr ⟨rfl, fourth.dir, fun u user => ?_, fun u bound _ => closed u bound,
    ((first.keeps.trans second.keeps).trans third.keeps).trans fourth.keeps,
    fourth.exhausted.trans (third.exhausted.trans (second.exhausted.trans first.exhausted))⟩)
  rw [fourth.entries u (by omega), if_neg (by omega), third.entries u (by omega), if_neg (by omega),
    second.entries u (by omega), if_neg (by omega), first.entries u (by omega), if_neg (by omega), zero]

theorem P2V_top (s : Machine) : P2V PHYSTOP s = .ok (KERNBASE + PHYSTOP) s := by
  unfold P2V
  rw [if_neg (by decide), show (PHYSTOP + KERNBASE) % 2 ^ 32 = KERNBASE + PHYSTOP by decide]
  rfl

theorem setupkvm_spec {s : Machine} (stock : Stock ld s rest total) :
    Yields (setupkvm ld) s (fun r t =>
      (r = 0 ∧ Multiset.card total ≤ 1025 + Multiset.card rest ∧ GaveUp ld s t rest total) ∨
      ∃ d, r = kva d ∧ KernelOnly ld s t d rest total) E := by
  refine yields_bind (kalloc_spec stock) fun r t post => ?_
  rcases post with ⟨rfl, spent, rfl⟩ | ⟨d, rfl, _, stockAfter, mem, cr3, ghost⟩
  · exact yields_pure (.inl ⟨rfl, by rw [spent]; exact Nat.le_add_left .., stock.congr rfl fun _ _ => rfl,
      Keeps.exhaust rest s, rfl⟩)
  · rw [if_neg (kva_ne_zero d)]
    have foreign := (Multiset.nodup_cons.mp stockAfter.nodup_held).1
    have keeps : Keeps rest s (t.writePage d fun _ => 0) := by
      refine ⟨fun f member => ?_, cr3, fun was => ghost.trans was⟩
      have other : f ≠ d := fun same => foreign (by rwa [← same])
      rw [writePage_other _ _ _ other, mem]
    have spec := (mapKernel_spec (E := E) (Dir.empty stockAfter).1 (Dir.empty stockAfter).2).imp (Q := fun r u =>
      (r = 0 ∧ Multiset.card total ≤ 1025 + Multiset.card rest ∧ GaveUp ld s u rest total) ∨
        ∃ d, r = kva d ∧ KernelOnly ld s u d rest total) fun r u post => by
        rcases post with ⟨zero, few, gaveUp⟩ | ⟨same, made⟩
        · exact .inl ⟨zero, few, gaveUp.stock, keeps.trans gaveUp.keeps, gaveUp.exhausted⟩
        · exact .inr ⟨d, same, made.dir, made.user, made.kernel, keeps.trans made.keeps, made.exhausted.trans ghost⟩
    refine yields_step (memset_zero t d) (yields_step (P2V_top _) ?_)
    rw [if_neg (by decide)]
    exact spec

end Range

end OsLabs.Xv6
