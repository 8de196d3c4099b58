import OsLabs.Xv6.CopyUvm
import OsLabs.Xv6.Fault
import OsLabs.Xv6.UserSpace

namespace OsLabs.Xv6
open Command Gather

/-- Pages from `KERNBASE` on that are open to the program lie in lost frames: `freevm` never frees them. -/
def HighLost (lost : Multiset Nat) (m : Nat → Nat → Nat) (d : Nat) : Prop :=
  ∀ v, v < 2 ^ 20 → userPages ≤ v → userBit (pteAt m d v) → pteAt m d v / 4096 ∈ lost

/-- The address space may have grown, in its own frames below `KERNBASE` and in lost ones above. -/
structure Spread (ld : Linker) (s t : Machine) (d : Nat) (lost lost' rest total : Multiset Nat) : Prop where
  more : lost ≤ lost'
  dir : Dir ld t d (lost' + rest) total
  high : HighLost lost' t.mem d
  keeps : Keeps rest s t

section Spread
variable {ld : Linker} {s t u : Machine} {d v f perm : Nat} {lost lost' lost'' rest total : Multiset Nat}
  {E : Panic → Machine → Prop}

theorem HighLost.mono {m : Nat → Nat → Nat} (high : HighLost lost m d) (more : lost ≤ lost') : HighLost lost' m d :=
  fun v bound above user => Multiset.mem_of_le more (high v bound above user)

theorem HighLost.congr {m m' : Nat → Nat → Nat} (high : HighLost lost m d)
    (same : ∀ v, v < 2 ^ 20 → pteAt m' d v = pteAt m d v) : HighLost lost m' d := by
  intro v bound above user
  rw [same v bound] at user ⊢
  exact high v bound above user

theorem Spread.trans (first : Spread ld s t d lost lost' rest total)
    (second : Spread ld t u d lost' lost'' rest total) :
    Spread ld s u d lost lost'' rest total :=
  ⟨first.more.trans second.more, second.dir, second.high, first.keeps.trans second.keeps⟩

/-- `mappages` of one page anywhere. -/
theorem mappages_any (bound : v < 2 ^ 20) (flags : perm < 4096) (dir : Dir ld s d (f ::ₘ (lost + rest)) total)
    (high : HighLost lost s.mem d) (empty : ¬ present (pteAt s.mem d v)) :
    Yields (mappages (kva d) (v * 4096) 4096 (4096 * f) perm) s (fun r t =>
      (r = -1 ∧ ¬ present (s.mem d (v / 1024)) ∧ t = { s with exhausted := true }) ∨
        (r = 0 ∧ ∃ lost', Spread ld s t d lost lost' rest total)) E := by
  -- below `KERNBASE` the address space takes the frame over, above it the frame is lost
  obtain ⟨lost', more, held, inside⟩ : ∃ lost', lost ≤ lost' ∧
      (charge v (mapEntry f perm) : Multiset Nat) + (lost' + rest) = f ::ₘ (lost + rest) ∧
        (userPages ≤ v → f ∈ lost') := by
    by_cases user : v < userPages
    · exact ⟨lost, le_rfl, charge_user user f flags, fun above => absurd user (not_lt.mpr above)⟩
    · refine ⟨f ::ₘ lost, Multiset.le_cons_self lost f, ?_, fun _ => Multiset.mem_cons_self f lost⟩
      rw [charge, if_neg user, Multiset.coe_nil, Multiset.zero_add, Multiset.cons_add]
  rw [← held] at dir
  refine (mappages_single_spec bound flags dir empty).imp fun r t post => ?_
  rcases post with ⟨rfl, _, gone, same⟩ | ⟨rfl, mapped⟩
  · exact .inl ⟨rfl, gone, same⟩
  · refine .inr ⟨rfl, lost', more, mapped.dir, fun u small above user => ?_, mapped.keeps.subset fun g member =>
      Multiset.mem_add.mpr (.inr (Multiset.mem_add.mpr (.inr (Multiset.mem_add.mpr (.inr member)))))⟩
    rw [mapped.entries u small] at user ⊢
    by_cases here : u = v
    · rw [if_pos here, mapEntry_frame f flags]
      exact inside (here ▸ above)
    · rw [if_neg here] at user ⊢
      exact Multiset.mem_of_le more (high u small above user)

/-- A page that is present already stops the kernel. -/
theorem mappages_remap {Q : Int → Machine → Prop} (bound : v < 2 ^ 20) (dir : Dir ld s d rest total)
    (here : present (pteAt s.mem d v)) (pa : Nat) :
    Yields (mappages (kva d) (v * 4096) 4096 pa perm) s Q fun _ _ => True := by
  have small : v * 4096 < 2 ^ 32 := by omega
  have index : v * 4096 / 4096 = v := Nat.mul_div_cancel v (by decide)
  have table := table_of_page here
  have found := walkpgdir_found dir small true (by rwa [index])
  rw [index] at found
  have entry : s.mem (s.mem d (v / 1024) / 4096) (v % 1024) = pteAt s.mem d v := by rw [pteAt, if_pos table]
  rw [mappages_single _ _ _ bound]
  unfold mapLoop
  refine yields_bind (P := fun _ _ => False) ?_ fun _ _ never => never.elim
  refine yields_step found ?_
  rw [if_neg (by have := kva_ne_zero (s.mem d (v / 1024) / 4096); omega)]
  refine yields_step (load_kva s _ (by omega)) ?_
  rw [entry, if_pos here]
  exact yields_throw trivial

end Spread

section Fault
variable {ld : Linker} {s : Machine} {d v : Nat} {p : Proc} {lost rest total : Multiset Nat}

/-- `faultPage` for a process with any break. -/
theorem faultPage_any (dir : Dir ld s d (lost + rest) total) (high : HighLost lost s.mem d)
    (directory : p.pgdir = kva d)
    (current : s.cr3 = 4096 * d) (bound : v < 2 ^ 20) (here : present (s.mem d (v / 1024)))
    (empty : pteAt s.mem d v = 0) :
    Yields (faultPage ld p (v * 4096)) s (fun q t => q = p ∧ ∃ lost', Spread ld s t d lost lost' rest total)
      fun _ _ => True := by
  unfold faultPage
  refine yields_bind (kalloc_spec dir.stock) fun r t post => ?_
  rcases post with ⟨rfl, _, rfl⟩ | ⟨f, rfl, _, stock, mem, cr3, ghost⟩
  · exact (null_page rfl).mono (fun _ _ post => post) fun _ _ _ => trivial
  · have taken := dir.take mem cr3 ghost stock fun _ => 0
    have kept : Keeps rest s (t.writePage f fun _ => 0) := taken.keeps.subset fun g member =>
      Multiset.mem_add.mpr (.inr (Multiset.mem_add.mpr (.inr member)))
    have gone : ¬ present (pteAt (t.writePage f fun _ => 0).mem d v) := by
      rw [taken.same v bound, empty]
      decide
    refine yields_step (memset_zero t f) (yields_step (V2P_kva _ f) ?_)
    rw [directory]
    refine yields_bind (mappages_any bound (by decide) taken.dir (high.congr taken.same) gone) fun r u post => ?_
    rcases post with ⟨_, missing, _⟩ | ⟨rfl, lost', spread⟩
    · rw [taken.directory] at missing
      exact absurd here missing
    · have done : Spread ld s u d lost lost' rest total :=
        ⟨spread.more, spread.dir, spread.high, kept.trans spread.keeps⟩
      rw [if_neg (by decide)]
      by_cases stack : p.kstack = 0
      · refine yields_bind (P := fun _ _ => False) ?_ fun _ _ never => never.elim
        unfold switchuvm
        rw [if_pos (.inl stack)]
        exact yields_throw trivial
      · refine yields_step (switchuvm_same stack directory (done.keeps.cr3.trans current)) ?_
        exact yields_pure ⟨rfl, lost', done⟩

/-- The page-fault branch of `trap` whatever the break is. -/
theorem trapLazy_any {cr2 : Nat} (dir : Dir ld s d (lost + rest) total) (high : HighLost lost s.mem d)
    (directory : p.pgdir = kva d) (current : s.cr3 = 4096 * d) (address : cr2 < 2 ^ 32) :
    Yields (trapLazy ld p cr2) s (fun q t => (q = p ∨ q = { p with killed := true }) ∧
      ∃ lost', Spread ld s t d lost lost' rest total) fun _ _ => True := by
  have page : cr2 / 4096 * 4096 / 4096 = cr2 / 4096 := Nat.mul_div_cancel _ (by decide)
  have small : cr2 / 4096 * 4096 < 2 ^ 32 := lt_of_le_of_lt (Nat.div_mul_le_self cr2 4096) address
  have bound : cr2 / 4096 < 2 ^ 20 := by omega
  have spec := walkpgdir_spec (E := fun _ _ => True) dir small
  rw [page, ← directory] at spec
  unfold trapLazy PGROUNDDOWN
  refine yields_bind spec fun r t post => ?_
  rcases post with ⟨rfl, _, none, rfl⟩ | ⟨rfl, ghost, walked⟩
  · have spread : Spread ld s { s with exhausted := true } d lost lost rest total :=
      ⟨le_rfl, dir.exhaust, high, Keeps.exhaust _ s⟩
    have stock := dir.exhaust.stock
    change Stock ld _ (own s.mem d + (lost + rest)) total at stock
    rw [none] at stock
    refine yields_bind ((untouched_reads rfl).mono (fun _ _ post => post) fun _ _ _ => trivial)
      fun allocate u same => ?_
    subst same
    refine yields_ite (fun _ => ?_) fun _ => yields_pure ⟨.inr rfl, lost, spread⟩
    exact (faultPage_exhausted stock).mono (fun _ _ post => post) fun _ _ _ => trivial
  · have kept : Keeps rest s t := walked.keeps.subset fun g member =>
      Multiset.mem_add.mpr (.inr (Multiset.mem_add.mpr (.inr member)))
    have between : Spread ld s t d lost lost rest total := ⟨le_rfl, walked.dir, high.congr walked.same, kept⟩
    refine yields_step (untouched_spec (walked.word bound)) (yields_ite (fun untouched => ?_) fun _ => ?_)
    · have empty : pteAt s.mem d (cr2 / 4096) = 0 := (of_decide_eq_true untouched).2
      have done := faultPage_any walked.dir between.high directory (kept.cr3.trans current) bound walked.here
        (by rw [walked.same _ bound, empty])
      refine done.imp fun q u post => ⟨.inl post.1, ?_⟩
      obtain ⟨lost', spread⟩ := post.2
      exact ⟨lost', between.trans spread⟩
    · exact yields_pure ⟨.inr rfl, lost, between⟩

end Fault

section Access
variable {ld : Linker} {s : Machine} {d a f : Nat} {p : Proc} {lost rest total : Multiset Nat}

/-- Frames the program can reach are its pages or lost. -/
theorem HighLost.reach {m : Nat → Nat → Nat} {v : Nat} (high : HighLost lost m d) (bound : v < 2 ^ 20)
    (here : present (pteAt m d v)) (user : userBit (pteAt m d v)) : pteAt m d v / 4096 ∈ pages m d + lost := by
  by_cases low : v < userPages
  · exact Multiset.mem_add.mpr (.inl (mem_pages.mpr ⟨v, low, here, rfl⟩))
  · exact Multiset.mem_add.mpr (.inr (high v bound (not_lt.mp low) user))

/-- Writing to a page or to a lost frame disturbs nothing. -/
theorem Spread.poke {t : Machine} (dir : Dir ld s d (lost + rest) total) (high : HighLost lost s.mem d)
    (member : f ∈ pages s.mem d + lost) (head : t.freelist = s.freelist) (cr3 : t.cr3 = s.cr3)
    (ghost : t.exhausted = s.exhausted) (others : ∀ g, g ≠ f → t.mem g = s.mem g) :
    Spread ld s t d lost lost rest total := by
  have inside : f ∈ pages s.mem d + (lost + rest) := by
    rw [← add_assoc]
    exact Multiset.mem_add.mpr (.inl member)
  obtain ⟨after, same⟩ := dir.poke inside head others
  refine ⟨le_rfl, after, high.congr same, fun g other => others g ?_, cr3, fun was => ghost.trans was⟩
  rintro rfl
  have nodup := dir.stock.nodup_held
  rw [← add_assoc] at nodup
  refine Multiset.disjoint_left.mp (Multiset.nodup_add.mp nodup).2.2 ?_ other
  exact (Multiset.mem_add.mp member).elim (fun page => Multiset.mem_add.mpr (.inl (mem_own.mpr (.inr (.inr page)))))
    fun gone => Multiset.mem_add.mpr (.inr gone)

/-- A user access of a process with any break; a page fault kills the process or is followed by another try. -/
theorem userAccess_any (op : Access) (small : a < 2 ^ 32) (tries : Nat) :
    ∀ (s : Machine) (p : Proc) (lost : Multiset Nat),
    Dir ld s d (lost + rest) total → HighLost lost s.mem d → p.pgdir = kva d → s.cr3 = 4096 * d →
      Yields (userAccess (lazyPaging ld) op a tries p) s (fun r t => (r.2 = p ∨ r.2 = { p with killed := true }) ∧
        ∃ lost', Spread ld s t d lost lost' rest total) fun _ _ => True := by
  induction tries with
  | zero => exact fun _ _ _ _ _ _ _ => yields_throw trivial
  | succ tries ih =>
    intro s p lost dir high directory current
    have bound : a / 4096 < 2 ^ 20 := by omega
    unfold userAccess
    refine yields_step rfl ?_
    rw [userFrame_entry dir.space current small]
    by_cases may : userMay op (pteAt s.mem d (a / 4096))
    · rw [if_pos may]
      refine yields_step rfl (yields_pure ⟨.inl rfl, lost, ?_⟩)
      obtain ⟨head, cr3, ghost⟩ := accessed_rest s (pteAt s.mem d (a / 4096) / 4096) a op
      exact Spread.poke dir high (high.reach bound may.1 may.2.1) head cr3 ghost fun g other =>
        accessed_other _ _ _ _ other
    · rw [if_neg may]
      refine yields_bind (trapLazy_any dir high directory current small) fun q t post => ?_
      obtain ⟨same, lost', spread⟩ := post
      have pgdir : q.pgdir = kva d := by rcases same with rfl | rfl <;> exact directory
      refine yields_ite (fun _ => yields_pure ⟨same, lost', spread⟩) fun alive => ?_
      have still : q = p := by
        rcases same with still | rfl
        · exact still
        · exact absurd rfl alive
      refine (ih t q lost' spread.dir spread.high pgdir (spread.keeps.cr3.trans current)).imp fun r u post => ?_
      obtain ⟨result, lost'', again⟩ := post
      rw [still] at result
      exact ⟨result, lost'', spread.trans again⟩

end Access

section Copy
variable {ld : Linker} {s : Machine} {d e : Nat} {lost rest total : Multiset Nat}

/-- What `copyuvm` leaves: nothing but lost frames, or an address space beside the parent's. -/
def Copied (ld : Linker) (s t : Machine) (d : Nat) (rest total : Multiset Nat) (r : Nat) : Prop :=
  (r = 0 ∧ ∃ lost, Stock ld t (lost + (own s.mem d + rest)) total ∧ Keeps (own s.mem d + rest) s t) ∨
    ∃ e lost, r = kva e ∧ Spread ld s t e 0 lost (own s.mem d + rest) total

/-- The child is thrown away. -/
theorem Copied.gaveUp {t : Machine} (dir : Dir ld t e (lost + (own s.mem d + rest)) total)
    (keeps : Keeps (own s.mem d + rest) s t) :
    Yields (do
      freevm ld (kva e)
      pure 0) t (fun r u => Copied ld s u d rest total r) fun _ _ => True := by
  refine yields_bind (freevm_spec dir) fun _ u freed => yields_pure (.inl ⟨rfl, lost, freed.1, ?_⟩)
  exact keeps.trans (freed.2.1.subset fun g member => Multiset.mem_add.mpr (.inr member))

/-- The loop of `copyuvm` up to any break. -/
theorem copyLoop_any {sz : Nat} (parent : Dir ld s d rest total) (fuel : Nat) :
    ∀ (t : Machine) (v : Nat) (lost : Multiset Nat),
    v < 2 ^ 20 → Spread ld s t e 0 lost (own s.mem d + rest) total →
      Yields (copyLoop ld (kva d) (kva e) sz fuel (v * 4096)) t (fun r u => Copied ld s u d rest total r)
        fun _ _ => True := by
  induction fuel with
  | zero =>
    intro t v lost _ spread
    unfold copyLoop
    exact yields_ite (fun _ => yields_throw trivial) fun _ => yields_pure (.inr ⟨e, lost, rfl, spread⟩)
  | succ fuel ih =>
    intro t v lost bound spread
    have small : v * 4096 < 2 ^ 32 := by omega
    have page : v * 4096 / 4096 = v := Nat.mul_div_cancel v (by decide)
    have onward : (v * 4096 + 4096) % 2 ^ 32 = (v + 1) % 2 ^ 20 * 4096 := by omega
    have next : (v + 1) % 2 ^ 20 < 2 ^ 20 := Nat.mod_lt _ (by decide)
    have directory : t.mem d = s.mem d := spread.keeps.mem d (Multiset.mem_add.mpr (.inl (mem_own.mpr (.inl rfl))))
    have table : ∀ g ∈ tables s.mem d, t.mem g = s.mem g := fun g member =>
      spread.keeps.mem g (Multiset.mem_add.mpr (.inl (mem_own.mpr (.inr (.inl member)))))
    have parentNow : Dir ld t d (own t.mem e + (lost + rest)) total := by
      refine ⟨?_, parent.space.congr directory table⟩
      have stock := spread.dir.stock
      rw [own_congr directory table, add_left_comm (own s.mem d), add_left_comm (own s.mem d) lost]
      exact stock
    unfold copyLoop
    refine yields_ite (fun _ => ?_) fun _ => yields_pure (.inr ⟨e, lost, rfl, spread⟩)
    by_cases here : present (t.mem d (v / 1024))
    · have found := walkpgdir_found parentNow small false (by rwa [page])
      rw [page] at found
      refine yields_step found ?_
      rw [if_neg (by have := kva_ne_zero (t.mem d (v / 1024) / 4096); omega)]
      refine yields_step (load_kva t _ (by omega)) ?_
      rw [onward]
      generalize t.mem (t.mem d (v / 1024) / 4096) (v % 1024) = entry
      refine yields_ite (fun _ => ih t _ lost next spread) fun _ =>
        yields_ite (fun _ => yields_throw trivial) fun _ => ?_
      refine yields_bind (kalloc_spec spread.dir.stock) fun r u post => ?_
      rcases post with ⟨rfl, _, rfl⟩ | ⟨f, rfl, _, stock, mem, cr3, ghost⟩
      · rw [if_pos rfl]
        exact Copied.gaveUp spread.dir.exhaust (spread.keeps.trans (Keeps.exhaust _ t))
      · rw [if_neg (kva_ne_zero f)]
        -- whatever page the entry names is copied
        refine yields_bind (P := fun _ w => w = u) ?_ fun src w same => ?_
        · unfold P2V
          exact yields_ite (fun _ => yields_throw trivial) fun _ => yields_pure rfl
        subst same
        refine yields_bind (P := fun _ x => ∃ content, x = w.writePage f content) ?_ fun _ x moved => ?_
        · unfold Yields memmove
          rw [frameAt_page]
          cases frameAt w src with
          | none => trivial
          | some g => exact ⟨_, rfl⟩
        obtain ⟨content, rfl⟩ := moved
        have taken := spread.dir.take mem cr3 ghost stock content
        have kept : Keeps (own s.mem d + rest) s (w.writePage f content) := spread.keeps.trans
          (taken.keeps.subset fun g member => Multiset.mem_add.mpr (.inr (Multiset.mem_add.mpr (.inr member))))
        have flags : PTE_FLAGS entry < 4096 := Nat.mod_lt _ (by decide)
        refine yields_step (V2P_kva _ f) ?_
        by_cases already : present (pteAt (w.writePage f content).mem e v)
        · refine yields_bind (P := fun _ _ => False) ?_ fun _ _ never => never.elim
          exact mappages_remap bound taken.dir already _
        · refine yields_bind (mappages_any bound flags taken.dir (spread.high.congr taken.same) already)
            fun r y post => ?_
          rcases post with ⟨rfl, _, rfl⟩ | ⟨rfl, lost', mapped⟩
          · rw [if_pos (by decide)]
            refine yields_bind (Taken.giveBack taken.dir.exhaust (Keeps.refl _ _) rfl) fun _ z failed => ?_
            exact Copied.gaveUp failed.dir ((kept.trans (Keeps.exhaust _ _)).trans
              (failed.keeps.subset fun g member => Multiset.mem_add.mpr (.inr member)))
          · rw [if_neg (by decide)]
            exact ih y _ lost' next ⟨spread.more.trans mapped.more, mapped.dir, mapped.high, kept.trans mapped.keeps⟩
    · refine yields_step (walkpgdir_missing (d := d) small (by rwa [page])) ?_
      rw [if_pos rfl]
      exact yields_throw trivial

theorem copyuvm_any (parent : Dir ld s d rest total) (sz : Nat) :
    Yields (copyuvm ld (kva d) sz) s (fun r t => Copied ld s t d rest total r) fun _ _ => True := by
  unfold copyuvm
  refine yields_bind (setupkvm_spec parent.stock) fun r t post => ?_
  rcases post with ⟨rfl, _, gaveUp⟩ | ⟨e, rfl, made⟩
  · exact yields_pure (.inl ⟨rfl, 0, by rw [zero_add]; exact gaveUp.stock, gaveUp.keeps⟩)
  · rw [if_neg (kva_ne_zero e)]
    have start : Spread ld s t e 0 0 (own s.mem d + rest) total :=
      ⟨le_rfl, by rw [zero_add]; exact made.dir,
        fun v bound above user => absurd user (made.kernel v bound above), made.keeps⟩
    have loop : Yields (copyLoop ld (kva d) (kva e) sz ((sz + (4096 - 1)) / 4096) (0 * 4096)) t
        (fun r u => Copied ld s u d rest total r) fun _ _ => True := copyLoop_any parent _ t 0 0 (by decide) start
    rwa [Nat.zero_mul] at loop

end Copy

end OsLabs.Xv6
