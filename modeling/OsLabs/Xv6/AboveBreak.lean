import OsLabs.Xv6.ExecSpace

namespace OsLabs.Xv6
open Command Gather

/-- The break stays in user space; accesses go anywhere. -/
def UserOp.Inside (p : Proc) : UserOp → Prop
  | .sbrk n => 0 ≤ p.sz + n ∧ p.sz + n ≤ KERNBASE
  | .access _ a => a < 2 ^ 32

/-- A shrinking `sbrk` gives up only pages that are not mapped. -/
def UserOp.Clean (s : Machine) (d : Nat) (p : Proc) : UserOp → Prop
  | .sbrk n => ∀ v, PGROUNDUP (addSigned p.sz n) ≤ v * 4096 → v * 4096 < PGROUNDUP p.sz → ¬ present (pteAt s.mem d v)
  | .access _ _ => True

/-- The runs of a process on the kernel with demand paging, up to a step that kills it,
all of whose steps are allowed. -/
inductive UserRuns (ld : Linker) (allowed : Proc → Machine → UserOp → Prop) (p : Proc) (s : Machine) :
    List UserOp → Proc → Machine → Prop
  | start : UserRuns ld allowed p s [] p s
  | step {ops : List UserOp} {q r : Proc} {t u : Machine} {op : UserOp} {seen : Seen} : UserRuns ld allowed p s ops q t →
      allowed q t op → userStep (lazyPaging ld) q op t = .ok (seen, r) u → r.killed = false →
      UserRuns ld allowed p s (ops ++ [op]) r u

/-- A byte that is not mapped or zero. -/
def ZeroAt (s : Machine) (d a : Nat) : Prop :=
  present (pteAt s.mem d (a / 4096)) → readByte s (pteAt s.mem d (a / 4096) / 4096) a = 0

section Bytes

/-- A store leaves the other bytes of its page. -/
theorem readByte_writeByte (s : Machine) (f : Nat) {a a' : Nat} (b : Nat) (page : a / 4096 = a' / 4096)
    (other : a ≠ a') :
    readByte (writeByte s f a' b) f a = readByte s f a := by
  unfold readByte writeByte
  by_cases word : a % 4096 / 4 = a' % 4096 / 4
  · rw [word, write_same, byteOf_setByte (by omega) (by omega), if_neg (by omega)]
  · rw [write_word _ _ _ _ word]

theorem readByte_zero {s : Machine} {f : Nat} (zero : ∀ w, s.mem f w = 0) (a : Nat) : readByte s f a = 0 := by
  unfold readByte byteOf
  rw [zero, Nat.zero_div, Nat.zero_mod]

theorem readByte_congr {s t : Machine} {f : Nat} (same : t.mem f = s.mem f) (a : Nat) :
    readByte t f a = readByte s f a := by
  unfold readByte
  rw [same]

end Bytes

section Steps
variable {ld : Linker} {s t : Machine} {d : Nat} {p q : Proc} {op : UserOp} {seen : Seen} {rest total : Multiset Nat}

/-- A surviving access succeeds at once or after a page fault. -/
theorem access_cases (order : InOrder ld s p d rest total) {op : Access} {a : Nat} (small : a < 2 ^ 32)
    (step : userStep (lazyPaging ld) p (.access op a) s = .ok (seen, q) t) (alive : q.killed = false) :
    q = p ∧ (Hit s t d op a seen ∨ ∃ u, Paged ld s u d (a / 4096) p.sz rest total ∧ Hit u t d op a seen) := by
  rcases (lazyAccess_spec order small).of_ok step with ⟨same, hit⟩ | ⟨same, u, paged, hit⟩ | ⟨killed, _, _⟩
  · exact ⟨same, .inl hit⟩
  · exact ⟨same, .inr ⟨u, paged, hit⟩⟩
  · obtain ⟨_, rfl⟩ := Prod.mk.inj killed
    cases alive

theorem PGROUNDUP_le {sz v : Nat} (low : sz ≤ KERNBASE) : PGROUNDUP sz ≤ v * 4096 ↔ sz ≤ v * 4096 := by
  rw [PGROUNDUP_page low]
  omega

theorem Clear.paged {v : Nat} (clear : Clear s d p.sz) (paged : Paged ld s t d v p.sz rest total) :
    Clear t d p.sz := by
  intro u user above
  have other : u ≠ v := by
    rintro rfl
    exact absurd paged.inside (not_lt.mpr above)
  rw [paged.others u (lt_of_lt_of_le user userPages_le) other]
  exact clear u user above

theorem Clear.touched {v : Nat} (clear : Clear s d p.sz) (touched : Touched ld s t d v rest total) :
    Clear t d p.sz := by
  intro u user above
  rw [touched.same u (lt_of_lt_of_le user userPages_le)]
  exact clear u user above

/-- What every clean step of a surviving process keeps: the process is in order and
nothing is mapped above its break. -/
theorem cleanStep_clear (order : InOrder ld s p d rest total) (clear : Clear s d p.sz) (inside : op.Inside p)
    (clean : op.Clean s d p) (step : userStep (lazyPaging ld) p op s = .ok (seen, q) t) (alive : q.killed = false) :
    InOrder ld t q d rest total ∧ Clear t d q.sz := by
  cases op with
  | sbrk n =>
    obtain ⟨same, rfl⟩ := EStateM.Result.ok.inj step
    obtain ⟨_, rfl⟩ := Prod.mk.inj same
    have sum := addSigned_exact inside.1 (lt_of_le_of_lt inside.2 (by decide))
    have low : addSigned p.sz n ≤ KERNBASE := by
      have upper := inside.2
      omega
    refine ⟨order.move low order.dir rfl fun _ _ _ => rfl, fun v user above => ?_⟩
    by_cases before : p.sz ≤ v * 4096
    · exact clear v user before
    · refine (order.dir.space.pte v (lt_of_lt_of_le user userPages_le)).resolve_right (clean v ?_ ?_)
      · exact (PGROUNDUP_le low).mpr above
      · exact not_le.mp fun high => before ((PGROUNDUP_le order.low).mp high)
  | access op a =>
    obtain ⟨rfl, hit | ⟨u, paged, hit⟩⟩ := access_cases order inside step alive
    · have touched := hit.touched order inside
      exact ⟨touched.order order, clear.touched touched⟩
    · have touched := hit.touched (paged.order order) inside
      exact ⟨touched.order (paged.order order), (clear.paged paged).touched touched⟩

theorem ZeroAt.paged {a v : Nat} (zero : ZeroAt s d a) (small : a < KERNBASE)
    (paged : Paged ld s t d v p.sz rest total) : ZeroAt t d a := by
  have user := user_page small
  intro here
  by_cases same : a / 4096 = v
  · obtain ⟨f, entry, page⟩ := paged.fresh
    rw [same, entry, heapEntry_frame]
    exact readByte_zero page a
  · rw [paged.others _ (lt_of_lt_of_le user userPages_le) same] at here ⊢
    have kept := paged.keeps.mem _ (Multiset.mem_add.mpr (.inl (mem_pages.mpr ⟨_, user, here, rfl⟩)))
    rw [readByte_congr kept, zero here]

theorem ZeroAt.hit {a a' : Nat} {op : Access} (zero : ZeroAt s d a) (order : InOrder ld s p d rest total)
    (small : a < KERNBASE) (small' : a' < 2 ^ 32) (other : ∀ b, UserOp.access op a' ≠ .access (.store b) a)
    (hit : Hit s t d op a' seen) : ZeroAt t d a := by
  have user := user_page small
  have touched := hit.touched order small'
  intro here
  rw [touched.same _ (lt_of_lt_of_le user userPages_le)] at here ⊢
  rw [← zero here]
  by_cases same : a / 4096 = a' / 4096
  · have result := hit.result
    rw [← same] at result
    cases op with
    | load =>
      obtain ⟨_, rfl⟩ := Prod.mk.inj result
      rfl
    | store b =>
      obtain ⟨_, rfl⟩ := Prod.mk.inj result
      refine readByte_writeByte s _ b same ?_
      rintro rfl
      exact other b rfl
  · refine readByte_congr (touched.others _ fun shared => same ?_) a
    exact order.dir.page_injective user (order.user (by omega) hit.may) here hit.may.1 shared

/-- A zero byte stays zero until the program stores to it. -/
theorem cleanStep_zero {a : Nat} (zero : ZeroAt s d a) (order : InOrder ld s p d rest total) (small : a < KERNBASE)
    (inside : op.Inside p) (other : ∀ b, op ≠ .access (.store b) a)
    (step : userStep (lazyPaging ld) p op s = .ok (seen, q) t) (alive : q.killed = false) : ZeroAt t d a := by
  cases op with
  | sbrk n =>
    obtain ⟨_, rfl⟩ := EStateM.Result.ok.inj step
    exact zero
  | access op a' =>
    obtain ⟨rfl, hit | ⟨u, paged, hit⟩⟩ := access_cases order inside step alive
    · exact zero.hit order small inside other hit
    · exact (zero.paged small paged).hit (paged.order order) small inside other hit

/-- Reading a zero byte gives 0. -/
theorem ZeroAt.read {a b : Nat} (zero : ZeroAt s d a) (order : InOrder ld s p d rest total) (small : a < KERNBASE)
    (step : userStep (lazyPaging ld) p (.access .load a) s = .ok (.value b, q) t) : b = 0 := by
  have value : ∀ {u : Machine}, ZeroAt u d a → Hit u t d .load a (.value b) → b = 0 := by
    intro u zero hit
    obtain ⟨same, _⟩ := Prod.mk.inj hit.result
    rw [Seen.value.inj same]
    exact zero hit.may.1
  rcases (lazyAccess_spec order (lt_trans small (by decide))).of_ok step with ⟨_, hit⟩ | ⟨_, u, paged,
      hit⟩ | ⟨killed, _, _⟩
  · exact value zero hit
  · exact value (zero.paged small paged) hit
  · cases (Prod.mk.inj killed).1

/-- An access beyond the last page of the break kills the process. -/
theorem access_beyond (order : InOrder ld s p d rest total) (clear : Clear s d p.sz) (op : Access) {a : Nat}
    (beyond : PGROUNDUP p.sz ≤ a) (small : a < 2 ^ 32) :
    ∃ t, userStep (lazyPaging ld) p (.access op a) s = .ok (.killed, { p with killed := true }) t := by
  have page : p.sz ≤ a / 4096 * 4096 := by
    have low := order.low
    rw [PGROUNDUP_page low] at beyond
    omega
  have mayNot : ¬ userMay op (pteAt s.mem d (a / 4096)) := by
    intro may
    have zero := clear _ (order.user (by omega) may) page
    rw [zero] at may
    exact absurd may.1 (by decide)
  have killed : Yields (userStep (lazyPaging ld) p (.access op a)) s
      (fun r _ => r = (.killed, { p with killed := true })) fun _ _ => False :=
    userAccess_miss _ 1 order small mayNot (trapLazy_beyond order.dir order.directory small page) fun q t same =>
      .inl ⟨by rw [same], by rw [same]⟩
  obtain ⟨r, t, run, rfl⟩ := killed.returns
  exact ⟨t, run⟩

end Steps

section Runs
variable {ld : Linker} {s t : Machine} {d : Nat} {p q : Proc} {rest total : Multiset Nat} {ops : List UserOp}

/-- The runs that keep the break in user space and shrink over unmapped pages only. -/
def CleanRuns (ld : Linker) (d : Nat) : Proc → Machine → List UserOp → Proc → Machine → Prop :=
  UserRuns ld fun p s op => op.Inside p ∧ op.Clean s d p

theorem CleanRuns.clear (run : CleanRuns ld d p s ops q t) (order : InOrder ld s p d rest total)
    (clear : Clear s d p.sz) : InOrder ld t q d rest total ∧ Clear t d q.sz := by
  unfold CleanRuns at run
  induction run with
  | start => exact ⟨order, clear⟩
  | step before allowed step alive ih =>
    obtain ⟨order, clear⟩ := ih
    exact cleanStep_clear order clear allowed.1 allowed.2 step alive

theorem CleanRuns.zero {a : Nat} (run : CleanRuns ld d p s ops q t) (order : InOrder ld s p d rest total)
    (clear : Clear s d p.sz) (zero : ZeroAt s d a) (small : a < KERNBASE)
    (unwritten : ∀ b, .access (.store b) a ∉ ops) : ZeroAt t d a := by
  unfold CleanRuns at run
  induction run with
  | start => exact zero
  | step before allowed step alive ih =>
    obtain ⟨orderBefore, _⟩ := CleanRuns.clear before order clear
    refine cleanStep_zero (ih fun b member => unwritten b (List.mem_append_left _ member)) orderBefore small allowed.1
      (fun b same => unwritten b ?_) step alive
    rw [← same]
    exact List.mem_append_right _ (List.mem_singleton.mpr rfl)

/-- In every clean run from an exec'd address space nothing is mapped above the break, an
access there kills the process, and a byte there reads as zero, however the break
moves, until the program stores to it. -/
theorem cleanRuns_above (start : ExecSpace ld s p d rest total) (run : CleanRuns ld d p s ops q t) :
    (∀ v, v < userPages → PGROUNDUP q.sz ≤ v * 4096 → ¬ present (pteAt t.mem d v)) ∧
    (∀ op a, PGROUNDUP q.sz ≤ a → a < 2 ^ 32 →
      ∃ u, userStep (lazyPaging ld) q (.access op a) t = .ok (.killed, { q with killed := true }) u) ∧
    ∀ a later r u v b w, PGROUNDUP q.sz ≤ a → a < KERNBASE → CleanRuns ld d q t later r u →
      (∀ x, .access (.store x) a ∉ later) →
      userStep (lazyPaging ld) r (.access .load a) u = .ok (.value b, v) w → b = 0 := by
  obtain ⟨order, clear⟩ := CleanRuns.clear run start.order start.clear
  refine ⟨fun v user above here => ?_, fun op a beyond small => access_beyond order clear op beyond small,
    fun a later r u v b w beyond small onward unwritten step => ?_⟩
  · rw [clear v user ((PGROUNDUP_le order.low).mp above)] at here
    exact absurd here (by decide)
  · have unmapped : ZeroAt t d a := by
      intro here
      have user := user_page small
      rw [PGROUNDUP_page order.low] at beyond
      rw [clear _ user (by omega)] at here
      exact absurd here (by decide)
    exact (CleanRuns.zero onward order clear unmapped small unwritten).read
      (CleanRuns.clear onward order clear).1 small step

/-- Growing the heap by a page and giving the untouched page back is clean. -/
theorem cleanRuns_above_tiny :
    (∀ v, v < userPages → PGROUNDUP tinyProc.sz ≤ v * 4096 → ¬ present (pteAt tinyMachine.mem 512 v)) ∧
    (∀ op a, PGROUNDUP tinyProc.sz ≤ a → a < 2 ^ 32 → ∃ u, userStep (lazyPaging tinyLinker) tinyProc (.access op a)
      tinyMachine = .ok (.killed, { tinyProc with killed := true }) u) ∧
    ∀ a later r u v b w, PGROUNDUP tinyProc.sz ≤ a → a < KERNBASE →
      CleanRuns tinyLinker 512 tinyProc tinyMachine later r u → (∀ x, .access (.store x) a ∉ later) →
      userStep (lazyPaging tinyLinker) r (.access .load a) u = .ok (.value b, v) w → b = 0 := by
  have grown : CleanRuns tinyLinker 512 tinyProc tinyMachine ([] ++ [.sbrk 4096]) { tinyProc with sz := 4 * 4096 }
      tinyMachine := by
    have step : userStep (lazyPaging tinyLinker) tinyProc (.sbrk 4096) tinyMachine =
        .ok (.returned (3 * 4096), { tinyProc with sz := 4 * 4096 }) tinyMachine := rfl
    refine .step .start ⟨⟨by decide, by decide⟩, fun v lower upper => ?_⟩ step rfl
    exact absurd (lower.trans_lt upper) (by decide)
  have back : CleanRuns tinyLinker 512 tinyProc tinyMachine ([] ++ [.sbrk 4096] ++ [.sbrk (-4096)]) tinyProc
      tinyMachine := by
    have step : userStep (lazyPaging tinyLinker) { tinyProc with sz := 4 * 4096 } (.sbrk (-4096)) tinyMachine =
        .ok (.returned (4 * 4096), tinyProc) tinyMachine := rfl
    refine .step grown ⟨⟨by decide, by decide⟩, fun v lower upper => ?_⟩ step rfl
    have lowest : PGROUNDUP (addSigned (4 * 4096) (-4096)) = 3 * 4096 := by decide
    have highest : PGROUNDUP (4 * 4096) = 4 * 4096 := by decide
    change PGROUNDUP (addSigned (4 * 4096) (-4096)) ≤ v * 4096 at lower
    change v * 4096 < PGROUNDUP (4 * 4096) at upper
    rw [lowest] at lower
    rw [highest] at upper
    obtain rfl : v = 3 := by omega
    decide
  exact cleanRuns_above tiny_execSpace back

/-- The program grows its heap by a page, stores into it and gives the page back: the page
stays mapped. -/
theorem shrink_keeps_page : ¬ ∀ (ld : Linker) (s t : Machine) (p q : Proc) (d : Nat) (rest total : Multiset Nat)
    (ops : List UserOp), ExecSpace ld s p d rest total → UserRuns ld (fun p _ op => op.Inside p) p s ops q t →
    ∀ v, v < userPages → PGROUNDUP q.sz ≤ v * 4096 → ¬ present (pteAt t.mem d v) := by
  intro promise
  have touched : (match userStep (lazyPaging tinyLinker) { tinyProc with sz := 4 * 4096 } (.access (.store 65) 12288)
      tinyMachine with
    | .ok r u => !r.2.killed && r.2.sz == 4 * 4096 && decide (present (pteAt u.mem 512 3))
    | .error _ _ => false) = true := by decide +kernel
  cases store : userStep (lazyPaging tinyLinker) { tinyProc with sz := 4 * 4096 } (.access (.store 65) 12288)
    tinyMachine with
  | error e u =>
    rw [store] at touched
    cases touched
  | ok r u =>
    rw [store] at touched
    simp only [Bool.and_eq_true, Bool.not_eq_true', beq_iff_eq, decide_eq_true_eq] at touched
    obtain ⟨⟨alive, sz⟩, here⟩ := touched
    have grown : UserRuns tinyLinker (fun p _ op => op.Inside p) tinyProc tinyMachine ([] ++ [.sbrk 4096])
        { tinyProc with sz := 4 * 4096 } tinyMachine := by
      have step : userStep (lazyPaging tinyLinker) tinyProc (.sbrk 4096) tinyMachine =
          .ok (.returned (3 * 4096), { tinyProc with sz := 4 * 4096 }) tinyMachine := rfl
      exact .step .start ⟨by decide, by decide⟩ step rfl
    have written : UserRuns tinyLinker (fun p _ op => op.Inside p) tinyProc tinyMachine
        ([] ++ [.sbrk 4096] ++ [.access (.store 65) 12288]) r.2 u :=
      .step grown (by unfold UserOp.Inside; decide) store alive
    have back : UserRuns tinyLinker (fun p _ op => op.Inside p) tinyProc tinyMachine
        ([] ++ [.sbrk 4096] ++ [.access (.store 65) 12288] ++ [.sbrk (-4096)])
        { r.2 with sz := addSigned r.2.sz (-4096) } u :=
      .step written ⟨by rw [sz]; decide, by rw [sz]; decide⟩ rfl alive
    refine promise _ _ _ _ _ _ _ _ _ tiny_execSpace back 3 (by decide) ?_ here
    change PGROUNDUP (addSigned r.2.sz (-4096)) ≤ 3 * 4096
    rw [sz]
    decide

end Runs

end OsLabs.Xv6
