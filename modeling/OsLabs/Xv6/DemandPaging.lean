import OsLabs.Xv6.EagerHeap
import OsLabs.Xv6.ExecSpace

namespace OsLabs.Xv6
open Command Gather

/-- Access rights are a matter of the flags. -/
theorem userMay_flags {op : Access} {x y : Nat} (same : PTE_FLAGS x = PTE_FLAGS y) : userMay op x ↔ userMay op y := by
  unfold PTE_FLAGS at same
  have first : present x ↔ present y := by
    unfold present
    omega
  have second : writable x ↔ writable y := by
    unfold writable
    omega
  have third : userBit x ↔ userBit y := by
    unfold userBit
    omega
  unfold userMay
  rw [first, third]
  cases op with
  | load => rfl
  | store b => simp only [second]

/-- An entry of the kernel with demand paging against the entry of the other kernel:
a page never touched against a page of zeros, or the same page. -/
inductive PageAlike (s t : Machine) (x y : Nat) : Prop
  | untouched : x = 0 → PTE_FLAGS y = 7 → (∀ w, t.mem (y / 4096) w = 0) → PageAlike s t x y
  | same : present x → PTE_FLAGS x = PTE_FLAGS y → s.mem (x / 4096) = t.mem (y / 4096) → PageAlike s t x y

/-- The simulation relation between a process `p` on the kernel with demand paging
and the process `q` on the kernel without. -/
structure Alike (ldL ldE : Linker) (s t : Machine) (p q : Proc) (d e : Nat) (restL totalL restE totalE : Multiset Nat) : Prop
    where
  onDemand : InOrder ldL s p d restL totalL
  inAdvance : InOrder ldE t q e restE totalE
  sz : p.sz = q.sz
  inside : ∀ v, v * 4096 < p.sz → PageAlike s t (pteAt s.mem d v) (pteAt t.mem e v)
  above : Clear s d p.sz
  clear : Clear t e q.sz

/-- The first step of a run that has returned. -/
theorem userRun_cons {k : Paging} {p q : Proc} {op : UserOp} {ops : List UserOp} {s t : Machine} {seen : List Seen}
    (run : userRun k p (op :: ops) s = .ok (seen, q) t) : ∃ r u, userStep k p op s = .ok r u ∧
      ((r.2.killed = true ∧ seen = [r.1] ∧ q = r.2 ∧ t = u) ∨
        (r.2.killed = false ∧ ∃ later, userRun k r.2 ops u = .ok (later, q) t ∧ seen = r.1 :: later)) := by
  unfold userRun at run
  obtain ⟨r, u, first, rest⟩ := bind_ok run
  refine ⟨r, u, first, ?_⟩
  cases killed : r.2.killed with
  | true =>
    simp only [killed, if_true] at rest
    obtain ⟨same, rfl⟩ := EStateM.Result.ok.inj rest
    obtain ⟨rfl, rfl⟩ := Prod.mk.inj same
    exact .inl ⟨rfl, rfl, rfl, rfl⟩
  | false =>
    simp only [killed, Bool.false_eq_true, if_false] at rest
    obtain ⟨l, v, later, last⟩ := bind_ok rest
    obtain ⟨same, rfl⟩ := EStateM.Result.ok.inj last
    obtain ⟨rfl, rfl⟩ := Prod.mk.inj same
    exact .inr ⟨rfl, l.1, later, rfl⟩

section Simulation
variable {ldL ldE : Linker} {s t : Machine} {p q : Proc} {d e : Nat} {restL totalL restE totalE : Multiset Nat}

/-- The pages behind `p` and `q` are alike where both machines leave the frames alone. -/
theorem PageAlike.keep {s' t' : Machine} {x y x' y' : Nat} (alike : PageAlike s t x y) (left : x' = x)
    (right : y' = y)
    (memLeft : present x → s'.mem (x / 4096) = s.mem (x / 4096))
    (memRight : t'.mem (y / 4096) = t.mem (y / 4096)) : PageAlike s' t' x' y' := by
  rw [left, right]
  cases alike with
  | untouched zero flags page => exact .untouched zero flags fun w => by rw [memRight, page]
  | same here flags page => exact .same here flags (by rw [memLeft here, memRight, page])

/-- The page of the second kernel behind a page below the break is mapped. -/
theorem PageAlike.mapped {x y : Nat} (alike : PageAlike s t x y) : present y := by
  cases alike with
  | untouched _ flags _ =>
    unfold PTE_FLAGS at flags
    unfold present
    omega
  | same here flags _ =>
    unfold PTE_FLAGS at flags
    unfold present at *
    omega

variable (alike : Alike ldL ldE s t p q d e restL totalL restE totalE)
include alike

/-- Where the second kernel allows an access the page is below the break. -/
theorem Alike.below {v : Nat} {op : Access} (bound : v < 2 ^ 20) (may : userMay op (pteAt t.mem e v)) :
    v * 4096 < p.sz := by
  by_contra above
  have user := alike.inAdvance.user bound may
  have zero := alike.clear v user (by rw [← alike.sz]; exact not_lt.mp above)
  rw [zero] at may
  exact absurd may.1 (by decide)

/-- Mapping an untouched page on demand keeps the relation. -/
theorem Alike.paged {u : Machine} {v : Nat} (paged : Paged ldL s u d v p.sz restL totalL) :
    Alike ldL ldE u t p q d e restL totalL restE totalE := by
  have low := alike.onDemand.low
  refine ⟨paged.order alike.onDemand, alike.inAdvance, alike.sz, fun w inside => ?_, fun w user above => ?_,
    alike.clear⟩
  · have user := heap_page inside low
    have bound := lt_of_lt_of_le user userPages_le
    have before := alike.inside w inside
    by_cases here : w = v
    · subst here
      obtain ⟨f, entry, zero⟩ := paged.fresh
      cases before with
      | untouched _ flags page =>
        refine .same (by rw [entry]; exact mapEntry_present f _) ?_ ?_
        · rw [entry, flags, heapEntry_eq]
          exact entry_flags f (by decide)
        · rw [entry, heapEntry_frame]
          exact funext fun k => (zero k).trans (page k).symm
      | same here _ _ =>
        rw [paged.empty] at here
        exact absurd here (by decide)
    · refine before.keep (paged.others w bound here) rfl (fun mapped => ?_) rfl
      exact paged.keeps.mem _ (Multiset.mem_add.mpr (.inl (mem_pages.mpr ⟨w, user, mapped, rfl⟩)))
  · have bound := lt_of_lt_of_le user userPages_le
    have other : w ≠ v := by
      rintro rfl
      exact absurd paged.inside (not_lt.mpr above)
    rw [paged.others w bound other]
    exact alike.above w user above

/-- The same access on both machines keeps the relation. -/
theorem Alike.hit {s' t' : Machine} {op : Access} {a : Nat} {seen seen' : Seen} (small : a < 2 ^ 32)
    (left : Hit s s' d op a seen) (right : Hit t t' e op a seen') :
    seen = seen' ∧ Alike ldL ldE s' t' p q d e restL totalL restE totalE := by
  have touchedLeft := left.touched alike.onDemand small
  have touchedRight := right.touched alike.inAdvance small
  have bound : a / 4096 < 2 ^ 20 := by omega
  have here := alike.inside (a / 4096) (alike.below bound right.may)
  obtain ⟨flags, page⟩ : PTE_FLAGS (pteAt s.mem d (a / 4096)) = PTE_FLAGS (pteAt t.mem e (a / 4096)) ∧
      s.mem (pteAt s.mem d (a / 4096) / 4096) = t.mem (pteAt t.mem e (a / 4096) / 4096) := by
    cases here with
    | untouched zero _ _ =>
      have may := left.may.1
      rw [zero] at may
      exact absurd may (by decide)
    | same _ flags page => exact ⟨flags, page⟩
  have both := accessed_alike page a op
  rw [← left.result, ← right.result] at both
  refine ⟨both.1, touchedLeft.order alike.onDemand, touchedRight.order alike.inAdvance, alike.sz, fun w inside => ?_,
    fun w user above => ?_, fun w user above => ?_⟩
  · have user := heap_page inside alike.onDemand.low
    have small := lt_of_lt_of_le user userPages_le
    by_cases same : w = a / 4096
    · subst same
      rw [touchedLeft.same _ small, touchedRight.same _ small]
      exact .same left.may.1 flags both.2
    · have before := alike.inside w inside
      refine before.keep (touchedLeft.same w small) (touchedRight.same w small)
        (fun mapped => touchedLeft.others _ ?_)
        (touchedRight.others _ ?_)
      · exact fun shared => same (alike.onDemand.dir.page_injective user (alike.onDemand.user bound left.may) mapped
          left.may.1 shared)
      · exact fun shared => same (alike.inAdvance.dir.page_injective user (alike.inAdvance.user bound right.may)
          before.mapped right.may.1 shared)
  · rw [touchedLeft.same w (lt_of_lt_of_le user userPages_le)]
    exact alike.above w user above
  · rw [touchedRight.same w (lt_of_lt_of_le user userPages_le)]
    exact alike.clear w user above

/-- A larger break is untouched memory on demand and zeroed memory in advance. -/
theorem Alike.grown {n : Int} {t' : Machine} (growing : (UserOp.sbrk n).Growing) (more : q.sz ≤ addSigned q.sz n)
    (low : addSigned q.sz n ≤ KERNBASE)
    (allocated : Allocated ldE t t' e ((q.sz + 4095) / 4096) (addSigned q.sz n) restE totalE) :
    Alike ldL ldE s t' { p with sz := addSigned p.sz n } { q with sz := addSigned q.sz n } d e restL totalL
      restE totalE := by
  have done := EagerDone.grown (p := q) n t' more low allocated
  obtain ⟨inAdvance, clear⟩ := done.order growing alike.inAdvance alike.clear alike.inAdvance.alive
  have same := alike.sz
  have onDemand : InOrder ldL s { p with sz := addSigned p.sz n } d restL totalL :=
    alike.onDemand.move (by rwa [same]) alike.onDemand.dir rfl fun _ _ _ => rfl
  refine ⟨onDemand, inAdvance, by rw [same], fun v inside => ?_, fun v user above => alike.above v user ?_, clear⟩
  · change v * 4096 < addSigned p.sz n at inside
    rw [same] at inside
    have user := heap_page inside low
    have bound := lt_of_lt_of_le user userPages_le
    by_cases old : v * 4096 < p.sz
    · have before := alike.inside v old
      have outside : ¬ ((q.sz + 4095) / 4096 ≤ v ∧ v * 4096 < addSigned q.sz n) := fun range =>
        absurd old (not_lt.mpr (same.le.trans ((round_up q.sz).trans (Nat.mul_le_mul_right _ range.1))))
      refine before.keep rfl (allocated.entries v bound outside) (fun _ => rfl) ?_
      exact allocated.keeps.mem _ (Multiset.mem_add.mpr (.inl (mem_pages.mpr ⟨v, user, before.mapped, rfl⟩)))
    · obtain ⟨f, entry, zero⟩ := allocated.fresh v bound (ceil_le (same ▸ not_lt.mp old)) inside
      refine .untouched (alike.above v user (not_lt.mp old)) ?_ fun w => ?_
      · rw [entry, heapEntry_eq]
        exact entry_flags f (by decide)
      · rw [entry, heapEntry_frame, zero]
  · change addSigned p.sz n ≤ v * 4096 at above
    rw [same] at above ⊢
    exact more.trans above

/-- Every step of the second kernel that does not fail is matched by the kernel with demand paging. -/
theorem Alike.step {op : UserOp} {r : Seen × Proc} {t' : Machine} (growing : op.Growing)
    (done : EagerDone ldE t e q restE totalE op r t') (succeeds : r.1 ≠ .returned (-1)) :
    Yields (userStep (lazyPaging ldL) p op) s (fun l s' => Exhausted s' ∨ (l.1 = r.1 ∧ l.2.killed = r.2.killed ∧
      (r.2.killed = false → Alike ldL ldE s' t' l.2 r.2 d e restL totalL restE totalE)))
        fun _ s' => Exhausted s' := by
  cases done with
  | refused n => exact absurd rfl succeeds
  | grown n t' more low allocated =>
    refine yields_step rfl (yields_pure (.inr ⟨?_, ?_, fun _ => alike.grown growing more low allocated⟩))
    · rw [alike.sz]
    · exact alike.onDemand.alive.trans alike.inAdvance.alive.symm
  | hit op a seen t' hit =>
    have bound : a / 4096 < 2 ^ 20 := by
      change a < 2 ^ 32 at growing
      omega
    have below := alike.below bound hit.may
    have alive := alike.onDemand.alive.trans alike.inAdvance.alive.symm
    refine (lazyAccess_spec alike.onDemand growing).imp fun l s' post => ?_
    rcases post with ⟨same, left⟩ | ⟨same, u, paged, left⟩ | ⟨_, mayNot, refused⟩
    · obtain ⟨seen, after⟩ := alike.hit growing left hit
      rw [← same] at alive after
      exact .inr ⟨seen, alive, fun _ => after⟩
    · obtain ⟨seen, after⟩ := (alike.paged paged).hit growing left hit
      rw [← same] at alive after
      exact .inr ⟨seen, alive, fun _ => after⟩
    · rcases refused.reason with ghost | beyond | used
      · exact .inl ghost
      · exact absurd below (not_lt.mpr beyond)
      · cases alike.inside _ below with
        | untouched zero _ _ => exact absurd zero used
        | same _ flags _ => exact absurd ((userMay_flags flags).mpr hit.may) mayNot
  | killed op a mayNot =>
    have bound : a / 4096 < 2 ^ 20 := by
      change a < 2 ^ 32 at growing
      omega
    have refuted : a / 4096 * 4096 < p.sz → (present (pteAt s.mem d (a / 4096)) →
        ¬ userMay op (pteAt s.mem d (a / 4096))) ∧ pteAt s.mem d (a / 4096) ≠ 0 := by
      intro inside
      cases alike.inside _ inside with
      | untouched zero flags _ =>
        refine absurd ((userMay_flags (y := heapEntry 0) ?_).mpr (heapEntry_may 0 op)) mayNot
        exact flags
      | same here flags _ =>
        refine ⟨fun _ may => mayNot ((userMay_flags flags).mp may), fun zero => ?_⟩
        rw [zero] at here
        exact absurd here (by decide)
    have notHit : ¬ userMay op (pteAt s.mem d (a / 4096)) := by
      intro may
      by_cases inside : a / 4096 * 4096 < p.sz
      · exact (refuted inside).1 may.1 may
      · have zero := alike.above _ (alike.onDemand.user bound may) (not_lt.mp inside)
        rw [zero] at may
        exact absurd may.1 (by decide)
    refine (lazyAccess_spec alike.onDemand growing).imp fun l s' post => ?_
    rcases post with ⟨_, left⟩ | ⟨_, u, paged, _⟩ | ⟨rfl, _, _⟩
    · exact absurd left.may notHit
    · exact absurd paged.empty (refuted paged.inside).2
    · exact .inr ⟨rfl, rfl, fun alive => by cases alive⟩

end Simulation

/-- Two exec'd address spaces with the same pages. -/
structure SameImage (s t : Machine) (p q : Proc) (d e : Nat) : Prop where
  sz : p.sz = q.sz
  contents : ∀ v, v * 4096 < p.sz → s.mem (pteAt s.mem d v / 4096) = t.mem (pteAt t.mem e v / 4096)

theorem SameImage.alike {ldL ldE : Linker} {s t : Machine} {p q : Proc} {d e : Nat}
    {restL totalL restE totalE : Multiset Nat} (same : SameImage s t p q d e)
    (onDemand : ExecSpace ldL s p d restL totalL)
    (inAdvance : ExecSpace ldE t q e restE totalE) : Alike ldL ldE s t p q d e restL totalL restE totalE := by
  refine ⟨onDemand.order, inAdvance.order, same.sz, fun v inside => ?_, onDemand.clear, inAdvance.clear⟩
  have left := onDemand.mapped v inside
  have right := inAdvance.mapped v (by rwa [← same.sz])
  rw [← same.sz] at right
  exact .same (onDemand.present inside) (left.trans right.symm) (same.contents v inside)

section Run
variable {ldL ldE : Linker} {d e : Nat} {restL totalL restE totalE : Multiset Nat}

/-- A run of the second kernel in which every `sbrk` succeeds is matched step by step. -/
theorem Alike.run (ops : List UserOp) : ∀ {s t t' : Machine} {p q q' : Proc} {seen : List Seen},
    Alike ldL ldE s t p q d e restL totalL restE totalE → (∀ op ∈ ops, op.Growing) →
    userRun (eagerPaging ldE) q ops t = .ok (seen, q') t' → ¬ Exhausted t' → .returned (-1) ∉ seen →
    Yields (userRun (lazyPaging ldL) p ops) s (fun l s' => Exhausted s' ∨ l.1 = seen) fun _ s' => Exhausted s' := by
  induction ops with
  | nil =>
    intro s t t' p q q' seen alike _ run _ _
    obtain ⟨same, _⟩ := EStateM.Result.ok.inj run
    exact yields_pure (.inr (congrArg Prod.fst same))
  | cons op ops ih =>
    intro s t t' p q q' seen alike growing run memory succeed
    have first := growing op (List.mem_cons_self ..)
    obtain ⟨r, t₁, step, rest⟩ := userRun_cons run
    have still : ¬ Exhausted t₁ := by
      rcases rest with ⟨_, _, _, rfl⟩ | ⟨_, later, onward, _⟩
      · exact memory
      · exact fun ghost => memory ((userRun_exhausted (eagerPaging_sticky ldE) ops r.2 t₁ ghost).of_ok onward)
    have head : r.1 ≠ .returned (-1) := by
      intro failed
      rcases rest with ⟨_, rfl, _⟩ | ⟨_, later, _, rfl⟩ <;> exact succeed (by simp [failed])
    have done := ((eagerStep_spec alike.inAdvance alike.clear first).of_ok step).resolve_left still
    unfold userRun
    refine yields_bind (alike.step first done head) fun l s' post => ?_
    obtain ⟨seen', p'⟩ := l
    rcases post with ghost | ⟨same, killed, after⟩
    · refine yields_ite (fun _ => yields_pure (.inl ghost)) fun _ => ?_
      refine yields_bind (userRun_exhausted (lazyPaging_sticky ldL) ops p' s' ghost) fun _ _ ghost =>
        yields_pure (.inl ghost)
    · obtain rfl : seen' = r.1 := same
      rcases rest with ⟨dead, rfl, _, _⟩ | ⟨alive, later, onward, rfl⟩
      · refine yields_ite (fun _ => yields_pure (.inr rfl)) fun also => ?_
        exact absurd (killed.trans dead) also
      · refine yields_ite (fun dead => ?_) fun _ => ?_
        · rw [show p'.killed = true from dead, alive] at killed
          cases killed
        · refine yields_bind (ih (after alive) (fun op member => growing op (List.mem_cons_of_mem _ member))
            onward memory
            fun member => succeed (List.mem_cons_of_mem _ member)) fun m s'' post => yields_pure ?_
          exact post.imp_right fun rest => by rw [rest]

end Run

/-- On a machine whose memory is not exhausted, demand paging cannot be told from eager
allocation: from the same exec'd address space, with every `sbrk` succeeding in the
eager kernel, both kernels complete the program and show it the same values,
including the access at which it is killed. -/
theorem demandPaging_refines {ldL ldE : Linker} {s t : Machine} {p q : Proc} {d e : Nat}
    {restL totalL restE totalE : Multiset Nat} {ops : List UserOp} (onDemand : ExecSpace ldL s p d restL totalL)
    (inAdvance : ExecSpace ldE t q e restE totalE) (same : SameImage s t p q d e) (growing : ∀ op ∈ ops, op.Growing)
    (memory : ¬ Exhausted (final (userRun (lazyPaging ldL) p ops s)))
    (memory' : ¬ Exhausted (final (userRun (eagerPaging ldE) q ops t)))
    (succeed : ∀ seen q' t', userRun (eagerPaging ldE) q ops t = .ok (seen, q') t' → .returned (-1) ∉ seen) :
    ∃ seen p' s' q' t', userRun (lazyPaging ldL) p ops s = .ok (seen, p') s' ∧
      userRun (eagerPaging ldE) q ops t = .ok (seen, q') t' := by
  have returns := eagerRun_returns ops t q inAdvance.order inAdvance.clear growing
  obtain ⟨⟨seen, q'⟩, t', run, _⟩ := returns.completes memory'
  rw [run] at memory'
  have matched := (Alike.run ops (same.alike onDemand inAdvance) growing run memory' (succeed seen q' t' run))
  obtain ⟨⟨seen', p'⟩, s', run', post⟩ := matched.completes memory
  rw [run'] at memory
  obtain rfl : seen' = seen := post.resolve_left memory
  exact ⟨seen', p', s', q', t', run', run⟩

/-- The program grows its heap, stores into a page it has not touched, reads it back, reads
the page behind it and the bytes behind the break, and ends on its guard page. -/
def tinyProgram : List UserOp :=
  [.sbrk 5000, .access (.store 65) 13000, .access .load 13000, .access .load 17000, .access .load 20000,
    .access .load 5000]

theorem demandPaging_refines_tiny : ∃ seen p' s' q' t',
    userRun (lazyPaging tinyLinker) tinyProc tinyProgram tinyMachine = .ok (seen, p') s' ∧
    userRun (eagerPaging tinyLinker) tinyProc tinyProgram tinyMachine = .ok (seen, q') t' := by
  refine demandPaging_refines tiny_execSpace tiny_execSpace ⟨rfl, fun _ _ => rfl⟩ ?_ ?_ ?_ ?_
  · simp [tinyProgram, UserOp.Growing]
  · unfold Exhausted
    decide +kernel
  · unfold Exhausted
    decide +kernel
  · intro seen q' t' run
    have shown : (match userRun (eagerPaging tinyLinker) tinyProc tinyProgram tinyMachine with
      | .ok r _ => r.1.contains (.returned (-1))
      | .error _ _ => false) = false := by decide +kernel
    rw [run] at shown
    simpa using shown

end OsLabs.Xv6
