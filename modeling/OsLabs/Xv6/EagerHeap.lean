import OsLabs.Xv6.Exhausted
import OsLabs.Xv6.UserSpace

namespace OsLabs.Xv6
open Command Gather

/-- No user page at or above the break has an entry. -/
def Clear (s : Machine) (d sz : Nat) : Prop := ∀ v, v < userPages → sz ≤ v * 4096 → pteAt s.mem d v = 0

/-- An `sbrk` that does not shrink, or an access anywhere. -/
def UserOp.Growing : UserOp → Prop
  | .sbrk n => 0 ≤ n ∧ n < 2 ^ 31
  | .access _ a => a < 2 ^ 32

/-- Without a wrap-around the break moves by `n`. -/
theorem addSigned_exact {sz : Nat} {n : Int} (lower : 0 ≤ sz + n) (upper : sz + n < 2 ^ 32) :
    (addSigned sz n : Int) = sz + n := by
  unfold addSigned
  rw [Int.emod_eq_of_lt lower upper, Int.toNat_of_nonneg lower]

section Eager
variable {ld : Linker} {s : Machine} {d : Nat} {p : Proc} {rest total : Multiset Nat}

/-- The outcomes of a step of a program on the kernel without demand paging. -/
inductive EagerDone (ld : Linker) (s : Machine) (d : Nat) (p : Proc) (rest total : Multiset Nat) :
    UserOp → Seen × Proc → Machine → Prop
  | refused (n : Int) : EagerDone ld s d p rest total (.sbrk n) (.returned (-1), p) s
  | grown (n : Int) (t : Machine) : p.sz ≤ addSigned p.sz n → addSigned p.sz n ≤ KERNBASE →
      Allocated ld s t d ((p.sz + 4095) / 4096) (addSigned p.sz n) rest total →
      EagerDone ld s d p rest total (.sbrk n) (.returned (asInt p.sz), { p with sz := addSigned p.sz n }) t
  | hit (op : Access) (a : Nat) (seen : Seen) (t : Machine) : Hit s t d op a seen →
      EagerDone ld s d p rest total (.access op a) (seen, p) t
  | killed (op : Access) (a : Nat) : ¬ userMay op (pteAt s.mem d (a / 4096)) →
      EagerDone ld s d p rest total (.access op a) (.killed, { p with killed := true }) s

theorem Clear.above (clear : Clear s d p.sz) {newsz : Nat} (low : newsz ≤ KERNBASE) :
    ∀ u, (p.sz + 4095) / 4096 ≤ u → u * 4096 < newsz → pteAt s.mem d u = 0 := fun u lower upper =>
  clear u (heap_page upper low) ((round_up p.sz).trans (Nat.mul_le_mul_right _ lower))

/-- The break is moved into the running process. -/
theorem InOrder.move (order : InOrder ld s p d rest total) {t : Machine} {sz : Nat} (low : sz ≤ KERNBASE)
    (dir : Dir ld t d rest total) (cr3 : t.cr3 = s.cr3)
    (same : ∀ v, v < 2 ^ 20 → userPages ≤ v → pteAt t.mem d v = pteAt s.mem d v) :
    InOrder ld t { p with sz := sz } d rest total :=
  ⟨dir, order.directory, order.stack, cr3.trans order.current, low, order.alive,
    fun v bound high => by rw [same v bound high]; exact order.kernel v bound high⟩

theorem growprocEager_spec {n : Int} (order : InOrder ld s p d rest total) (clear : Clear s d p.sz) (positive : 0 < n)
    (int : n < 2 ^ 31) : Yields (growprocEager ld p n) s (fun r t => Exhausted t ∨ (r = (-1, p) ∧ t = s) ∨
      (r = (0, { p with sz := addSigned p.sz n }) ∧ p.sz ≤ addSigned p.sz n ∧ addSigned p.sz n ≤ KERNBASE ∧
        Allocated ld s t d ((p.sz + 4095) / 4096) (addSigned p.sz n) rest total)) fun _ t => Exhausted t := by
  have low := order.low
  have sum : (addSigned p.sz n : Int) = p.sz + n := addSigned_exact (by omega) (by simp only [KERNBASE] at low; omega)
  have more : p.sz ≤ addSigned p.sz n := by omega
  unfold growprocEager
  rw [if_pos positive, order.directory]
  by_cases below : KERNBASE ≤ addSigned p.sz n
  · unfold allocuvm
    rw [if_pos below]
    refine yields_step rfl ?_
    rw [if_pos rfl]
    exact yields_pure (.inr (.inl ⟨rfl, rfl⟩))
  · have inside : addSigned p.sz n < KERNBASE := not_le.mp below
    refine yields_bind (allocuvm_spec order.dir inside more (clear.above (le_of_lt inside))) fun r t post => ?_
    rcases post with ⟨rfl, done⟩ | ⟨rfl, failed⟩
    · rw [if_neg (by omega)]
      refine yields_step (switchuvm_same order.stack rfl (done.keeps.cr3.trans order.current)) ?_
      exact yields_pure (.inr (.inr ⟨rfl, more, le_of_lt inside, done⟩))
    · rw [if_pos rfl]
      exact yields_pure (.inl failed.exhausted)

theorem asInt_ne {sz : Nat} (low : sz ≤ KERNBASE) : asInt sz ≠ -1 := by
  simp only [asInt, KERNBASE] at *
  omega

/-- One step of a program on the kernel without demand paging. -/
theorem eagerStep_spec {op : UserOp} (order : InOrder ld s p d rest total) (clear : Clear s d p.sz)
    (growing : op.Growing) :
    Yields (userStep (eagerPaging ld) p op) s (fun r t => Exhausted t ∨ EagerDone ld s d p rest total op r t)
      fun _ t => Exhausted t := by
  cases op with
  | sbrk n =>
    obtain ⟨least, int⟩ := growing
    unfold userStep sysSbrk
    refine yields_bind (P := fun r t => Exhausted t ∨ EagerDone ld s d p rest total (.sbrk n) (.returned r.1, r.2) t)
      ?_ fun r t post => yields_pure post
    by_cases positive : 0 < n
    · refine yields_bind (growprocEager_spec order clear positive int) fun r t post => ?_
      rcases post with ghost | ⟨rfl, rfl⟩ | ⟨rfl, more, low, done⟩
      · exact yields_ite (fun _ => yields_pure (.inl ghost)) fun _ => yields_pure (.inl ghost)
      · exact yields_pure (.inr (.refused n))
      · exact yields_pure (.inr (.grown n t more low done))
    · obtain rfl : n = 0 := by omega
      have still : addSigned p.sz 0 = p.sz := by
        have low := order.low
        have sum : (addSigned p.sz 0 : Int) = p.sz + 0 :=
          addSigned_exact (by omega) (by simp only [KERNBASE] at low; omega)
        omega
      refine yields_bind (P := fun r t => r = (0, p) ∧ t = s) ?_ fun r t post => ?_
      · change Yields (growprocEager ld p 0) s _ _
        unfold growprocEager
        rw [if_neg (by decide), if_neg (by decide)]
        exact yields_step (switchuvm_same order.stack order.directory order.current) (yields_pure ⟨rfl, rfl⟩)
      · obtain ⟨rfl, rfl⟩ := post
        refine yields_pure (.inr ?_)
        have grown : p.sz ≤ addSigned p.sz 0 → addSigned p.sz 0 ≤ KERNBASE →
            Allocated ld t t d ((p.sz + 4095) / 4096) (addSigned p.sz 0) rest total →
            EagerDone ld t d p rest total (.sbrk 0)
              (.returned (asInt p.sz), { p with sz := addSigned p.sz 0 }) t := .grown 0 t
        rw [still] at grown
        exact grown le_rfl order.low (Allocated.none order.dir (round_up p.sz))
  | access op a =>
    refine (eagerAccess_spec order growing).imp fun r t post => .inr ?_
    rcases post with ⟨same, hit⟩ | ⟨rfl, mayNot, rfl⟩
    · obtain ⟨seen, q⟩ := r
      obtain rfl : q = p := same
      exact .hit op a seen t hit
    · exact .killed op a mayNot

/-- A process that survives its step is in order again. -/
theorem EagerDone.order {op : UserOp} {r : Seen × Proc} {t : Machine} (done : EagerDone ld s d p rest total op r t)
    (growing : op.Growing) (order : InOrder ld s p d rest total) (clear : Clear s d p.sz)
    (alive : r.2.killed = false) :
    InOrder ld t r.2 d rest total ∧ Clear t d r.2.sz := by
  cases done with
  | refused n => exact ⟨order, clear⟩
  | grown n t more low allocated =>
    refine ⟨order.move low allocated.dir allocated.keeps.cr3 fun v bound high => ?_, fun v user above => ?_⟩
    · refine allocated.entries v bound fun range => ?_
      exact absurd (heap_page range.2 low) (not_lt.mpr high)
    · rw [allocated.entries v (lt_of_lt_of_le user userPages_le) fun range => absurd range.2 (not_lt.mpr above)]
      exact clear v user (more.trans above)
  | hit op a seen t hit =>
    have touched := hit.touched order growing
    refine ⟨touched.order order, fun v user above => ?_⟩
    rw [touched.same v (lt_of_lt_of_le user userPages_le)]
    exact clear v user above
  | killed op a mayNot => cases alive

/-- While there is memory the kernel without demand paging never panics. -/
theorem eagerRun_returns (ops : List UserOp) : ∀ (s : Machine) (p : Proc), InOrder ld s p d rest total →
    Clear s d p.sz → (∀ op ∈ ops, op.Growing) →
    Yields (userRun (eagerPaging ld) p ops) s (fun _ _ => True) fun _ t => Exhausted t := by
  induction ops with
  | nil => exact fun s p _ _ _ => yields_pure trivial
  | cons op ops ih =>
    intro s p order clear growing
    have first := growing op (List.mem_cons_self ..)
    unfold userRun
    refine yields_bind (eagerStep_spec order clear first) fun r t post => ?_
    refine yields_ite (fun _ => yields_pure trivial) fun alive => ?_
    refine yields_bind (P := fun _ _ => True) ?_ fun _ _ _ => yields_pure trivial
    rcases post with ghost | done
    · exact (userRun_exhausted (eagerPaging_sticky ld) ops r.2 t ghost).imp fun _ _ _ => trivial
    · obtain ⟨orderAfter, clearAfter⟩ := done.order first order clear (Bool.eq_false_iff.mpr alive)
      exact ih t r.2 orderAfter clearAfter fun op member => growing op (List.mem_cons_of_mem _ member)

end Eager

end OsLabs.Xv6
