import OsLabs.Xv6.Fault

namespace OsLabs.Xv6
open Command Gather

section Bytes

/-- Replacing one byte of a word. -/
theorem byteOf_setByte {w k j b : Nat} (left : k < 4) (right : j < 4) :
    byteOf (setByte w k b) j = if j = k then b % 256 else byteOf w j := by
  unfold byteOf setByte
  obtain rfl | rfl | rfl | rfl : k = 0 ∨ k = 1 ∨ k = 2 ∨ k = 3 := by omega
  all_goals obtain rfl | rfl | rfl | rfl : j = 0 ∨ j = 1 ∨ j = 2 ∨ j = 3 := by omega
  all_goals simp only [Nat.reducePow, Nat.reduceAdd, Nat.reduceEqDiff, if_true, if_false]
  all_goals omega

end Bytes

section Pages
variable {ld : Linker} {s : Machine} {d : Nat} {rest total : Multiset Nat}

/-- Different pages lie in different frames. -/
theorem Dir.page_injective (dir : Dir ld s d rest total) {u v : Nat} (left : u < userPages) (right : v < userPages)
    (presentLeft : present (pteAt s.mem d u)) (presentRight : present (pteAt s.mem d v))
    (same : pteAt s.mem d u / 4096 = pteAt s.mem d v / 4096) : u = v := by
  by_contra different
  have nodup := (Multiset.nodup_add.mp dir.stock.nodup_held).1
  have nodupPages := (Multiset.nodup_add.mp (Multiset.nodup_cons.mp nodup).2).2.1
  refine gather_apart nodupPages left right different (x := pteAt s.mem d u / 4096) ?_ ?_
  · simp [frameOf_present presentLeft]
  · rw [same]
    simp [frameOf_present presentRight]

/-- Writing to a user page or beside the address space leaves the address space as it is. -/
theorem Dir.poke {t : Machine} {f : Nat} (dir : Dir ld s d rest total) (member : f ∈ pages s.mem d + rest)
    (head : t.freelist = s.freelist) (others : ∀ g, g ≠ f → t.mem g = s.mem g) :
    Dir ld t d rest total ∧ ∀ v, v < 2 ^ 20 → pteAt t.mem d v = pteAt s.mem d v := by
  have apart := dir.apart member
  have directory : t.mem d = s.mem d := others d apart.1.symm
  have table : ∀ g ∈ tables s.mem d, t.mem g = s.mem g := by
    intro g inTables
    refine others g ?_
    rintro rfl
    exact apart.2 inTables
  refine ⟨⟨?_, dir.space.congr directory table⟩, fun v bound => pteAt_congr bound directory table⟩
  rw [own_congr directory table]
  refine dir.stock.congr head fun g notHeld => others g ?_
  rintro rfl
  refine notHeld ((Multiset.mem_add.mp member).elim (fun page => ?_) fun other => Multiset.mem_add.mpr (.inr other))
  exact Multiset.mem_add.mpr (.inl (mem_own.mpr (.inr (.inr page))))

/-- An entry that is present, writable and the user's allows every access. -/
theorem userMay_all {pte : Nat} (flags : pte % 8 = 7) (op : Access) : userMay op pte := by
  refine ⟨by unfold present; omega, by unfold userBit; omega, ?_⟩
  cases op with
  | load => trivial
  | store b =>
    change writable _
    unfold writable
    omega

/-- The directory entry above a mapped page allows every access. -/
theorem Space.directory_may (space : Space s.mem d) {v : Nat} (bound : v < 2 ^ 20) (op : Access)
    (here : present (pteAt s.mem d v)) : userMay op (s.mem d (v / 1024)) := by
  have table := table_of_page here
  have flags : s.mem d (v / 1024) % 4096 = 7 := by
    refine (space.pde (v / 1024) (by omega)).resolve_left fun zero => ?_
    rw [zero] at table
    exact absurd table (by decide)
  exact userMay_all (by omega) op

/-- The processor allows what the entry of the page allows. -/
theorem userFrame_entry (space : Space s.mem d) (current : s.cr3 = 4096 * d) {a : Nat} (small : a < 2 ^ 32)
    (op : Access) :
    userFrame s op a =
      if userMay op (pteAt s.mem d (a / 4096)) then some (pteAt s.mem d (a / 4096) / 4096) else none := by
  have frame : s.cr3 / 4096 = d := by
    rw [current]
    exact Nat.mul_div_cancel_left d (by decide)
  unfold userFrame
  rw [frame]
  by_cases may : userMay op (pteAt s.mem d (a / 4096))
  · rw [if_pos may, if_pos ⟨space.directory_may (by omega) op may.1, may⟩]
  · rw [if_neg may, if_neg fun both => may both.2]

theorem accessed_other (s : Machine) (f a : Nat) (op : Access) {g : Nat} (other : g ≠ f) :
    (accessed s f a op).2.mem g = s.mem g := by
  cases op with
  | load => rfl
  | store b => exact write_other _ _ _ _ other

theorem accessed_rest (s : Machine) (f a : Nat) (op : Access) : (accessed s f a op).2.freelist = s.freelist ∧
    (accessed s f a op).2.cr3 = s.cr3 ∧ (accessed s f a op).2.exhausted = s.exhausted := by
  cases op <;> exact ⟨rfl, rfl, rfl⟩

/-- An access sees and leaves the same bytes wherever the page lies. -/
theorem accessed_alike {t : Machine} {f g : Nat} (same : s.mem f = t.mem g) (a : Nat) (op : Access) :
    (accessed s f a op).1 = (accessed t g a op).1 ∧ (accessed s f a op).2.mem f = (accessed t g a op).2.mem g := by
  cases op with
  | load =>
    refine ⟨?_, same⟩
    change Seen.value (readByte s f a) = Seen.value (readByte t g a)
    rw [readByte, readByte, same]
  | store b =>
    refine ⟨rfl, funext fun w => ?_⟩
    change (writeByte s f a b).mem f w = (writeByte t g a b).mem g w
    unfold writeByte
    by_cases word : w = a % 4096 / 4
    · rw [word, write_same, write_same, same]
    · rw [write_word _ _ _ _ word, write_word _ _ _ _ word, same]

end Pages

section Accesses
variable {ld : Linker} {s : Machine} {d : Nat} {p : Proc} {rest total : Multiset Nat} {op : Access} {a : Nat}

/-- A process that runs on its own address space, with its break in user space and
the kernel part closed to it. -/
structure InOrder (ld : Linker) (s : Machine) (p : Proc) (d : Nat) (rest total : Multiset Nat) : Prop where
  dir : Dir ld s d rest total
  directory : p.pgdir = kva d
  stack : p.kstack ≠ 0
  current : s.cr3 = 4096 * d
  low : p.sz ≤ KERNBASE
  alive : p.killed = false
  kernel : ∀ v, v < 2 ^ 20 → userPages ≤ v → ¬ userBit (pteAt s.mem d v)

/-- An access allowed by its page has been carried out. -/
structure Hit (s t : Machine) (d : Nat) (op : Access) (a : Nat) (seen : Seen) : Prop where
  may : userMay op (pteAt s.mem d (a / 4096))
  result : (seen, t) = accessed s (pteAt s.mem d (a / 4096) / 4096) a op

theorem userAccess_hit (k : Paging) (tries : Nat) (order : InOrder ld s p d rest total) (small : a < 2 ^ 32)
    (may : userMay op (pteAt s.mem d (a / 4096))) {E : Panic → Machine → Prop} :
    Yields (userAccess k op a (tries + 1) p) s (fun r t => r.2 = p ∧ Hit s t d op a r.1) E := by
  unfold userAccess
  refine yields_step rfl ?_
  rw [userFrame_entry order.dir.space order.current small, if_pos may]
  exact yields_step rfl (yields_pure ⟨rfl, may, rfl⟩)

theorem userAccess_miss (k : Paging) (tries : Nat) (order : InOrder ld s p d rest total) (small : a < 2 ^ 32)
    (mayNot : ¬ userMay op (pteAt s.mem d (a / 4096))) {P : Proc → Machine → Prop} {Q : Seen × Proc → Machine → Prop}
    {E : Panic → Machine → Prop} (fault : Yields (k.trap p a) s P E)
    (next : ∀ q t, P q t → (q.killed = true ∧ Q (.killed, q) t) ∨
      (q.killed = false ∧ Yields (userAccess k op a tries q) t Q E)) :
    Yields (userAccess k op a (tries + 1) p) s Q E := by
  unfold userAccess
  refine yields_step rfl ?_
  rw [userFrame_entry order.dir.space order.current small, if_neg mayNot]
  refine yields_bind fault fun q t post => ?_
  rcases next q t post with ⟨killed, done⟩ | ⟨alive, again⟩
  · rw [if_pos killed]
    exact yields_pure done
  · rw [alive, if_neg Bool.false_ne_true]
    exact again

/-- An allowed access leaves everything but the bytes of its page. -/
structure Touched (ld : Linker) (s t : Machine) (d v : Nat) (rest total : Multiset Nat) : Prop where
  dir : Dir ld t d rest total
  same : ∀ u, u < 2 ^ 20 → pteAt t.mem d u = pteAt s.mem d u
  others : ∀ g, g ≠ pteAt s.mem d v / 4096 → t.mem g = s.mem g
  cr3 : t.cr3 = s.cr3
  exhausted : t.exhausted = s.exhausted

theorem InOrder.user (order : InOrder ld s p d rest total) {v : Nat} (bound : v < 2 ^ 20)
    (may : userMay op (pteAt s.mem d v)) : v < userPages := by
  by_contra high
  exact order.kernel v bound (not_lt.mp high) may.2.1

theorem Hit.touched {t : Machine} {seen : Seen} (hit : Hit s t d op a seen) (order : InOrder ld s p d rest total)
    (small : a < 2 ^ 32) : Touched ld s t d (a / 4096) rest total := by
  obtain ⟨may, result⟩ := hit
  have bound : a / 4096 < 2 ^ 20 := by omega
  have member : pteAt s.mem d (a / 4096) / 4096 ∈ pages s.mem d :=
    mem_pages.mpr ⟨a / 4096, order.user bound may, may.1, rfl⟩
  obtain ⟨head, cr3, ghost⟩ := accessed_rest s (pteAt s.mem d (a / 4096) / 4096) a op
  have others := fun g => accessed_other s (pteAt s.mem d (a / 4096) / 4096) a op (g := g)
  obtain ⟨rfl, rfl⟩ := Prod.mk.inj result
  obtain ⟨dir, same⟩ := order.dir.poke (Multiset.mem_add.mpr (.inl member)) head others
  exact ⟨dir, same, others, cr3, ghost⟩

theorem Touched.order {t : Machine} {v : Nat} (touched : Touched ld s t d v rest total)
    (order : InOrder ld s p d rest total) :
    InOrder ld t p d rest total :=
  ⟨touched.dir, order.directory, order.stack, touched.cr3.trans order.current, order.low, order.alive,
    fun u bound high => by rw [touched.same u bound]; exact order.kernel u bound high⟩

theorem Paged.order {t : Machine} {v : Nat} (paged : Paged ld s t d v p.sz rest total)
    (order : InOrder ld s p d rest total) :
    InOrder ld t p d rest total := by
  refine ⟨paged.dir, order.directory, order.stack, paged.keeps.cr3.trans order.current, order.low, order.alive,
    fun u bound high => ?_⟩
  have other : u ≠ v := by
    rintro rfl
    exact absurd (heap_page paged.inside order.low) (not_lt.mpr high)
  rw [paged.others u bound other]
  exact order.kernel u bound high

/-- A page mapped by the fault handler allows every access. -/
theorem heapEntry_may (f : Nat) (op : Access) : userMay op (heapEntry f) := by
  rw [heapEntry_eq]
  exact userMay_all (by omega) op

theorem heapEntry_frame (f : Nat) : heapEntry f / 4096 = f := mapEntry_frame f (by decide)

/-- An access on the kernel with demand paging: it succeeds at once, or after the
page has been mapped, or the process is killed. -/
theorem lazyAccess_spec (order : InOrder ld s p d rest total) (small : a < 2 ^ 32) :
    Yields (userAccess (lazyPaging ld) op a 2 p) s (fun r t =>
      (r.2 = p ∧ Hit s t d op a r.1) ∨
      (r.2 = p ∧ ∃ u, Paged ld s u d (a / 4096) p.sz rest total ∧ Hit u t d op a r.1) ∨
      (r = (.killed, { p with killed := true }) ∧ ¬ userMay op (pteAt s.mem d (a / 4096)) ∧
        Refused ld s t d (a / 4096) p.sz rest total)) fun _ t => t.exhausted = true := by
  by_cases may : userMay op (pteAt s.mem d (a / 4096))
  · exact (userAccess_hit _ 1 order small may).imp fun r t hit => .inl hit
  · refine userAccess_miss _ 1 order small may
      (trapLazy_spec order.dir order.stack order.directory order.current order.low small) fun q t post => ?_
    rcases post with ⟨rfl, refused⟩ | ⟨rfl, paged⟩
    · exact .inl ⟨rfl, .inr (.inr ⟨rfl, may, refused⟩)⟩
    · refine .inr ⟨order.alive, ?_⟩
      obtain ⟨f, entry, _⟩ := paged.fresh
      exact (userAccess_hit _ 0 (paged.order order) small (by rw [entry]; exact heapEntry_may f op)).imp
        fun r u hit => .inr (.inl ⟨hit.1, t, paged, hit.2⟩)

/-- An access on the kernel without demand paging. -/
theorem eagerAccess_spec (order : InOrder ld s p d rest total) (small : a < 2 ^ 32) {E : Panic → Machine → Prop} :
    Yields (userAccess (eagerPaging ld) op a 2 p) s (fun r t => (r.2 = p ∧ Hit s t d op a r.1) ∨
      (r = (.killed, { p with killed := true }) ∧ ¬ userMay op (pteAt s.mem d (a / 4096)) ∧ t = s)) E := by
  by_cases may : userMay op (pteAt s.mem d (a / 4096))
  · exact (userAccess_hit _ 1 order small may).imp fun r t hit => .inl hit
  · refine userAccess_miss _ 1 order small may (P := fun q t => q = { p with killed := true } ∧ t = s)
      (yields_pure ⟨rfl, rfl⟩) fun q t post => ?_
    obtain ⟨rfl, rfl⟩ := post
    exact .inl ⟨rfl, .inr ⟨rfl, may, rfl⟩⟩

end Accesses

end OsLabs.Xv6
