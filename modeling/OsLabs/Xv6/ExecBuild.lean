import OsLabs.Xv6.EstateOps
import OsLabs.Xv6.Exec

namespace OsLabs.Xv6
open Command Gather Ownership

/-- The address space that `exec` builds, with the break it has so far. -/
structure Building (ld : Linker) (s t : Machine) (e sz : Nat) (rest total : Multiset Nat) : Prop where
  dir : Dir ld t e rest total
  mapped : ∀ v, v * 4096 < sz → present (pteAt t.mem e v)
  clear : ∀ v, v < userPages → sz ≤ v * 4096 → pteAt t.mem e v = 0
  kernel : ∀ v, v < 2 ^ 20 → userPages ≤ v → ¬ userBit (pteAt t.mem e v)
  low : sz ≤ KERNBASE
  keeps : Keeps rest s t

section Building
variable {ld : Linker} {s t u : Machine} {e sz f : Nat} {rest total : Multiset Nat} {E : Panic → Machine → Prop}

theorem KernelOnly.building (made : KernelOnly ld s t e rest total) : Building ld s t e 0 rest total :=
  ⟨made.dir, fun _ below => absurd below (Nat.not_lt_zero _), fun v user _ => made.user v user, made.kernel,
    Nat.zero_le _,
    made.keeps⟩

/-- The break may be rounded up. -/
theorem Building.round (building : Building ld s t e sz rest total) :
    Building ld s t e (PGROUNDUP sz) rest total := by
  have low := building.low
  have round : PGROUNDUP sz = (sz + 4095) / 4096 * 4096 := PGROUNDUP_page low
  simp only [KERNBASE] at low
  refine ⟨building.dir, fun v below => building.mapped v ?_, fun v user above => building.clear v user ?_,
    building.kernel, ?_,
    building.keeps⟩
  · omega
  · omega
  · simp only [KERNBASE]
    omega

/-- `allocuvm` maps the pages up to the new break, or gives up. -/
theorem Building.alloc (building : Building ld s t e sz rest total) (newsz : Nat) :
    Yields (allocuvm ld (kva e) sz newsz) t (fun r u => (r = 0 ∧ Dir ld u e rest total ∧ Keeps rest s u) ∨
      newsz ≤ r ∧ Building ld s u e r rest total) E := by
  by_cases high : KERNBASE ≤ newsz
  · unfold allocuvm
    rw [if_pos high]
    exact yields_pure (.inl ⟨rfl, building.dir, building.keeps⟩)
  by_cases less : newsz < sz
  · unfold allocuvm
    rw [if_neg high, if_pos less]
    exact yields_pure (.inr ⟨less.le, building⟩)
  have low := not_le.mp high
  have more := not_lt.mp less
  refine (allocuvm_spec building.dir low more fun v above below => ?_).imp fun r u post => ?_
  · exact building.clear v (heap_page below low.le) (by omega)
  · rcases post with ⟨rfl, allocated⟩ | ⟨rfl, failed⟩
    · refine .inr ⟨le_rfl, allocated.dir, fun v below => ?_, fun v user above => ?_, fun v bound above => ?_, low.le,
        building.keeps.trans (allocated.keeps.subset fun g member => Multiset.mem_add.mpr (.inr member))⟩
      · have bound := lt_of_lt_of_le (heap_page below low.le) userPages_le
        by_cases fresh : (sz + 4095) / 4096 ≤ v
        · obtain ⟨g, entry, _⟩ := allocated.fresh v bound fresh below
          rw [entry]
          exact mapEntry_present g _
        · rw [allocated.entries v bound fun both => fresh both.1]
          exact building.mapped v (by omega)
      · rw [allocated.entries v (lt_of_lt_of_le user userPages_le) fun both => absurd both.2 (not_lt.mpr above)]
        exact building.clear v user (more.trans above)
      · have outside : ¬ ((sz + 4095) / 4096 ≤ v ∧ v * 4096 < r) := by
          rintro ⟨_, below⟩
          exact absurd (heap_page below low.le) (not_lt.mpr above)
        rw [allocated.entries v bound outside]
        exact building.kernel v bound above
    · exact .inl ⟨rfl, failed.dir, building.keeps.trans failed.keeps⟩

/-- A page below the break is in a frame of the address space. -/
theorem Building.page (building : Building ld s t e sz rest total) {v : Nat} (below : v * 4096 < sz) :
    pteAt t.mem e v / 4096 ∈ pages t.mem e :=
  mem_pages.mpr ⟨v, heap_page below building.low, building.mapped v below, rfl⟩

/-- Walks below the break end at the entry of the page. -/
theorem Building.walk (building : Building ld s t e sz rest total) {a : Nat} (below : a < sz) :
    ∃ pte, walkpgdir (kva e) a false t = .ok pte t ∧ load pte t = .ok (pteAt t.mem e (a / 4096)) t ∧ pte ≠ 0 := by
  have low := building.low
  have small : a < 2 ^ 32 := by
    simp only [KERNBASE] at low
    omega
  have page : a / 4096 * 4096 < sz := lt_of_le_of_lt (Nat.div_mul_le_self a 4096) below
  obtain ⟨pte, walk, entry, notNull, _⟩ :=
    walkpgdir_covered building.dir small (table_of_page (building.mapped _ page))
  exact ⟨pte, walk, entry, notNull⟩

/-- The kernel address of a page below the break. -/
theorem Building.address (building : Building ld s t e sz rest total) {v : Nat} (below : v * 4096 < sz) :
    P2V (PTE_ADDR (pteAt t.mem e v)) t = .ok (kva (pteAt t.mem e v / 4096)) t := by
  have valid := (building.dir.valid (mem_own.mpr (.inr (.inr (building.page below))))).range.2
  exact P2V_frame t (by omega)

/-- Storing to a page of the address space. -/
theorem Building.fill (building : Building ld s t e sz rest total) (member : f ∈ pages t.mem e)
    (only : OnlyFrame f t u) :
    Building ld s u e sz rest total := by
  obtain ⟨dir, same⟩ := building.dir.poke (Multiset.mem_add.mpr (.inl member)) only.freelist only.mem
  have apart := (Multiset.nodup_add.mp building.dir.stock.nodup_held).2.2
  refine ⟨dir, fun v below => ?_, fun v user above => ?_, fun v bound above => ?_, building.low,
    building.keeps.trans ⟨fun g inside => only.mem g ?_, only.cr3, fun was => only.exhausted.trans was⟩⟩
  · rw [same v (lt_of_lt_of_le (heap_page below building.low) userPages_le)]
    exact building.mapped v below
  · rw [same v (lt_of_lt_of_le user userPages_le)]
    exact building.clear v user above
  · rw [same v bound]
    exact building.kernel v bound above
  · rintro rfl
    exact Multiset.disjoint_left.mp apart (mem_own.mpr (.inr (.inr member))) inside

theorem storeBytes_page (f : Nat) (bytes : List UInt8) : ∀ (s : Machine) (k : Nat), k + bytes.length ≤ 4096 →
    Yields (storeBytes (kva f + k) bytes) s (fun _ t => OnlyFrame f s t) E := by
  induction bytes with
  | nil => exact fun s k _ => yields_pure (OnlyFrame.refl f s)
  | cons b bytes ih =>
    intro s k room
    rw [List.length_cons] at room
    have frame : frameAt s (kva f + k) = some f := by
      have index : (kva f + k - KERNBASE) / 4096 = f := by
        simp only [kva, KERNBASE]
        omega
      rw [frameAt, if_pos (by simp only [kva, KERNBASE]; omega), index]
    have stored : storeByte (kva f + k) b s = .ok () (writeByte s f (kva f + k) b.toNat) := by
      unfold storeByte
      rw [frame]
    refine yields_step stored ?_
    rw [Nat.add_assoc]
    exact (ih _ (k + 1) (by omega)).imp fun _ t rest => (onlyFrame_write s f _ _).trans rest

/-- `loaduvm` below the break. -/
theorem loadLoop_spec (ip : File) {addr offset size : Nat} (inside : addr + size ≤ sz) (fuel : Nat) :
    ∀ (t : Machine) (i : Nat), Building ld s t e sz rest total →
      Yields (loadLoop ip (kva e) addr offset size fuel i) t
      (fun _ u => Building ld s u e sz rest total) fun _ _ => True := by
  induction fuel with
  | zero => exact fun t i building => yields_ite (fun _ => yields_throw trivial) fun _ => yields_pure building
  | succ fuel ih =>
    intro t i building
    refine yields_ite (fun more => ?_) fun _ => yields_pure building
    have low := building.low
    have below : (addr + i) % 2 ^ 32 < sz := by
      simp only [KERNBASE] at low
      omega
    have page : (addr + i) % 2 ^ 32 / 4096 * 4096 < sz := lt_of_le_of_lt (Nat.div_mul_le_self _ 4096) below
    obtain ⟨pte, walk, entry, notNull⟩ := building.walk below
    refine yields_step walk ?_
    rw [if_neg notNull]
    refine yields_step entry (yields_step (building.address page) ?_)
    have room := ip.bounded ((offset + i) % 2 ^ 32) (if size - i < 4096 then size - i else 4096)
    have few : (if size - i < 4096 then size - i else 4096) ≤ 4096 := by
      split
      · omega
      · exact le_rfl
    refine yields_bind (storeBytes_page _ _ t 0 (by omega)) fun _ u only => ?_
    have filled := building.fill (building.page page) only
    exact yields_ite (fun _ => yields_pure filled) fun _ => ih u _ filled

theorem Building.load (building : Building ld s t e sz rest total) (ip : File) {addr size : Nat} (offset : Nat)
    (inside : addr + size ≤ sz) : Yields (loaduvm (kva e) addr ip offset size) t
      (fun _ u => Building ld s u e sz rest total) fun _ _ => True :=
  yields_ite (fun _ => yields_throw trivial) fun _ => loadLoop_spec ip inside _ t 0 building

/-- `uva2ka` below the break finds the page, or refuses. -/
theorem Building.uva2ka (building : Building ld s t e sz rest total) {a : Nat} (below : a < sz) :
    Yields (uva2ka (kva e) a) t (fun r u => u = t ∧ (r = 0 ∨ r = kva (pteAt t.mem e (a / 4096) / 4096))) E := by
  have page : a / 4096 * 4096 < sz := lt_of_le_of_lt (Nat.div_mul_le_self a 4096) below
  obtain ⟨pte, walk, entry, _⟩ := building.walk below
  unfold Xv6.uva2ka
  refine yields_step walk (yields_step entry ?_)
  refine yields_ite (fun _ => yields_pure ⟨rfl, .inl rfl⟩) fun _ => ?_
  refine yields_ite (fun _ => yields_pure ⟨rfl, .inl rfl⟩) fun _ => ?_
  exact yields_ok (building.address page) ⟨rfl, .inr rfl⟩

/-- `copyout` below the break. -/
theorem copyoutLoop_spec (fuel : Nat) : ∀ (t : Machine) (va : Nat) (buf : List UInt8),
    Building ld s t e sz rest total → (0 < buf.length → va + buf.length ≤ sz) →
      Yields (copyoutLoop (kva e) fuel va buf) t (fun _ u => Building ld s u e sz rest total) fun _ _ => True := by
  induction fuel with
  | zero => exact fun t va buf building _ => yields_ite (fun _ => yields_throw trivial) fun _ => yields_pure building
  | succ fuel ih =>
    intro t va buf building inside
    refine yields_ite (fun some => ?_) fun _ => yields_pure building
    have room := inside some
    have low := building.low
    simp only [KERNBASE] at low
    have below : PGROUNDDOWN va < sz := by
      unfold PGROUNDDOWN
      omega
    have page : PGROUNDDOWN va / 4096 * 4096 < sz := lt_of_le_of_lt (Nat.div_mul_le_self _ 4096) below
    refine yields_bind (building.uva2ka below) fun r u post => ?_
    obtain ⟨rfl, refused | found⟩ := post
    · rw [if_pos refused]
      exact yields_pure building
    · rw [if_neg (by rw [found]; exact kva_ne_zero _), found]
      refine yields_bind (storeBytes_page _ _ u _ ?_) fun _ w only => ?_
      · rw [List.length_take]
        unfold PGROUNDDOWN
        omega
      · refine ih w _ _ (building.fill (building.page page) only) fun more => ?_
        rw [List.length_drop] at more ⊢
        unfold PGROUNDDOWN at more ⊢
        omega

theorem Building.copyout (building : Building ld s t e sz rest total) {va : Nat} {buf : List UInt8}
    (inside : va + buf.length ≤ sz) : Yields (copyout (kva e) va buf) t
      (fun _ u => Building ld s u e sz rest total) fun _ _ => True :=
  copyoutLoop_spec _ t va buf building fun _ => inside

/-- Other flags in the entry of a page. -/
theorem Dir.setFlags (dir : Dir ld t e rest total) {v x : Nat} (bound : v < 2 ^ 20) (here : present (pteAt t.mem e v))
    (still : present x) (frame : x / 4096 = pteAt t.mem e v / 4096) :
    Dir ld (t.setPte e v x) e rest total ∧ Keeps rest t (t.setPte e v x) := by
  have table := table_of_page here
  have exchange := setPte_own (x := x) dir bound table
  have charged : charge v x = charge v (pteAt t.mem e v) := by
    unfold charge
    rw [frameOf_present still, frameOf_present here, frame]
  rw [charged] at exchange
  refine ⟨⟨?_, setPte_space dir bound table (.inr still)⟩, fun g member => setPte_other ?_, rfl, id⟩
  · rw [add_right_cancel exchange]
    refine dir.stock.congr rfl fun g notHeld => setPte_other ?_
    rintro rfl
    exact notHeld (Multiset.mem_add.mpr (.inl (mem_own.mpr (.inr (.inl (table_mem bound table))))))
  · rintro rfl
    exact (dir.apart (Multiset.mem_add.mpr (.inr member))).2 (table_mem bound table)

/-- `clearpteu` below the break. -/
theorem Building.clearpteu (building : Building ld s t e sz rest total) {a : Nat} (below : a < sz) :
    Yields (clearpteu (kva e) a) t (fun _ u => Building ld s u e sz rest total) E := by
  have page : a / 4096 * 4096 < sz := lt_of_le_of_lt (Nat.div_mul_le_self a 4096) below
  have user := heap_page page building.low
  have bound := lt_of_lt_of_le user userPages_le
  have here := building.mapped _ page
  have table := table_of_page here
  have index : a / 4096 % 1024 < 1024 := by omega
  have entry : t.mem (t.mem e (a / 4096 / 1024) / 4096) (a / 4096 % 1024) = pteAt t.mem e (a / 4096) := by
    rw [pteAt, if_pos table]
  unfold Xv6.clearpteu
  refine yields_step (walkpgdir_found building.dir (by omega) false table) ?_
  rw [if_neg (by have := kva_ne_zero (t.mem e (a / 4096 / 1024) / 4096); omega)]
  refine yields_step (load_kva t _ index) ?_
  rw [entry]
  refine yields_ok (store_kva t _ _ index) ?_
  generalize flags : (if userBit (pteAt t.mem e (a / 4096)) then pteAt t.mem e (a / 4096) - PTE_U
    else pteAt t.mem e (a / 4096)) = x
  have still : present x ∧ x / 4096 = pteAt t.mem e (a / 4096) / 4096 := by
    by_cases shared : userBit (pteAt t.mem e (a / 4096))
    · rw [if_pos shared] at flags
      unfold present userBit PTE_U at *
      omega
    · rw [if_neg shared] at flags
      rw [← flags]
      exact ⟨here, rfl⟩
  change Building ld s (t.setPte e (a / 4096) x) e sz rest total
  obtain ⟨dir, keeps⟩ := building.dir.setFlags bound here still.1 still.2
  have entries : ∀ v, v < 2 ^ 20 →
      pteAt (t.setPte e (a / 4096) x).mem e v = if v = a / 4096 then x else pteAt t.mem e v :=
    fun v small => setPte_pteAt building.dir bound table small
  refine ⟨dir, fun v inside => ?_, fun v low above => ?_, fun v small above => ?_, building.low,
    building.keeps.trans keeps⟩
  · rw [entries v (lt_of_lt_of_le (heap_page inside building.low) userPages_le)]
    split
    · exact still.1
    · exact building.mapped v inside
  · rw [entries v (lt_of_lt_of_le low userPages_le), if_neg (by omega)]
    exact building.clear v low above
  · rw [entries v small, if_neg (by omega)]
    exact building.kernel v small above

/-- What `exec` has built, or gives up. -/
def Outcome (ld : Linker) (s : Machine) (e : Nat) (rest total : Multiset Nat) : Option Nat → Machine → Prop
  | none, u => Dir ld u e rest total ∧ Keeps rest s u
  | some sz, u => Building ld s u e sz rest total

theorem Building.bad (building : Building ld s t e sz rest total) : Outcome ld s e rest total none t :=
  ⟨building.dir, building.keeps⟩

theorem uintAt_lt (bytes : List UInt8) (k : Nat) : uintAt bytes k < 2 ^ 32 := by
  have byte : ∀ b : UInt8, b.toNat < 256 := UInt8.toNat_lt
  have first := byte (bytes.getD k 0)
  have second := byte (bytes.getD (k + 1) 0)
  have third := byte (bytes.getD (k + 2) 0)
  have last := byte (bytes.getD (k + 2 + 1) 0)
  unfold uintAt ushortAt
  omega

/-- The segments of the program lie below the break. -/
theorem loadProgram_spec (ip : File) (left : Nat) : ∀ (t : Machine) (off sz : Nat), Building ld s t e sz rest total →
    Yields (loadProgram ld ip (kva e) left off sz) t (Outcome ld s e rest total) fun _ _ => True := by
  induction left with
  | zero => exact fun t off sz building => yields_pure building
  | succ left ih =>
    intro t off sz building
    unfold loadProgram
    dsimp only
    refine yields_ite (fun _ => yields_pure building.bad) fun _ =>
      yields_ite (fun _ => ih t _ sz building) fun _ => ?_
    refine yields_ite (fun _ => yields_pure building.bad) fun fits =>
      yields_ite (fun _ => yields_pure building.bad) fun wraps => ?_
    have words : (proghdr (ip.readi off 32)).vaddr < 2 ^ 32 ∧ (proghdr (ip.readi off 32)).memsz < 2 ^ 32 :=
      ⟨uintAt_lt .., uintAt_lt ..⟩
    generalize proghdr (ip.readi off 32) = ph at *
    refine yields_bind (building.alloc _) fun newsz u post => ?_
    rcases post with ⟨rfl, dir, keeps⟩ | ⟨more, grown⟩
    · exact yields_pure ⟨dir, keeps⟩
    · refine yields_ite (fun _ => yields_pure grown.bad) fun _ =>
        yields_ite (fun _ => yields_pure grown.bad) fun _ => ?_
      refine yields_bind (grown.load ip ph.off ?_) fun loaded w filled => ?_
      · omega
      · cases loaded with
        | true => exact ih w _ newsz filled
        | false => exact yields_pure filled.bad

/-- The strings are pushed below the break as long as there is room for them. -/
theorem pushArgs_spec (args : List (List UInt8)) : ∀ (t : Machine) (argc sp : Nat) (pointers : List Nat),
    Building ld s t e sz rest total → stringBytes args ≤ sp → sp ≤ sz →
      Yields (pushArgs (kva e) args argc sp pointers) t (fun r u => Building ld s u e sz rest total ∧
        ∀ bottom found, r = some (bottom, found) → found.length = pointers.length + args.length ∧ bottom ≤ sz ∧
          sp ≤ bottom + stringBytes args) fun _ _ => True := by
  induction args with
  | nil =>
    intro t argc sp pointers building _ below
    refine yields_pure ⟨building, fun bottom found same => ?_⟩
    cases same
    exact ⟨rfl, below, Nat.le_add_right _ _⟩
  | cons arg args ih =>
    intro t argc sp pointers building room below
    have low := building.low
    simp only [KERNBASE] at low
    have sum : stringBytes (arg :: args) = arg.length + 4 + stringBytes args := by
      rw [stringBytes, List.map_cons, List.sum_cons, stringBytes]
    rw [sum] at room
    unfold pushArgs
    refine yields_ite (fun _ => yields_pure ⟨building, fun _ _ never => (nomatch never)⟩) fun _ => ?_
    generalize pushed : (sp + 2 ^ 32 - (arg.length + 1)) % 2 ^ 32 / 4 * 4 = top
    have fits : top + (arg ++ [0]).length ≤ sz := by
      rw [List.length_append, List.length_singleton]
      omega
    refine yields_bind (building.copyout fits) fun copied u filled => ?_
    cases copied with
    | false => exact yields_pure ⟨filled, fun _ _ never => (nomatch never)⟩
    | true =>
      refine (ih u (argc + 1) top (pointers ++ [top]) filled (by omega) (by omega)).imp fun r w post => ⟨post.1, ?_⟩
      intro bottom found same
      obtain ⟨count, under, room⟩ := post.2 bottom found same
      rw [List.length_append, List.length_singleton] at count
      rw [List.length_cons, sum]
      exact ⟨by omega, under, by omega⟩

theorem ustack_length (sp : Nat) (pointers : List Nat) : (ustack sp pointers).length = 4 * (pointers.length + 4) := by
  unfold ustack
  rw [List.length_flatMap]
  have four : ∀ x ∈ [0xffffffff, pointers.length,
      (sp + 2 ^ 32 - (pointers.length + 1) * 4) % 2 ^ 32] ++ pointers ++ [0],
      (uintBytes x).length = 4 := fun _ _ => rfl
  rw [List.map_congr_left four, List.map_const', List.sum_replicate_nat, List.length_append, List.length_append]
  simp only [List.length_cons, List.length_nil]
  omega

/-- The program and its stack are built below the break. -/
theorem buildImage_spec (ip : File) (elf : List UInt8) {argv : List (List UInt8)} (room : argBytes argv ≤ 2 * 4096)
    (building : Building ld s t e 0 rest total) : Yields (buildImage ld ip elf argv (kva e)) t
      (fun r u => Outcome ld s e rest total (r.map Prod.fst) u) fun _ _ => True := by
  unfold buildImage
  refine yields_bind (loadProgram_spec ip _ t _ 0 building) fun r u post => ?_
  cases r with
  | none => exact yields_pure post
  | some sz =>
    have rounded := Building.round post
    have low := rounded.low
    simp only [KERNBASE] at low
    refine yields_bind (rounded.alloc _) fun newsz w post => ?_
    rcases post with ⟨rfl, dir, keeps⟩ | ⟨more, grown⟩
    · exact yields_pure ⟨dir, keeps⟩
    · refine yields_ite (fun _ => yields_pure grown.bad) fun some => ?_
      refine yields_bind (grown.clearpteu (by omega)) fun _ x guarded => ?_
      unfold argBytes at room
      refine yields_bind (pushArgs_spec argv x 0 newsz [] guarded (by omega) le_rfl) fun r y post => ?_
      obtain ⟨pushed, bounds⟩ := post
      cases r with
      | none => exact yields_pure pushed.bad
      | some result =>
        obtain ⟨sp, pointers⟩ := result
        obtain ⟨count, under, above⟩ := bounds sp pointers rfl
        rw [List.length_nil, Nat.zero_add] at count
        have size := ustack_length sp pointers
        have limit := grown.low
        simp only [KERNBASE] at limit
        dsimp only
        refine yields_bind (pushed.copyout (by omega)) fun copied z filled => yields_pure ?_
        cases copied with
        | true => exact filled
        | false => exact filled.bad

end Building

section Commit
variable {ld : Linker} {tab : Table} {hold : Nat → Holding} {s t : Machine} {kdir i e : Nat}
    {lost total : Multiset Nat}
  {E : Panic → Machine → Prop}

/-- All that is held beside a new address space, in the order in which `exec` gives it back. -/
theorem held_whole (m : Nat → Nat → Nat) (bound : i < NPROC) (whole : hold i = .whole) :
    lost + (held tab hold kdir).cells m =
    (tab.proc i).stackFrame ::ₘ (own m (tab.proc i).dir + (lost + (beside tab hold kdir i).cells m)) := by
  rw [held_split bound, whole, cells_whole, Multiset.cons_add, Multiset.add_cons, add_left_comm]

variable (books : Books ld tab hold s kdir lost total)
include books

/-- What happens beside all slots leaves the books in order. -/
theorem Books.aside (stock : Stock ld t (lost + (held tab hold kdir).cells s.mem) total)
    (keeps : Keeps (lost + (held tab hold kdir).cells s.mem) s t) : Books ld tab hold t kdir lost total := by
  have same : ∀ f ∈ (held tab hold kdir).cells s.mem, t.mem f = s.mem f := fun f member =>
    keeps.mem f (Multiset.mem_add.mpr (.inr member))
  refine ⟨?_, fun k low => (books.slots k low).congr le_rfl fun f member => same f ?_, books.kernel⟩
  · rwa [(held tab hold kdir).closed s.mem t.mem same]
  · rw [held_split low]
    exact Multiset.mem_add.mpr (.inl member)

/-- A process that has moved to a new address space gives its old one back. -/
theorem Books.moveTo (bound : i < NPROC) (whole : hold i = .whole) {sz : Nat}
    (dir : Dir ld t e (lost + (held tab hold kdir).cells s.mem) total)
    (keeps : Keeps (own s.mem (tab.proc i).dir + (lost + (beside tab hold kdir i).cells s.mem)) s t)
    (kernel : ∀ v, v < 2 ^ 20 → userPages ≤ v → ¬ userBit (pteAt t.mem e v)) :
    Yields (freevm ld (tab.proc i).pgdir) t (fun _ u =>
      Books ld (tab.set i { tab.proc i with pgdir := kva e, sz := sz }) hold u kdir lost total) E := by
  have fits := books.slots i bound
  have kstack : (tab.proc i).kstack = kva (tab.proc i).stackFrame := fits.stack (by rw [whole]; decide)
  have directory : ({ tab.proc i with pgdir := kva e, sz := sz } : Proc).dir = e := by rw [Proc.dir, kva_frame]
  obtain ⟨sameDirectory, sameTables⟩ := keeps.own
  have old : Dir ld t (tab.proc i).dir (own t.mem e + ((tab.proc i).stackFrame ::ₘ
      (lost + (beside tab hold kdir i).cells s.mem))) total := by
    have stock := dir.stock
    rw [held_whole _ bound whole] at stock
    refine ⟨?_, (fits.space whole).congr sameDirectory sameTables⟩
    rwa [own_congr sameDirectory sameTables, add_left_comm, Multiset.add_cons]
  rw [fits.directory whole]
  refine (freevm_spec old).imp fun _ u post => ?_
  obtain ⟨stock, kept, _⟩ := post
  obtain ⟨newDirectory, newTables⟩ := kept.own
  have done := books.replace (t := u) (q := { tab.proc i with pgdir := kva e, sz := sz })
      (h := .whole) bound ?_ (fun f member => ?_)
    le_rfl (fits_whole kstack ?_ ?_ ?_)
  · rwa [← whole, Function.update_eq_self] at done
  · rw [cells_whole, directory, own_congr newDirectory newTables, Multiset.cons_add, ← Multiset.add_cons]
    exact stock
  · rw [kept.mem f (Multiset.mem_add.mpr (.inr (Multiset.mem_cons_of_mem (Multiset.mem_add.mpr (.inr member))))),
      keeps.mem f (Multiset.mem_add.mpr (.inr (Multiset.mem_add.mpr (.inr member))))]
  · rw [directory]
  · rw [directory]
    exact dir.space.congr newDirectory newTables
  · rw [directory]
    intro v small above user
    rw [pteAt_congr small newDirectory newTables] at user
    exact absurd user (kernel v small above)

/-- `exec` leaves the process where it is, or moves it to a new address space. -/
theorem Books.exec (bound : i < NPROC) (whole : hold i = .whole) (file : Option File) {argv : List (List UInt8)}
    (room : argBytes argv ≤ 2 * 4096) : Yields (exec ld file argv tab i) s (fun r t =>
      (r.2 = tab ∨ ∃ e sz, r.2 = tab.set i { tab.proc i with pgdir := kva e, sz := sz }) ∧
        Books ld r.2 hold t kdir lost total) fun _ _ => True := by
  have fits := books.slots i bound
  have kstack : (tab.proc i).kstack = kva (tab.proc i).stackFrame := fits.stack (by rw [whole]; decide)
  unfold Xv6.exec
  cases file with
  | none => exact yields_pure ⟨.inl rfl, books⟩
  | some ip =>
    dsimp only
    refine yields_ite (fun _ => yields_pure ⟨.inl rfl, books⟩) fun _ => ?_
    refine yields_ite (fun _ => yields_pure ⟨.inl rfl, books⟩) fun _ => ?_
    refine yields_bind (setupkvm_spec books.stock) fun r t post => ?_
    rcases post with ⟨rfl, _, gaveUp⟩ | ⟨e, rfl, made⟩
    · exact yields_pure ⟨.inl rfl, books.aside gaveUp.stock gaveUp.keeps⟩
    · rw [if_neg (kva_ne_zero e)]
      refine yields_bind (buildImage_spec ip _ room made.building) fun r u post => ?_
      cases r with
      | none =>
        obtain ⟨dir, keeps⟩ := post
        refine yields_bind (freevm_spec dir) fun _ w post => yields_pure ⟨.inl rfl, ?_⟩
        exact books.aside post.1 (keeps.trans post.2.1)
      | some result =>
        obtain ⟨sz, sp⟩ := result
        obtain ⟨dir, _, _, kernel, _, keeps⟩ : Building ld s u e sz _ total := post
        rw [held_whole _ bound whole] at dir keeps
        have poke : ∀ (w x : Nat) (m : Machine), w < 1024 → Yields (store ((tab.proc i).kstack + 4 * w) x) m
            (fun _ t => OnlyFrame (tab.proc i).stackFrame m t) fun _ _ => True := fun w x m bound => by
          rw [kstack]
          exact store_stack _ x bound
        refine yields_bind (poke 1019 _ u (by decide)) fun _ w first => ?_
        refine yields_bind (poke 1022 sp w (by decide)) fun _ x second => ?_
        obtain ⟨after, kept, entries⟩ := dir.only (first.trans second)
        have stack : ({ tab.proc i with pgdir := kva e, sz := sz } : Proc).kstack ≠ 0 := fits.stack_ne_zero whole
        refine yields_step (switchuvm_kva x stack rfl) ?_
        have aboard : Books ld tab hold { s with cr3 := 4096 * e } kdir lost total := books.congr rfl rfl
        have new : Dir ld { x with cr3 := 4096 * e } e (lost + (held tab hold kdir).cells s.mem) total := by
          rw [held_whole _ bound whole]
          exact ⟨after.stock.congr rfl fun _ _ => rfl, after.space⟩
        refine yields_bind (aboard.moveTo bound whole new ?_ ?_)
          fun _ y moved => yields_pure ⟨.inr ⟨e, sz, rfl⟩, moved⟩
        · have all := (keeps.subset fun f member => Multiset.mem_cons_of_mem member).trans kept
          exact ⟨all.mem, rfl, all.exhausted⟩
        · intro v small above user
          exact kernel v small above (entries v small ▸ user)

end Commit

end OsLabs.Xv6
