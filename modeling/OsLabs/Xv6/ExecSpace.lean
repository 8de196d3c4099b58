import OsLabs.Xv6.EagerHeap

namespace OsLabs.Xv6
open Command Gather

/-- The address space `exec` builds: pages below a page-aligned break are mapped for
the program, except the guard page under the stack page. -/
structure ExecSpace (ld : Linker) (s : Machine) (p : Proc) (d : Nat) (rest total : Multiset Nat) : Prop where
  order : InOrder ld s p d rest total
  aligned : p.sz % 4096 = 0
  mapped : ∀ v, v * 4096 < p.sz → PTE_FLAGS (pteAt s.mem d v) =
    if v * 4096 + 2 * 4096 = p.sz then PTE_P ||| PTE_W else PTE_P ||| PTE_W ||| PTE_U
  clear : Clear s d p.sz

theorem ExecSpace.present {ld : Linker} {s : Machine} {p : Proc} {d v : Nat} {rest total : Multiset Nat}
    (space : ExecSpace ld s p d rest total) (inside : v * 4096 < p.sz) : present (pteAt s.mem d v) := by
  have flags := space.mapped v inside
  unfold PTE_FLAGS at flags
  by_cases guard : v * 4096 + 2 * 4096 = p.sz
  · rw [if_pos guard] at flags
    have three : pteAt s.mem d v % 4096 = 3 := flags
    unfold Xv6.present
    omega
  · rw [if_neg guard] at flags
    have seven : pteAt s.mem d v % 4096 = 7 := flags
    unfold Xv6.present
    omega

section Tiny

def tinyLinker : Linker where
  data := 0x80108000
  kernelEnd := 0x80200000
  aligned := by decide
  behindText := by decide
  ordered := by decide
  inMemory := by decide

/-- A program of one page with its guard page and stack: the directory in frame 512, one
page table in frame 513, the pages in frames 514 to 516, the frames 517 and 518 free,
the kernel stack in frame 519. -/
def tinyMachine : Machine where
  mem := fun f w =>
    if f = 512 ∧ w = 0 then 4096 * 513 + 7
    else if f = 513 ∧ w = 0 then 4096 * 514 + 7
    else if f = 513 ∧ w = 1 then 4096 * 515 + 3
    else if f = 513 ∧ w = 2 then 4096 * 516 + 7
    else if f = 517 ∧ w = 0 then kva 518
    else 0
  freelist := kva 517
  cr3 := 4096 * 512
  exhausted := false

def tinyProc : Proc := ⟨3 * 4096, kva 512, kva 519, .running, 1, none, false⟩

def tinyFrames : Multiset Nat := {512, 513, 514, 515, 516, 517, 518, 519}

theorem tiny_directory (i : Nat) : tinyMachine.mem 512 i = if i = 0 then 4096 * 513 + 7 else 0 := by
  simp [tinyMachine]

theorem tiny_table (i : Nat) : tinyMachine.mem 513 i =
    if i = 0 then 4096 * 514 + 7 else if i = 1 then 4096 * 515 + 3 else if i = 2 then 4096 * 516 + 7 else 0 := by
  simp [tinyMachine]

theorem tiny_entry (v : Nat) : pteAt tinyMachine.mem 512 v =
    if v = 0 then 4096 * 514 + 7 else if v = 1 then 4096 * 515 + 3 else if v = 2 then 4096 * 516 + 7 else 0 := by
  unfold pteAt
  rw [tiny_directory]
  by_cases first : v / 1024 = 0
  · rw [if_pos first, if_pos (by decide), show (4096 * 513 + 7) / 4096 = 513 by decide, tiny_table,
      Nat.mod_eq_of_lt (by omega)]
  · rw [if_neg first, if_neg (by decide), if_neg (by omega), if_neg (by omega), if_neg (by omega)]

theorem tiny_above {v : Nat} (high : 3 ≤ v) : pteAt tinyMachine.mem 512 v = 0 := by
  rw [tiny_entry, if_neg (by omega), if_neg (by omega), if_neg (by omega)]

theorem tiny_own : own tinyMachine.mem 512 = {512, 513, 514, 515, 516} := by
  have oneTable : tables tinyMachine.mem 512 = {513} := by
    have tail := gather_prefix (n := 1) (m := 1023) (f := fun i => frameOf (tinyMachine.mem 512 i))
        fun i lower _ => by
      rw [tiny_directory, if_neg (by omega)]
      exact frameOf_absent (by decide)
    exact tail
  have threePages : pages tinyMachine.mem 512 = {514, 515, 516} := by
    have tail := gather_prefix (n := 3) (m := userPages - 3) (f := fun v => frameOf (pteAt tinyMachine.mem 512 v))
      fun v lower _ => by
        rw [tiny_above lower]
        exact frameOf_absent (by decide)
    exact tail
  rw [own, oneTable, threePages]
  decide

theorem tiny_execSpace : ExecSpace tinyLinker tinyMachine tinyProc 512 {519} tinyFrames := by
  have stock : Stock tinyLinker tinyMachine (own tinyMachine.mem 512 + {519}) tinyFrames := by
    refine ⟨⟨[517, 518], ⟨rfl, rfl, rfl⟩, ?_⟩, by decide, by unfold Linker.Valid; decide⟩
    rw [tiny_own]
    decide
  have space : Space tinyMachine.mem 512 := by
    refine ⟨fun i _ => ?_, fun v _ => ?_⟩
    · rw [tiny_directory]
      by_cases first : i = 0
      · rw [if_pos first]
        exact .inr rfl
      · rw [if_neg first]
        exact .inl rfl
    · by_cases high : 3 ≤ v
      · exact .inl (tiny_above high)
      · rw [tiny_entry]
        obtain rfl | rfl | rfl : v = 0 ∨ v = 1 ∨ v = 2 := by omega
        all_goals exact .inr (by decide)
  have pagesAbove : ∀ v, userPages ≤ v → 3 ≤ v := fun v high => le_trans (by decide) high
  refine ⟨⟨⟨stock, space⟩, rfl, by decide, rfl, by decide, rfl, fun v _ high => ?_⟩, by decide, fun v inside => ?_,
    fun v _ high => tiny_above ?_⟩
  · rw [tiny_above (pagesAbove v high)]
    decide
  · change v * 4096 < 3 * 4096 at inside
    rw [tiny_entry]
    obtain rfl | rfl | rfl : v = 0 ∨ v = 1 ∨ v = 2 := by omega
    all_goals rfl
  · change 3 * 4096 ≤ v * 4096 at high
    omega

end Tiny

section Roomy

/-- The program of one page beside 2480 free frames, from frame 520 on. -/
def roomyMachine : Machine :=
  { tinyMachine with
    mem := fun f w => if 520 ≤ f ∧ f < 2999 ∧ w = 0 then kva (f + 1) else tinyMachine.mem f w
    freelist := kva 520 }

def roomyFrames : Multiset Nat := (List.range' 512 2488 : List Nat)

theorem roomy_low {f : Nat} (low : f < 520) : roomyMachine.mem f = tinyMachine.mem f := by
  funext w
  exact if_neg fun free => absurd free.1 (by omega)

theorem roomy_chain (n : Nat) : ∀ f, 520 ≤ f → f + n = 2999 →
    Chain roomyMachine.mem (kva f) (List.range' f (n + 1)) := by
  induction n with
  | zero =>
    intro f lower last
    obtain rfl : f = 2999 := by omega
    exact ⟨rfl, rfl⟩
  | succ n ih =>
    intro f lower last
    refine ⟨rfl, ?_⟩
    have link : roomyMachine.mem f 0 = kva (f + 1) := if_pos ⟨lower, by omega, rfl⟩
    rw [link]
    exact ih (f + 1) (by omega) (by omega)

theorem roomy_tables : ∀ f ∈ tables tinyMachine.mem 512, roomyMachine.mem f = tinyMachine.mem f := by
  intro f member
  obtain ⟨i, _, here, rfl⟩ := mem_tables.mp member
  rw [tiny_directory] at here ⊢
  by_cases first : i = 0
  · rw [if_pos first]
    exact roomy_low (by decide)
  · rw [if_neg first] at here
    exact absurd here (by decide)

theorem roomy_entry {v : Nat} (bound : v < 2 ^ 20) : pteAt roomyMachine.mem 512 v = pteAt tinyMachine.mem 512 v :=
  pteAt_congr bound (roomy_low (by decide)) roomy_tables

theorem roomy_held : own roomyMachine.mem 512 + {517, 518, 519} = (List.range' 512 8 : List Nat) := by
  rw [own_congr (roomy_low (by decide)) roomy_tables, tiny_own]
  decide

theorem roomy_execSpace : ExecSpace tinyLinker roomyMachine tinyProc 512 {517, 518, 519} roomyFrames := by
  have frames : List.range' 512 8 ++ List.range' 520 2480 = List.range' 512 2488 := List.range'_append_1 ..
  have stock : Stock tinyLinker roomyMachine (own roomyMachine.mem 512 + {517, 518, 519}) roomyFrames := by
    refine ⟨⟨List.range' 520 2480, roomy_chain 2479 520 le_rfl rfl, ?_⟩, ?_, fun f member => ?_⟩
    · rw [roomy_held, add_comm, Multiset.coe_add, frames]
      rfl
    · exact Multiset.coe_nodup.mpr (List.nodup_range' ..)
    · obtain ⟨lower, upper⟩ := List.mem_range'_1.mp (Multiset.mem_coe.mp member)
      simp only [Linker.Valid, tinyLinker, kva, KERNBASE, PHYSTOP]
      omega
  obtain ⟨order, aligned, mapped, clear⟩ := tiny_execSpace
  have entry : ∀ v, v < userPages → pteAt roomyMachine.mem 512 v = pteAt tinyMachine.mem 512 v := fun v user =>
    roomy_entry (lt_of_lt_of_le user userPages_le)
  refine ⟨⟨⟨stock, order.dir.space.congr (roomy_low (by decide)) roomy_tables⟩, rfl, by decide, rfl, by decide, rfl,
    fun v bound high => ?_⟩, aligned, fun v inside => ?_, fun v user high => ?_⟩
  · rw [roomy_entry bound]
    exact order.kernel v bound high
  · rw [entry v (heap_page inside order.low)]
    exact mapped v inside
  · rw [entry v user]
    exact clear v user high

end Roomy

end OsLabs.Xv6
