import OsLabs.User.MallocLoop

namespace OsLabs.Umalloc
open ByteMemory Spans Cycle Heap

/-- The block of a pointer that `malloc` returned, with the size asked for. -/
def blockOf (b : Nat × Nat) : Span := ⟨b.1 - headerSize, headerSize * nunits b.2⟩

def Handed (live : List (Nat × Nat)) : Nat → Prop := Covers (live.map blockOf)

/-- A program and its heap: the pointers that it holds, the memory that `morecore` has got from the kernel, and the
bytes as the program last saw them. -/
structure State where
  heap : Heap
  live : List (Nat × Nat)
  arena : Nat → Prop
  view : Nat → UInt8

/-- Memory of the allocator that is not the program's to write. -/
def State.Private (base : Nat) (s : State) (x : Nat) : Prop :=
  base ≤ x ∧ x < base + headerSize ∨ s.arena x ∧ ∀ b ∈ s.live, ¬ (b.1 ≤ x ∧ x < b.1 + b.2)

/-- What happens to a heap: a call of `malloc` with the kernel's answer to an `sbrk` in it, a call of `free`, or what the
program does between the calls, with the memory and the break after it. -/
inductive Op
  | malloc (granted : Bool) (nbytes : Nat)
  | free (b : Nat × Nat)
  | program (mem : Bytes) (brk : Nat)

/-- One step of a program. It frees only what it holds, and writes only to the blocks it holds and to memory that is
not the allocator's. -/
inductive Step (base : Nat) (s : State) : Op → State → Prop
  | malloc {granted nbytes p h'} (yields : Yields (fun fuel => malloc base s.heap fuel granted nbytes) (p, h'))
      (nonzero : p ≠ 0) :
      Step base s (.malloc granted nbytes) ⟨h', (p, nbytes) :: s.live, fun x => s.arena x ∨ s.heap.brk ≤ x ∧ x < h'.brk,
        fun x => if p ≤ x ∧ x < p + nbytes then h'.mem x else s.view x⟩
  | refused {granted nbytes h'} (yields : Yields (fun fuel => malloc base s.heap fuel granted nbytes) (0, h')) :
      Step base s (.malloc granted nbytes) { s with heap := h' }
  | free {b h'} (holds : b ∈ s.live) (yields : Yields (fun fuel => s.heap.free fuel b.1) h') :
      Step base s (.free b) { s with heap := h', live := s.live.erase b }
  | program {mem : Bytes} {brk} (kept : ∀ x : Nat, s.Private base x → mem x = s.heap.mem x) :
      Step base s (.program mem brk) { s with heap := ⟨mem, s.heap.freep, brk⟩, view := fun x => mem x }

/-- Every run of a program from its start, with its steps, the last one first. -/
inductive Run (base : Nat) : List (State × Op) → State → Prop
  | boot (h : Heap) (null : h.freep = 0) (positive : 0 < base) (low : base + headerSize ≤ h.brk)
      (room : h.brk ≤ 2 ^ 31) : Run base [] ⟨h, [], fun _ => False, fun x => h.mem x⟩
  | step {past s op t} (run : Run base past s) (step : Step base s op t) : Run base ((s, op) :: past) t

/-- The size of the request, with its header, does not wrap around. -/
def Small (nbytes : Nat) : Prop := nbytes + headerSize ≤ 2 ^ 32

/-- The memory that the kernel grants ends at or below 2^31, where its own begins; `growproc` does not check it. -/
def Room (h : Heap) (granted : Bool) (nbytes : Nat) : Prop :=
  granted = true → h.brk + 8 * coreUnits (nunits nbytes) ≤ 2 ^ 31

/-- What is assumed of each step: requests that do not wrap around, no memory past 2^31, and a break that the program
keeps above the allocator's memory. -/
def Op.Fits (base : Nat) (s : State) : Op → Prop
  | .malloc granted nbytes => Small nbytes ∧ Room s.heap granted nbytes
  | .free _ => True
  | .program _ brk => base + headerSize ≤ brk ∧ (∀ x, s.arena x → x < brk) ∧ brk ≤ 2 ^ 31

/-- Before the first call, or with a ring. -/
def Ready (base : Nat) (h : Heap) (free live : List Span) : Prop :=
  (h.freep = 0 ∧ free = [] ∧ live = [] ∧ 0 < base ∧ h.brk ≤ 2 ^ 31) ∨ Shape base h free live

structure Inv (base : Nat) (s : State) : Prop where
  ready : ∃ free, Ready base s.heap free (s.live.map blockOf) ∧ ∀ x, s.arena x ↔ Covers free x ∨ Handed s.live x
  low : base + 8 ≤ s.heap.brk
  pointers : ∀ b ∈ s.live, 8 ≤ b.1 ∧ Small b.2
  view : ∀ b ∈ s.live, ∀ x, b.1 ≤ x → x < b.1 + b.2 → s.heap.mem x = s.view x

section Runs
variable {base : Nat} {h h' : Heap} {free live : List Span} {s : State} {b : Nat × Nat} {granted : Bool}
    {nbytes x : Nat}

/-- The units have room for the bytes and the header exactly when their sum does not wrap around. -/
theorem nunits_room_iff (uint : nbytes < 2 ^ 32) : nbytes + 8 ≤ 8 * nunits nbytes ↔ Small nbytes := by
  unfold Small nunits headerSize
  omega

theorem nunits_room (small : Small nbytes) : nbytes + 8 ≤ 8 * nunits nbytes :=
  (nunits_room_iff (Nat.lt_of_lt_of_le (Nat.lt_add_of_pos_right (by decide)) small)).mpr small

theorem nunits_pos : 0 < nunits nbytes := Nat.succ_pos _

/-- What the program has of a block lies in it, behind its header. -/
theorem holds_data (high : 8 ≤ b.1) (small : Small b.2) (lower : b.1 ≤ x) (upper : x < b.1 + b.2) :
    (blockOf b).Holds x ∧ (blockOf b).start + 8 ≤ x := by
  have room := nunits_room small
  simp only [Span.Holds, Span.stop, blockOf, headerSize]
  omega

/-- The ring of the static header alone. -/
theorem shape_alone (positive : 0 < base) (room : h.brk ≤ 2 ^ 31) (ptr : h.ptr base = base)
    (size : h.size base = 0) (freep : h.freep = base) : Shape base h [] [] where
  positive := positive
  ring := circle_cons.mpr (congrArg (· :: []) ptr)
  freep := List.mem_singleton.mpr freep
  sizes s member := by
    obtain rfl := List.mem_singleton.mp member
    exact congrArg (· * 8) size
  liveSizes _ member := nomatch member
  filled _ member := nomatch member
  liveFilled _ member := nomatch member
  apart := List.pairwise_singleton ..
  liveApart := .nil
  separate _ covered := absurd covered covers_nil
  inside _ covered := (covered.elim covers_nil covers_nil).elim
  room := room

theorem Shape.freep_ne_zero (shape : Shape base h free live) : h.freep ≠ 0 := by
  obtain ⟨s, listed, same⟩ := List.mem_map.mp shape.freep
  have low := shape.base_le listed
  have positive := shape.positive
  omega

theorem Ready.start (ready : Ready base h free live) (low : base + 8 ≤ h.brk) :
    Shape base (h.start base) free live ∧ (h.start base).brk = h.brk ∧
      ∀ x : Nat, x < base ∨ base + 8 ≤ x → (h.start base).mem x = h.mem x := by
  rcases ready with ⟨null, rfl, rfl, positive, room⟩ | shape
  · unfold Heap.start
    rw [if_pos null]
    refine ⟨shape_alone positive room ?_ ?_ rfl, rfl, fun x off => ?_⟩
    · exact ptr_setSize_self.trans (ptr_setPtr_self (by omega))
    · exact size_setSize_self (by decide)
    · exact (alike_setSize.mem x off).trans (alike_setPtr.mem x off)
  · unfold Heap.start
    rw [if_neg shape.freep_ne_zero]
    exact ⟨shape, rfl, fun _ _ => rfl⟩

theorem Inv.boot (null : h.freep = 0) (positive : 0 < base) (low : base + headerSize ≤ h.brk)
    (room : h.brk ≤ 2 ^ 31) :
    Inv base ⟨h, [], fun _ => False, fun x => h.mem x⟩ where
  ready := ⟨[], .inl ⟨null, rfl, rfl, positive, room⟩, fun _ =>
    ⟨False.elim, fun covered => covered.elim covers_nil covers_nil⟩⟩
  low := low
  pointers _ member := nomatch member
  view _ member := nomatch member

theorem handed_of_data (member : b ∈ s.live) (holds : (blockOf b).Holds x) : Handed s.live x :=
  ⟨blockOf b, List.mem_map_of_mem member, holds⟩

/-- The addresses of the free blocks are those of the allocator's memory that are not handed out. -/
theorem free_iff (shape : Shape base h free (s.live.map blockOf))
    (arena : ∀ x, s.arena x ↔ Covers free x ∨ Handed s.live x) :
    s.arena x ∧ ¬ Handed s.live x ↔ Covers free x := by
  rw [arena]
  refine ⟨fun both => both.1.resolve_right both.2, fun covered => ⟨.inl covered, shape.separate x covered⟩⟩

/-- Addresses of the allocator's memory in a row, none of them handed out. -/
def State.Gap (s : State) (n : Nat) : Prop := ∃ a, ∀ x, a ≤ x → x < a + n → s.arena x ∧ ¬ Handed s.live x

/-- A free block is large enough exactly when there are as many free addresses in a row. -/
theorem gap_iff (shape : Shape base h free (s.live.map blockOf))
    (arena : ∀ x, s.arena x ↔ Covers free x ∨ Handed s.live x)
    {n : Nat} (positive : 0 < n) : (∃ t ∈ free, n ≤ h.size t.start) ↔ s.Gap (8 * n) := by
  constructor
  · rintro ⟨t, member, fits⟩
    have units := shape.sizes t (List.mem_cons_of_mem _ member)
    exact ⟨t.start, fun x lower upper => (free_iff shape arena).mpr ⟨t, member, lower, by unfold Span.stop; omega⟩⟩
  · rintro ⟨a, clear⟩
    have apart : Apart free := (List.pairwise_cons.mp shape.apart).2
    have covered : ∀ x, a ≤ x → x < a + 8 * n → Covers free x := fun x lower upper =>
      (free_iff shape arena).mp (clear x lower upper)
    obtain ⟨t, member, first, last⟩ := apart.inside_one (by omega) covered
    have units := shape.sizes t (List.mem_cons_of_mem _ member)
    exact ⟨t, member, by unfold Span.stop at last; omega⟩

/-- A call of `malloc` that hands out a block. -/
theorem Inv.served (inv : Inv base s) (ready : Ready base s.heap free (s.live.map blockOf))
    (arena : ∀ x, s.arena x ↔ Covers free x ∨ Handed s.live x) (small : Small nbytes) {t : Span} {free' : List Span}
    (size : t.size = 8 * nunits nbytes)
    (served : Served base (s.heap.start base) h' free free' (s.live.map blockOf) t) :
    Inv base ⟨h', (t.start + 8, nbytes) :: s.live, fun x => s.arena x ∨ s.heap.brk ≤ x ∧ x < h'.brk,
      fun x => if t.start + 8 ≤ x ∧ x < t.start + 8 + nbytes then h'.mem x else s.view x⟩ := by
  obtain ⟨shape, brk, mem⟩ := ready.start inv.low
  have block : blockOf (t.start + 8, nbytes) = t := by
    obtain ⟨start, bytes⟩ := t
    obtain rfl : bytes = 8 * nunits nbytes := size
    exact congrArg (Span.mk · (8 * nunits nbytes)) (Nat.add_sub_cancel start 8)
  have blocks : ((t.start + 8, nbytes) :: s.live).map blockOf = t :: s.live.map blockOf := by
    rw [List.map_cons, block]
  have room := nunits_room small
  have more := served.brk
  rw [brk] at more
  refine ⟨⟨free', .inr ?_, fun x => ?_⟩, Nat.le_trans inv.low more, ?_, ?_⟩
  · rw [blocks]
    exact served.shape
  · have covers := served.covers x
    rw [brk] at covers
    show s.arena x ∨ _ ↔ _ ∨ Covers (((t.start + 8, nbytes) :: s.live).map blockOf) x
    rw [arena, blocks, covers_cons, or_right_comm, covers]
    exact or_assoc
  · intro c member
    rcases List.mem_cons.mp member with rfl | old
    · exact ⟨Nat.le_add_left .., small⟩
    · exact inv.pointers c old
  · intro c member x lower upper
    dsimp only
    split
    · rfl
    · rename_i off
      rcases List.mem_cons.mp member with rfl | old
      · exact absurd ⟨lower, upper⟩ off
      · obtain ⟨high, small'⟩ := inv.pointers c old
        have handed := handed_of_data old (holds_data high small' lower upper).1
        have bound := shape.inside x (.inr handed)
        rw [served.mem x (fun used => shape.separate x used handed) bound.2 (.inr bound.1), mem x (.inr bound.1)]
        exact inv.view c old x lower upper

/-- A call of `malloc` returns, whatever the kernel answers. It hands out no block only if the kernel refuses and
there are not enough free addresses in a row. -/
theorem Inv.malloc (inv : Inv base s) (small : Small nbytes) (room : Room s.heap granted nbytes) :
    (∃ p h', p ≠ 0 ∧ Yields (fun fuel => malloc base s.heap fuel granted nbytes) (p, h') ∧
      Inv base ⟨h', (p, nbytes) :: s.live, fun x => s.arena x ∨ s.heap.brk ≤ x ∧ x < h'.brk,
        fun x => if p ≤ x ∧ x < p + nbytes then h'.mem x else s.view x⟩ ∧
      (granted = true ∨ s.Gap (8 * nunits nbytes))) ∨
    (∃ h', Yields (fun fuel => malloc base s.heap fuel granted nbytes) (0, h') ∧ Inv base { s with heap := h' } ∧
      granted = false ∧ ¬ s.Gap (8 * nunits nbytes)) := by
  obtain ⟨free, ready, arena⟩ := inv.ready
  obtain ⟨shape, brk, mem⟩ := ready.start inv.low
  have positive := @nunits_pos nbytes
  rw [← gap_iff shape arena positive]
  by_cases enough : (∃ t ∈ free, nunits nbytes ≤ (s.heap.start base).size t.start) ∨ granted = true
  · left
    obtain ⟨t, h', free', size, served, yields⟩ := shape.loop_served positive (brk ▸ inv.low) (by rwa [brk]) enough
    exact ⟨t.start + 8, h', Nat.succ_ne_zero _, yields, inv.served ready arena small size served, enough.symm⟩
  · right
    obtain ⟨none, refused⟩ := not_or.mp enough
    obtain rfl : granted = false := Bool.eq_false_iff.mpr refused
    refine ⟨s.heap.start base,
      shape.loop_refused positive fun t member => Nat.lt_of_not_le fun fits => none ⟨t, member, fits⟩,
      ⟨⟨free, .inr shape, arena⟩, brk ▸ inv.low, inv.pointers, fun b member x lower upper => ?_⟩, rfl, none⟩
    obtain ⟨high, small'⟩ := inv.pointers b member
    have bound := shape.inside x (.inr (handed_of_data member (holds_data high small' lower upper).1))
    exact (mem x (.inr bound.1)).trans (inv.view b member x lower upper)

theorem Inv.shape (inv : Inv base s) (member : b ∈ s.live) :
    ∃ free, Shape base s.heap free (s.live.map blockOf) ∧ ∀ x, s.arena x ↔ Covers free x ∨ Handed s.live x := by
  obtain ⟨free, ready, arena⟩ := inv.ready
  rcases ready with ⟨-, -, none, -⟩ | shape
  · exact absurd (List.mem_map_of_mem member) (none ▸ List.not_mem_nil)
  · exact ⟨free, shape, arena⟩

theorem Inv.arena_of_live (inv : Inv base s) (member : b ∈ s.live) : s.arena (blockOf b).start := by
  obtain ⟨free, shape, arena⟩ := inv.shape member
  have long := shape.liveFilled _ (List.mem_map_of_mem member)
  exact (arena _).mpr (.inr (handed_of_data member ⟨Nat.le_refl _, by unfold Span.stop; omega⟩))

/-- Memory is got from the kernel after the first call only. -/
theorem Inv.called (inv : Inv base s) (given : s.arena x) : s.heap.freep ≠ 0 := by
  obtain ⟨free, ready, arena⟩ := inv.ready
  rcases ready with ⟨-, rfl, none, -⟩ | shape
  · have covered := (arena x).mp given
    rw [Handed, none] at covered
    exact (covered.elim covers_nil covers_nil).elim
  · exact shape.freep_ne_zero

/-- `free` of a pointer that the program holds returns. -/
theorem Inv.freed (inv : Inv base s) (member : b ∈ s.live) :
    ∃ h', Yields (fun fuel => s.heap.free fuel b.1) h' ∧ Inv base { s with heap := h', live := s.live.erase b } := by
  obtain ⟨free, shape, arena⟩ := inv.shape member
  have perm : (s.live.map blockOf).Perm (blockOf b :: (s.live.erase b).map blockOf) :=
    (List.perm_cons_erase member).map blockOf
  have pulled := shape.perm perm
  obtain ⟨h', free', run, placed⟩ := pulled.loose.freed pulled.dropped
  have pointer : (blockOf b).start + 8 = b.1 := Nat.sub_add_cancel (inv.pointers b member).1
  rw [pointer] at run
  have covered : ∀ x, Handed s.live x ↔ (blockOf b).Holds x ∨ Handed (s.live.erase b) x := fun x => by
    rw [Handed, covers_perm perm, covers_cons]
    rfl
  refine ⟨h', ⟨free.length + 2, fun fuel enough => run fuel (by omega)⟩, ⟨free', .inr placed.shape, fun x => ?_⟩,
    placed.brk ▸ inv.low, fun c kept => inv.pointers c (List.mem_of_mem_erase kept), fun c kept x lower upper => ?_⟩
  · rw [arena, covered, placed.covers]
    exact or_assoc.symm
  · have old := List.mem_of_mem_erase kept
    obtain ⟨high, small⟩ := inv.pointers c old
    have holds := (holds_data high small lower upper).1
    have handed : Covers ((s.live.erase b).map blockOf) x := ⟨_, List.mem_map_of_mem kept, holds⟩
    have bound := placed.shape.inside x (.inr handed)
    rw [placed.mem x (fun used => pulled.dropped.separate x used handed)
      (fun inside => (pulled.loose.separate x inside).2 handed) (.inr bound.1)]
    exact inv.view c old x lower upper

/-- The program writes to its own memory only, and keeps its break above the allocator's. -/
theorem Inv.program {mem : Bytes} {brk : Nat} (inv : Inv base s)
    (kept : ∀ x : Nat, s.Private base x → mem x = s.heap.mem x)
    (low : base + headerSize ≤ brk) (above : ∀ x, s.arena x → x < brk) (room : brk ≤ 2 ^ 31) :
    Inv base { s with heap := ⟨mem, s.heap.freep, brk⟩, view := fun x => mem x } := by
  obtain ⟨free, ready, arena⟩ := inv.ready
  refine ⟨⟨free, ?_, arena⟩, low, inv.pointers, fun _ _ _ _ _ => rfl⟩
  rcases ready with ⟨null, none, empty, positive, -⟩ | shape
  · exact .inl ⟨null, none, empty, positive, room⟩
  refine .inr (shape.congr rfl (fun x lower upper => kept x (.inl ⟨lower, upper⟩)) (fun x covered => ?_)
    (fun t member x lower upper => ?_) (fun x covered => above x ((arena x).mpr covered)) room)
  · refine kept x (.inr ⟨(arena x).mpr (.inl covered), fun b member data => ?_⟩)
    obtain ⟨high, small⟩ := inv.pointers b member
    exact shape.separate x covered (handed_of_data member (holds_data high small data.1 data.2).1)
  · obtain ⟨b, inside, rfl⟩ := List.mem_map.mp member
    have long := shape.liveFilled _ member
    have holds : (blockOf b).Holds x := ⟨lower, by unfold Span.stop; omega⟩
    refine kept x (.inr ⟨(arena x).mpr (.inr (handed_of_data inside holds)), fun c other data => ?_⟩)
    obtain ⟨high, small⟩ := inv.pointers c other
    obtain ⟨there, behind⟩ := holds_data high small data.1 data.2
    have same := congrArg Span.start (holds_unique shape.liveApart member (List.mem_map_of_mem other) holds there)
    omega

theorem Inv.step {op : Op} {t : State} (inv : Inv base s) (fits : op.Fits base s) (step : Step base s op t) :
    Inv base t := by
  cases step with
  | malloc yields nonzero =>
    rcases inv.malloc fits.1 fits.2 with ⟨p, h', _, yields', next, _⟩ | ⟨h', yields', _⟩
    · obtain ⟨rfl, rfl⟩ := Prod.mk.inj (yields.unique yields')
      exact next
    · exact absurd (Prod.mk.inj (yields.unique yields')).1 nonzero
  | refused yields =>
    rcases inv.malloc fits.1 fits.2 with ⟨p, h', nonzero, yields', _⟩ | ⟨h', yields', next, _⟩
    · exact absurd (Prod.mk.inj (yields'.unique yields)).1 nonzero
    · obtain rfl := (Prod.mk.inj (yields.unique yields')).2
      exact next
  | free holds yields =>
    obtain ⟨h', yields', next⟩ := inv.freed holds
    obtain rfl := yields.unique yields'
    exact next
  | program kept => exact inv.program kept fits.1 fits.2.1 fits.2.2

theorem Run.inv {past : List (State × Op)} (run : Run base past s) (fits : ∀ e ∈ past, e.2.Fits base e.1) :
    Inv base s := by
  induction run with
  | boot h null positive low room => exact .boot null positive low room
  | step _ step ih =>
    obtain ⟨last, earlier⟩ := List.forall_mem_cons.mp fits
    exact (ih earlier).step last step

/-- The ring lists the free blocks. -/
theorem Shape.ringFrom {front back : List Span} {p : Span} {fuel : Nat} (shape : Shape base h free live)
    (whole : sentinel base :: free = front ++ p :: back) (enough : back.length < fuel) :
    Umalloc.ringFrom base h fuel (h.ptr p.start) = some back := by
  induction back generalizing front p fuel with
  | nil =>
    obtain ⟨fuel, rfl⟩ : ∃ k, fuel = k + 1 := ⟨fuel - 1, by omega⟩
    rw [shape.ptr_eq whole]
    exact if_pos rfl
  | cons t back ih =>
    obtain ⟨fuel, rfl⟩ : ∃ k, fuel = k + 1 := ⟨fuel - 1, by omega⟩
    rw [List.length_cons] at enough
    have whole' : sentinel base :: free = front ++ [p] ++ t :: back := by rw [whole, List.append_assoc]; rfl
    have link : h.ptr p.start = t.start := shape.ptr_eq whole
    have listed : t ∈ sentinel base :: free := whole' ▸ List.mem_append_right _ List.mem_cons_self
    have other : t.start ≠ base := by
      have once := shape.once
      rw [whole', starts, List.map_append, List.map_append] at once
      have head : base ∈ front.map Span.start ++ [p].map Span.start := by
        rw [← List.map_append]
        cases front with
        | nil =>
          obtain ⟨rfl, -⟩ := List.cons.inj whole
          exact List.mem_cons_self
        | cons q front =>
          obtain ⟨rfl, -⟩ := List.cons.inj whole
          exact List.mem_cons_self
      exact fun same => (List.nodup_append.mp once).2.2 _ head _ List.mem_cons_self same.symm
    have size : h.size t.start * headerSize = t.size := shape.sizes t listed
    rw [Umalloc.ringFrom, link, if_neg other, ih whole' (by omega), size]
    rfl

/-- A process that has not called `malloc` yet. -/
def booted : State := ⟨⟨fun _ => 0, 0, 16384⟩, [], fun _ => False, fun _ => 0⟩

theorem booted_run : Run 256 [] booted := .boot ⟨fun _ => 0, 0, 16384⟩ rfl (by decide) (by decide) (by decide)

theorem booted_fits : (Op.malloc true 100).Fits 256 booted := ⟨by unfold Small; decide, fun _ => by decide⟩

/-- Its first request is served. -/
theorem booted_served : ∃ s past, Run 256 past s ∧ (∀ e ∈ past, e.2.Fits 256 e.1) ∧ ∃ p, s.live = [(p, 100)] := by
  have inv : Inv 256 booted := booted_run.inv nofun
  rcases inv.malloc booted_fits.1 booted_fits.2 with ⟨p, h', nonzero, yields, -⟩ | ⟨_, -, -, refused, -⟩
  · exact ⟨_, _, booted_run.step (.malloc yields nonzero),
      fun e member => List.mem_singleton.mp member ▸ booted_fits, p, rfl⟩
  · cases refused

variable {past : List (State × Op)}

/-- Blocks handed out do not overlap, lie in the allocator's memory, have room for what was asked for, and hold what the
program last saw in them. -/
theorem blocks_kept (run : Run base past s) (fits : ∀ e ∈ past, e.2.Fits base e.1) :
    (s.live.map blockOf).Pairwise Span.Disjoint ∧
      (∀ b ∈ s.live, 8 ≤ b.1 ∧ b.1 + b.2 ≤ (blockOf b).stop ∧
        ∀ x, (blockOf b).Holds x → s.arena x ∧ base + 8 ≤ x ∧ x < s.heap.brk) ∧
      ∀ b ∈ s.live, ∀ x, b.1 ≤ x → x < b.1 + b.2 → s.heap.mem x = s.view x := by
  have inv := run.inv fits
  refine ⟨?_, fun b member => ?_, inv.view⟩
  · obtain ⟨free, ready, -⟩ := inv.ready
    rcases ready with ⟨-, -, none, -⟩ | shape
    · rw [none]
      exact .nil
    · exact shape.liveApart
  · obtain ⟨free, shape, arena⟩ := inv.shape member
    obtain ⟨high, small⟩ := inv.pointers b member
    have room := nunits_room small
    refine ⟨high, ?_, fun x holds => ?_⟩
    · simp only [Span.stop, blockOf, headerSize]
      omega
    · have handed := handed_of_data member holds
      exact ⟨(arena x).mpr (.inr handed), shape.inside x (.inr handed)⟩

theorem blocks_kept_first : ∃ s past, Run 256 past s ∧ (∃ p, s.live = [(p, 100)]) ∧
    (s.live.map blockOf).Pairwise Span.Disjoint ∧
    (∀ b ∈ s.live, 8 ≤ b.1 ∧ b.1 + b.2 ≤ (blockOf b).stop ∧
      ∀ x, (blockOf b).Holds x → s.arena x ∧ 256 + 8 ≤ x ∧ x < s.heap.brk) ∧
    ∀ b ∈ s.live, ∀ x, b.1 ≤ x → x < b.1 + b.2 → s.heap.mem x = s.view x := by
  obtain ⟨s, past, run, fits, block⟩ := booted_served
  exact ⟨s, past, run, block, blocks_kept run fits⟩

/-- `malloc` and `free` always return, and `malloc` hands out a block unless the kernel refuses memory and there are not
enough free addresses in a row. -/
theorem malloc_returns (run : Run base past s) (fits : ∀ e ∈ past, e.2.Fits base e.1) :
    (∀ granted nbytes, (Op.malloc granted nbytes).Fits base s →
      ∃ p h', Yields (fun fuel => malloc base s.heap fuel granted nbytes) (p, h') ∧
        (p = 0 ↔ granted = false ∧ ¬ s.Gap (8 * nunits nbytes))) ∧
      ∀ b ∈ s.live, ∃ h', Yields (fun fuel => s.heap.free fuel b.1) h' := by
  have inv := run.inv fits
  refine ⟨fun granted nbytes fit => ?_, fun b member => ?_⟩
  · rcases inv.malloc fit.1 fit.2 with ⟨p, h', nonzero, yields, -, why⟩ | ⟨h', yields, -, refused, none⟩
    · refine ⟨p, h', yields, ⟨fun zero => absurd zero nonzero, fun ⟨refused, full⟩ => ?_⟩⟩
      rcases why with given | gap
      · exact absurd (refused.symm.trans given) Bool.false_ne_true
      · exact absurd gap full
    · exact ⟨0, h', yields, ⟨fun _ => ⟨refused, none⟩, fun _ => rfl⟩⟩
  · obtain ⟨h', yields, -⟩ := inv.freed member
    exact ⟨h', yields⟩

theorem malloc_returns_booted : ∃ s past, Run 256 past s ∧ (∃ p, s.live = [(p, 100)]) ∧
    (∀ granted nbytes, (Op.malloc granted nbytes).Fits 256 s →
      ∃ p h', Yields (fun fuel => malloc 256 s.heap fuel granted nbytes) (p, h') ∧
        (p = 0 ↔ granted = false ∧ ¬ s.Gap (8 * nunits nbytes))) ∧
      ∀ b ∈ s.live, ∃ h', Yields (fun fuel => s.heap.free fuel b.1) h' := by
  obtain ⟨s, past, run, fits, block⟩ := booted_served
  exact ⟨s, past, run, block, malloc_returns run fits⟩

/-- From the first call of `malloc` on the ring lists exactly the maximal runs of free addresses: neighbours have been
joined, nothing has been lost. -/
theorem ring_lists_runs (run : Run base past s) (fits : ∀ e ∈ past, e.2.Fits base e.1) (called : s.heap.freep ≠ 0) :
    ∃ l, Yields (fun fuel => ringFrom base s.heap fuel (s.heap.ptr base)) l ∧
      ∀ l', RunsOf (fun x => s.arena x ∧ ¬ Handed s.live x) l' ↔ l' = l := by
  obtain ⟨free, ready, arena⟩ := (run.inv fits).ready
  rcases ready with ⟨null, -⟩ | shape
  · exact absurd null called
  · have runs : RunsOf (fun x => s.arena x ∧ ¬ Handed s.live x) free :=
      ⟨(List.pairwise_cons.mp shape.apart).2, fun t member => by have := shape.filled t member; omega,
        fun x => (free_iff shape arena).symm⟩
    refine ⟨free, ⟨free.length + 1, fun fuel enough => ?_⟩, fun l' =>
      ⟨fun runs' => runs'.unique runs, fun same => same ▸ runs⟩⟩
    have whole : sentinel base :: free = [] ++ sentinel base :: free := rfl
    have listed := @Shape.ringFrom base s.heap free (s.live.map blockOf) [] free (sentinel base) fuel shape whole enough
    exact listed

theorem ring_lists_runs_freed : ∃ s past, Run 256 past s ∧ s.live = [] ∧ s.heap.freep ≠ 0 ∧
    ∃ l, Yields (fun fuel => ringFrom 256 s.heap fuel (s.heap.ptr 256)) l ∧
      ∀ l', RunsOf (fun x => s.arena x ∧ ¬ Handed s.live x) l' ↔ l' = l := by
  obtain ⟨s, past, run, fits, p, block⟩ := booted_served
  have holds : (p, 100) ∈ s.live := block ▸ List.mem_singleton_self _
  obtain ⟨h', yields, -⟩ := (run.inv fits).freed holds
  have run' := run.step (.free holds yields)
  have fits' : ∀ e ∈ (s, Op.free (p, 100)) :: past, e.2.Fits 256 e.1 := List.forall_mem_cons.mpr ⟨trivial, fits⟩
  have called : h'.freep ≠ 0 := (run'.inv fits').called ((run.inv fits).arena_of_live holds)
  exact ⟨_, _, run', by simp [block], called, ring_lists_runs run' fits' called⟩

end Runs

end OsLabs.Umalloc
