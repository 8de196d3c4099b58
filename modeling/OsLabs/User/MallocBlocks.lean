import OsLabs.User.Malloc

namespace OsLabs.Umalloc
open ByteMemory Spans Cycle Heap

/-- The static header, which the ring of free blocks runs through, is a block without units. -/
def sentinel (base : Nat) : Span := ⟨base, 0⟩

def starts (blocks : List Span) : List Nat := blocks.map Span.start

/-- The ring of free blocks, in the order of their addresses, and the blocks handed out. -/
structure Shape (base : Nat) (h : Heap) (free live : List Span) : Prop where
  positive : 0 < base
  ring : Circle h.ptr (starts (sentinel base :: free))
  freep : h.freep ∈ starts (sentinel base :: free)
  sizes : ∀ s ∈ sentinel base :: free, h.size s.start * 8 = s.size
  liveSizes : ∀ s ∈ live, h.size s.start * 8 = s.size
  filled : ∀ s ∈ free, 8 ≤ s.size
  liveFilled : ∀ s ∈ live, 8 ≤ s.size
  apart : Apart (sentinel base :: free)
  liveApart : live.Pairwise Span.Disjoint
  separate : ∀ x, Covers free x → ¬ Covers live x
  inside : ∀ x, Covers free x ∨ Covers live x → base + 8 ≤ x ∧ x < h.brk
  room : h.brk ≤ 2 ^ 31

section Facts
variable {base : Nat} {h h' : Heap} {free live free' live' front back : List Span} {b p s t n : Span} {x : Nat}

theorem holds_start (filled : 8 ≤ s.size) : s.Holds s.start := ⟨Nat.le_refl _, by unfold Span.stop; omega⟩

theorem within (inside : ∀ x, s.Holds x → base + 8 ≤ x ∧ x < h.brk) (filled : 8 ≤ s.size) :
    base + 8 ≤ s.start ∧ s.stop ≤ h.brk := by
  have low := inside s.start (holds_start filled)
  have high := inside (s.stop - 1) ⟨by unfold Span.stop; omega, by unfold Span.stop; omega⟩
  omega

theorem Shape.bounds (shape : Shape base h free live) (member : s ∈ free) : base + 8 ≤ s.start ∧ s.stop ≤ h.brk :=
  within (fun x holds => shape.inside x (.inl ⟨s, member, holds⟩)) (shape.filled s member)

theorem Shape.liveBounds (shape : Shape base h free live) (member : s ∈ live) : base + 8 ≤ s.start ∧ s.stop ≤ h.brk :=
  within (fun x holds => shape.inside x (.inr ⟨s, member, holds⟩)) (shape.liveFilled s member)

theorem Shape.base_le (shape : Shape base h free live) (member : s ∈ sentinel base :: free) : base ≤ s.start := by
  rcases List.mem_cons.mp member with rfl | later
  · exact Nat.le_refl _
  · have := shape.bounds later
    omega

theorem Shape.stop_le (shape : Shape base h free live) (member : s ∈ sentinel base :: free) :
    s.stop ≤ max base h.brk := by
  rcases List.mem_cons.mp member with rfl | later
  · exact Nat.le_max_left ..
  · exact Nat.le_trans (shape.bounds later).2 (Nat.le_max_right ..)

/-- The headers on the ring do not overlap. -/
theorem Shape.spaced (shape : Shape base h free live) :
    (starts (sentinel base :: free)).Pairwise fun p q => p + 8 ≤ q := by
  obtain ⟨-, rest⟩ := List.pairwise_cons.mp shape.apart
  refine List.pairwise_map.mpr (List.pairwise_cons.mpr ⟨fun s member => (shape.bounds member).1, ?_⟩)
  refine rest.imp_of_mem fun {s t} first _ before => ?_
  have filled := shape.filled s first
  unfold Span.Before Span.stop at before
  omega

theorem Shape.once (shape : Shape base h free live) : (starts (sentinel base :: free)).Nodup :=
  shape.spaced.imp fun apart => by omega

/-- The block at the front of the rest of the list, or the static header after the last. -/
def nextStart (base : Nat) (back : List Span) : Nat := (back.head?.map Span.start).getD base

theorem Shape.ptr_eq (shape : Shape base h free live) (whole : sentinel base :: free = front ++ p :: back) :
    h.ptr p.start = nextStart base back := by
  have ring := shape.ring
  rw [whole] at ring
  simp only [starts, List.map_append, List.map_cons] at ring
  cases back with
  | cons n back => exact ring.next_eq
  | nil =>
    cases front with
    | nil =>
      obtain ⟨rfl, -⟩ := List.cons.inj whole
      exact (List.cons.inj (circle_cons.mp ring)).1
    | cons q front =>
      obtain ⟨rfl, -⟩ := List.cons.inj whole
      exact Circle.next_last ring

/-- A block with its header in memory that stands apart from all others. -/
structure Loose (base : Nat) (h : Heap) (free live : List Span) (b : Span) : Prop where
  size : h.size b.start * 8 = b.size
  filled : 8 ≤ b.size
  inside : ∀ x, b.Holds x → base + 8 ≤ x ∧ x < h.brk
  separate : ∀ x, b.Holds x → ¬ Covers free x ∧ ¬ Covers live x

theorem Loose.disjoint (loose : Loose base h free live b) (shape : Shape base h free live) (member : s ∈ free) :
    s.Disjoint b :=
  disjoint_of_holds (by have := shape.filled s member; omega) (by have := loose.filled; omega)
    fun x holds there => (loose.separate x there).1 ⟨s, member, holds⟩

/-- The headers of the ring do not overlap that of a block that is not on it. -/
theorem Loose.clear (loose : Loose base h free live b) (shape : Shape base h free live)
    (member : s ∈ sentinel base :: free) : Clear b.start s.start := by
  have bounds := within loose.inside loose.filled
  rcases List.mem_cons.mp member with rfl | later
  · exact .inr bounds.1
  · have filled := shape.filled s later
    have filled' := loose.filled
    rcases loose.disjoint shape later with before | behind <;> unfold Span.stop at * <;> unfold Clear <;> omega

/-- Where `free` stops, `b` lies between the block found and the blocks behind it. -/
theorem Loose.between (loose : Loose base h free live b) (shape : Shape base h free live)
    (whole : sentinel base :: free = front ++ p :: back) (stops : h.freeStop b.start p.start = true) :
    p.stop ≤ b.start ∧ ∀ n ∈ back, b.stop ≤ n.start := by
  have bounds := within loose.inside loose.filled
  have filled := loose.filled
  have wide := b.start_le_stop
  have here : p ∈ sentinel base :: free := whole ▸ List.mem_append_right _ List.mem_cons_self
  have apart := shape.apart
  rw [whole] at apart
  have link := shape.ptr_eq whole
  obtain ⟨-, later, -⟩ := List.pairwise_append.mp apart
  obtain ⟨ahead, rest⟩ := List.pairwise_cons.mp later
  have all : ∀ n ∈ back, n ∈ free := by
    intro n member
    have inside : n ∈ sentinel base :: free := whole ▸ List.mem_append_right _ (List.mem_cons_of_mem p member)
    refine (List.mem_cons.mp inside).resolve_left ?_
    rintro rfl
    have before := ahead _ member
    have low := shape.base_le here
    unfold Span.Before Span.stop sentinel at before
    dsimp only at before
    omega
  have order : p.start < b.start ∧ ∀ n ∈ back, b.start < n.start := by
    cases back with
    | nil =>
      have low := shape.base_le here
      simp only [nextStart, List.head?_nil, Option.map_none, Option.getD_none] at link
      simp only [Heap.freeStop, link, Bool.or_eq_true, Bool.and_eq_true, decide_eq_true_eq] at stops
      exact ⟨by omega, fun _ member => nomatch member⟩
    | cons n back =>
      have next := ahead n List.mem_cons_self
      have long := p.start_le_stop
      simp only [nextStart, List.head?_cons, Option.map_some, Option.getD_some] at link
      simp only [Heap.freeStop, link, Bool.or_eq_true, Bool.and_eq_true, decide_eq_true_eq] at stops
      unfold Span.Before at next
      have between : p.start < b.start ∧ b.start < n.start := by omega
      refine ⟨between.1, fun m member => ?_⟩
      rcases List.mem_cons.mp member with rfl | later
      · exact between.2
      · have far := (List.pairwise_cons.mp rest).1 m later
        have wide := n.start_le_stop
        unfold Span.Before at far
        omega
  constructor
  · rcases List.mem_cons.mp here with rfl | other
    · exact Nat.le_of_lt order.1
    · rcases loose.disjoint shape other with before | behind
      · exact before
      · omega
  · intro n member
    have beyond := order.2 n member
    rcases loose.disjoint shape (all n member) with before | behind
    · have := n.start_le_stop
      omega
    · exact behind

/-- The loop of `free` ends at the block that `b` belongs behind. -/
theorem Loose.search (loose : Loose base h free live b) (shape : Shape base h free live) {fuel : Nat}
    (enough : free.length + 1 < fuel) :
    ∃ front p back, sentinel base :: free = front ++ p :: back ∧ p.stop ≤ b.start ∧ (∀ n ∈ back, b.stop ≤ n.start) ∧
      Ring.walk h.ptr (h.freeStop b.start) fuel h.freep = some p.start := by
  have bounds := within loose.inside loose.filled
  have off : ∀ t ∈ sentinel base :: free, t.start ≠ b.start := by
    intro t member same
    have clear := loose.clear shape member
    unfold Clear at clear
    omega
  obtain ⟨front, q, back, whole, below, above⟩ := shape.apart.split (show base < b.start by omega) off
  have link := shape.ptr_eq whole
  have stops : h.freeStop b.start q.start = true := by
    have low : base ≤ q.start := shape.base_le (whole ▸ List.mem_append_right _ List.mem_cons_self)
    simp only [Heap.freeStop, link, Bool.or_eq_true, Bool.and_eq_true, decide_eq_true_eq]
    cases back with
    | nil => exact .inr ⟨low, .inl below⟩
    | cons n back => exact .inl ⟨below, above n List.mem_cons_self⟩
  have listed : q.start ∈ starts (sentinel base :: free) :=
    List.mem_map_of_mem (whole ▸ List.mem_append_right _ List.mem_cons_self)
  obtain ⟨r, member, ends, run⟩ := shape.ring.walk shape.freep ⟨q.start, listed, stops⟩
    (by rw [starts, List.length_map, List.length_cons]; exact enough)
  obtain ⟨p, there, rfl⟩ := List.mem_map.mp member
  obtain ⟨front, back, whole⟩ := List.append_of_mem there
  obtain ⟨behind, ahead⟩ := loose.between shape whole ends
  exact ⟨front, p, back, whole, behind, ahead, run⟩

theorem after_eq (size : h.size s.start * 8 = s.size) (room : s.stop ≤ 2 ^ 31) : h.after s.start = s.stop := by
  unfold Heap.after headerSize Span.stop at *
  omega

/-- `b` has taken in the block behind it when the two touch; `b` links to the block behind. -/
structure Joined (base : Nat) (h h' : Heap) (b : Span) (back : List Span) : Prop where
  size : h'.size b.start * 8 = (absorb b back).1.size
  ptr : h'.ptr b.start = nextStart base (absorb b back).2
  alike : Alike h h' b.start

theorem Loose.joinNext (loose : Loose base h free live b) (shape : Shape base h free live)
    (whole : sentinel base :: free = front ++ p :: back) :
    Joined base h (h.joinNext b.start p.start) b back := by
  have bounds := within loose.inside loose.filled
  have room := shape.room
  have link := shape.ptr_eq whole
  have reach : h.after b.start = b.stop := after_eq loose.size (by omega)
  have low := b.start_le_stop
  have small := h.ptr_lt p.start
  unfold Heap.joinNext
  rw [reach]
  cases back with
  | nil =>
    have first : h.ptr p.start = base := link
    rw [if_neg (by omega)]
    exact ⟨by rw [size_setPtr_self]; exact loose.size, (ptr_setPtr_self small).trans link, alike_setPtr⟩
  | cons n back =>
    have next : h.ptr p.start = n.start := link
    by_cases touch : b.stop = n.start
    · have listed : n ∈ sentinel base :: free := by
        rw [whole]
        simp
      have clear := loose.clear shape listed
      have inner := loose.clear shape (s := p) (by rw [whole]; simp)
      have onward : h.ptr n.start = nextStart base back :=
        shape.ptr_eq (show _ = front ++ [p] ++ n :: back by rw [whole, List.append_assoc]; rfl)
      have sizes := shape.sizes n listed
      have filled : n.stop ≤ 2 ^ 31 := by
        rcases List.mem_cons.mp listed with rfl | later
        · unfold Span.stop sentinel at *
          dsimp only at *
          omega
        · have := shape.bounds later
          omega
      have total : h.size b.start + h.size n.start < 2 ^ 32 := by
        have := loose.size
        unfold Span.stop at filled bounds
        omega
      have later : (h.setSize b.start (h.size b.start + h.size (h.ptr p.start))).ptr p.start = h.ptr p.start :=
        alike_setSize.ptr _ inner
      have last : (h.setSize b.start (h.size b.start + h.size (h.ptr p.start))).ptr n.start = h.ptr n.start :=
        alike_setSize.ptr _ clear
      rw [if_pos (touch.trans next.symm)]
      refine ⟨?_, ?_, alike_setSize.trans alike_setPtr⟩
      · rw [absorb_touch touch]
        dsimp only
        rw [size_setPtr_self, next, size_setSize_self total]
        have := loose.size
        unfold Span.join
        dsimp only
        omega
      · rw [absorb_touch touch]
        dsimp only
        rw [later, ptr_setPtr_self (ptr_lt ..), next] at *
        exact last.trans onward
    · rw [if_neg (fun same => touch (same.trans next))]
      refine ⟨?_, ?_, alike_setPtr⟩
      · rw [absorb_gap touch, size_setPtr_self]
        exact loose.size
      · rw [absorb_gap touch]
        exact (ptr_setPtr_self small).trans link

theorem Shape.clear (shape : Shape base h free live) (whole : sentinel base :: free = front ++ p :: back)
    (member : s ∈ front ++ back) : Clear p.start s.start := by
  have spaced := shape.spaced
  rw [whole, starts, List.pairwise_map] at spaced
  obtain ⟨-, later, across⟩ := List.pairwise_append.mp spaced
  rcases List.mem_append.mp member with before | behind
  · exact .inr (across s before p List.mem_cons_self)
  · exact .inl ((List.pairwise_cons.mp later).1 s behind)

/-- With the block behind taken in, the ring leads from `p` to the one behind that. -/
theorem Shape.skipped (shape : Shape base h free live) (whole : sentinel base :: free = front ++ p :: back) :
    Circle (Function.update h.ptr p.start (nextStart base (absorb b back).2))
      (starts (front ++ p :: (absorb b back).2)) := by
  have ring := shape.ring
  have link := shape.ptr_eq whole
  have other : ∀ s ∈ front ++ back, s.start ≠ p.start := by
    intro s member same
    have clear := shape.clear whole member
    unfold Clear at clear
    omega
  rw [whole] at ring
  simp only [starts, List.map_append, List.map_cons] at ring ⊢
  cases back with
  | nil => exact ring.congr fun q _ => by rw [absorb, ← link, Function.update_eq_self]
  | cons n back =>
    by_cases touch : b.stop = n.start
    · have onward : h.ptr n.start = nextStart base back :=
        shape.ptr_eq (show _ = front ++ [p] ++ n :: back by rw [whole, List.append_assoc]; rfl)
      rw [absorb_touch touch]
      refine Circle.remove ring ((Function.update_self ..).trans onward.symm) fun q member => ?_
      refine Function.update_of_ne (fun same => ?_) ..
      rw [← List.map_append] at member
      obtain ⟨s, inside, rfl⟩ := List.mem_map.mp member
      refine other s ?_ same
      exact (List.mem_append.mp inside).elim (List.mem_append_left _) fun later =>
        List.mem_append_right _ (List.mem_cons_of_mem n later)
    · rw [absorb_gap touch]
      exact ring.congr fun q _ => by rw [← link, Function.update_eq_self]

/-- The ring, the sizes and the bytes after `bp` has been joined or linked to the blocks next to it. -/
structure Merged (base : Nat) (h h' : Heap) (blocks : List Span) (b p : Span) : Prop where
  ring : Circle h'.ptr (starts blocks)
  sizes : ∀ s ∈ blocks, h'.size s.start * 8 = s.size
  mem : ∀ x : Nat, (x < b.start ∨ b.start + 8 ≤ x) → (x < p.start ∨ p.start + 8 ≤ x) → h'.mem x = h.mem x
  brk : h'.brk = h.brk

theorem Merged.point {blocks : List Span} {q : Nat} (merged : Merged base h h' blocks b p) :
    Merged base h { h' with freep := q } blocks b p := ⟨merged.ring, merged.sizes, merged.mem, merged.brk⟩

theorem Loose.joinPrev (loose : Loose base h free live b) (shape : Shape base h free live)
    (whole : sentinel base :: free = front ++ p :: back) (behind : p.stop ≤ b.start) :
    Merged base h ((h.joinNext b.start p.start).joinPrev b.start p.start) (front ++ insertAfter p b back) b p := by
  have joined := loose.joinNext shape whole
  have skipped := shape.skipped (b := b) whole
  have here : p ∈ sentinel base :: free := whole ▸ List.mem_append_right _ List.mem_cons_self
  have clearP : Clear b.start p.start := loose.clear shape here
  have bounds := within loose.inside loose.filled
  have room := shape.room
  have size : (h.joinNext b.start p.start).size p.start * 8 = p.size := by
    rw [joined.alike.size _ clearP]
    exact shape.sizes p here
  have others : ∀ s ∈ front ++ (absorb b back).2, s ∈ sentinel base :: free ∧ Clear p.start s.start ∧
      Clear b.start s.start ∧ s.start ≠ p.start := by
    intro s member
    have kept : s ∈ front ++ back := (List.mem_append.mp member).elim (List.mem_append_left _) fun later =>
      List.mem_append_right _ (absorb_subset s later)
    have listed : s ∈ sentinel base :: free := by
      rw [whole]
      exact (List.mem_append.mp kept).elim (List.mem_append_left _) fun later =>
        List.mem_append_right _ (List.mem_cons_of_mem p later)
    have clear := shape.clear whole kept
    refine ⟨listed, clear, loose.clear shape listed, fun same => ?_⟩
    unfold Clear at clear
    omega
  have wide := b.start_le_stop
  have total : (absorb b back).1.stop ≤ 2 ^ 31 := by
    have reach : (absorb b back).1.stop = b.stop ∨ ∃ n ∈ back, (absorb b back).1.stop = n.stop := absorb_stop
    rcases reach with same | ⟨n, member, same⟩
    · omega
    · have listed : n ∈ sentinel base :: free := whole ▸ List.mem_append_right _ (List.mem_cons_of_mem p member)
      have := shape.stop_le listed
      omega
  generalize h.joinNext b.start p.start = h₁ at joined size ⊢
  have kept : ∀ {h'}, Alike h₁ h' p.start → ∀ s ∈ front ++ (absorb b back).2,
      h'.ptr s.start = h.ptr s.start ∧ h'.size s.start * 8 = s.size := by
    intro h' alike s member
    obtain ⟨listed, clear, clear', -⟩ := others s member
    rw [alike.ptr _ clear, alike.size _ clear, joined.alike.ptr _ clear', joined.alike.size _ clear']
    exact ⟨rfl, shape.sizes s listed⟩
  have frame : ∀ {h'}, Alike h₁ h' p.start → ∀ x : Nat, (x < b.start ∨ b.start + 8 ≤ x) →
      (x < p.start ∨ p.start + 8 ≤ x) → h'.mem x = h.mem x := fun alike x offB offP =>
    (alike.mem x offP).trans (joined.alike.mem x offB)
  unfold Heap.joinPrev
  rw [after_eq size (by omega)]
  by_cases touch : p.stop = b.start
  · rw [if_pos touch, insertAfter_touch touch]
    have small : h₁.size p.start + h₁.size b.start < 2 ^ 32 := by
      have := joined.size
      have start : (absorb b back).1.start = b.start := absorb_start
      unfold Span.stop at total touch
      omega
    have alike : Alike h₁ ((h₁.setSize p.start (h₁.size p.start + h₁.size b.start)).setPtr p.start
        ((h₁.setSize p.start (h₁.size p.start + h₁.size b.start)).ptr b.start)) p.start :=
      alike_setSize.trans alike_setPtr
    have onward : (h₁.setSize p.start (h₁.size p.start + h₁.size b.start)).ptr b.start =
        nextStart base (absorb b back).2 := (alike_setSize.ptr _ clearP.symm).trans joined.ptr
    refine ⟨?_, ?_, frame alike, alike.brk.trans joined.alike.brk⟩
    · have same : starts (front ++ p.join (absorb b back).1 :: (absorb b back).2) =
          starts (front ++ p :: (absorb b back).2) := by
        simp only [starts, List.map_append, List.map_cons, Span.join_start]
      rw [same]
      refine skipped.congr fun q member => ?_
      obtain ⟨s, inside, rfl⟩ := List.mem_map.mp member
      rcases List.mem_append.mp inside with early | later
      · have kept := (kept alike s (List.mem_append_left _ early)).1
        rw [Function.update_of_ne (others s (List.mem_append_left _ early)).2.2.2]
        exact kept
      rcases List.mem_cons.mp later with rfl | later
      · rw [Function.update_self]
        dsimp only
        rw [ptr_setPtr_self (ptr_lt ..), onward]
      · have kept := (kept alike s (List.mem_append_right _ later)).1
        rw [Function.update_of_ne (others s (List.mem_append_right _ later)).2.2.2]
        exact kept
    · intro s member
      rcases List.mem_append.mp member with early | later
      · exact (kept alike s (List.mem_append_left _ early)).2
      rcases List.mem_cons.mp later with rfl | later
      · rw [Span.join_start]
        dsimp only
        rw [size_setPtr_self, size_setSize_self small]
        have := joined.size
        unfold Span.join
        dsimp only
        omega
      · exact (kept alike s (List.mem_append_right _ later)).2
  · rw [if_neg touch, insertAfter_gap touch]
    have alike : Alike h₁ (h₁.setPtr p.start b.start) p.start := alike_setPtr
    have linked : (h₁.setPtr p.start b.start).ptr b.start = nextStart base (absorb b back).2 :=
      (alike.ptr _ clearP.symm).trans joined.ptr
    have start : (absorb b back).1.start = b.start := absorb_start
    refine ⟨?_, ?_, frame alike, alike.brk.trans joined.alike.brk⟩
    · simp only [starts, List.map_append, List.map_cons] at skipped ⊢
      rw [start]
      refine Circle.insert skipped (ptr_setPtr_self (by omega)) (by rw [linked, Function.update_self])
        fun q member => ?_
      rw [← List.map_append] at member
      obtain ⟨s, inside, rfl⟩ := List.mem_map.mp member
      rw [Function.update_of_ne (others s inside).2.2.2]
      exact (kept alike s inside).1
    · intro s member
      rcases List.mem_append.mp member with early | later
      · exact (kept alike s (List.mem_append_left _ early)).2
      rcases List.mem_cons.mp later with rfl | later
      · rw [size_setPtr_self]
        exact size
      rcases List.mem_cons.mp later with rfl | later
      · rw [start, alike.size _ clearP.symm]
        exact joined.size
      · exact (kept alike s (List.mem_append_right _ later)).2

theorem word_congr {p : Nat} (same : ∀ x : Nat, p ≤ x → x < p + 4 → h'.mem x = h.mem x) : h'.word p = h.word p := by
  unfold Heap.word
  rw [readInt_congr fun y lower upper => ?_]
  have here := same y.toNat (by omega) (by omega)
  rwa [Int.toNat_of_nonneg (by omega)] at here

/-- Bytes of a header that did not change keep its fields. -/
theorem ptr_congr {p : Nat} (same : ∀ x : Nat, p ≤ x → x < p + 8 → h'.mem x = h.mem x) : h'.ptr p = h.ptr p :=
  word_congr fun x lower upper => same x lower (by omega)

theorem size_congr {p : Nat} (same : ∀ x : Nat, p ≤ x → x < p + 8 → h'.mem x = h.mem x) : h'.size p = h.size p :=
  word_congr fun x lower upper => same x (by omega) (by omega)

/-- Blocks handed out keep their sizes when their bytes do not change. -/
theorem Shape.kept (shape : Shape base h free live) (frame : ∀ x : Nat, Covers live x → h'.mem x = h.mem x) :
    ∀ s ∈ live, h'.size s.start * 8 = s.size := by
  intro s member
  have long := shape.liveFilled s member
  rw [size_congr fun x lower upper => frame x ⟨s, member, lower, by unfold Span.stop; omega⟩]
  exact shape.liveSizes s member

theorem covers_sentinel : Covers (sentinel base :: free) x ↔ Covers free x := by
  rw [covers_cons]
  refine or_iff_right fun ⟨lower, upper⟩ => ?_
  exact absurd upper (Nat.not_lt.mpr lower)

/-- The ring with `b` in it still begins at the static header. -/
theorem Shape.inserted (shape : Shape base h free live) (whole : sentinel base :: free = front ++ p :: back)
    (filled : 8 ≤ b.size) (beyond : base < b.start) :
    ∃ free', front ++ insertAfter p b back = sentinel base :: free' ∧ ∀ s ∈ free', 8 ≤ s.size := by
  have grown : 8 ≤ (absorb b back).1.size := Nat.le_trans filled absorb_size
  have rest : ∀ {l : List Span}, (∀ s ∈ l, s ∈ free) → ∀ s ∈ (absorb b back).1 :: l, 8 ≤ s.size := by
    intro l subset s member
    rcases List.mem_cons.mp member with rfl | later
    · exact grown
    · exact shape.filled s (subset s later)
  cases front with
  | nil =>
    obtain ⟨rfl, rfl⟩ := List.cons.inj whole
    have gap : (sentinel base).stop ≠ b.start := fun same => Nat.lt_irrefl base (beyond.trans_eq same.symm)
    exact ⟨_, insertAfter_gap gap, rest absorb_subset⟩
  | cons first front =>
    obtain ⟨rfl, rfl⟩ := List.cons.inj whole
    refine ⟨_, rfl, fun s member => ?_⟩
    have kept : ∀ s ∈ (absorb b back).2, s ∈ front ++ p :: back := fun s later =>
      List.mem_append_right _ (List.mem_cons_of_mem p (absorb_subset s later))
    have long : 8 ≤ p.size := shape.filled p (List.mem_append_right _ List.mem_cons_self)
    rcases List.mem_append.mp member with early | later
    · exact shape.filled s (List.mem_append_left _ early)
    by_cases touch : p.stop = b.start
    · rw [insertAfter_touch touch] at later
      rcases List.mem_cons.mp later with rfl | later
      · exact Nat.le_trans long (Nat.le_add_right ..)
      · exact shape.filled s (kept s later)
    · rw [insertAfter_gap touch] at later
      rcases List.mem_cons.mp later with rfl | later
      · exact long
      · exact rest kept s later

/-- `b` has become free, and nothing outside free blocks and the static header has changed. -/
structure Placed (base : Nat) (h h' : Heap) (free free' live : List Span) (b : Span) : Prop where
  shape : Shape base h' free' live
  covers : ∀ x, Covers free' x ↔ Covers free x ∨ b.Holds x
  mem : ∀ x : Nat, ¬ Covers free x → ¬ b.Holds x → x < base ∨ base + 8 ≤ x → h'.mem x = h.mem x
  brk : h'.brk = h.brk

theorem Loose.placed (loose : Loose base h free live b) (shape : Shape base h free live)
    (whole : sentinel base :: free = front ++ p :: back) (behind : p.stop ≤ b.start)
    (ahead : ∀ n ∈ back, b.stop ≤ n.start)
    (split : front ++ insertAfter p b back = sentinel base :: free') (filled : ∀ s ∈ free', 8 ≤ s.size)
    (merged : Merged base h h' (sentinel base :: free') b p) (found : h'.freep = p.start) :
    Placed base h h' free free' live b := by
  have filledB := loose.filled
  have here : p ∈ sentinel base :: free := whole ▸ List.mem_append_right _ List.mem_cons_self
  have covers : ∀ x, Covers free' x ↔ Covers free x ∨ b.Holds x := fun x => by
    rw [← covers_sentinel, ← split, insertAfter_covers, ← whole, covers_sentinel]
  have mem : ∀ x : Nat, ¬ Covers free x → ¬ b.Holds x → x < base ∨ base + 8 ≤ x → h'.mem x = h.mem x := by
    intro x used apart off
    refine merged.mem x (by unfold Span.Holds Span.stop at apart; omega) ?_
    rcases List.mem_cons.mp here with rfl | inside
    · exact off
    · have long := shape.filled p inside
      have out : ¬ p.Holds x := fun holds => used ⟨p, inside, holds⟩
      unfold Span.Holds Span.stop at out
      omega
  refine ⟨⟨shape.positive, merged.ring, ?_, merged.sizes, ?_, filled, shape.liveFilled, ?_, shape.liveApart, ?_,
    ?_, merged.brk.trans_le shape.room⟩, covers, mem, merged.brk⟩
  · have head : p.start ∈ starts (insertAfter p b back) := by
      unfold insertAfter
      split <;> exact List.mem_cons_self
    rw [found, ← split, starts, List.map_append]
    exact List.mem_append_right _ head
  · exact shape.kept fun x handed => mem x (fun used => shape.separate x used handed)
      (fun holds => (loose.separate x holds).2 handed) (.inr (shape.inside x (.inr handed)).1)
  · rw [← split]
    exact insertAfter_apart (whole ▸ shape.apart) behind ahead
  · intro x covered
    rcases (covers x).mp covered with old | new
    · exact shape.separate x old
    · exact (loose.separate x new).2
  · intro x covered
    rw [merged.brk]
    rcases covered with covered | handed
    · rcases (covers x).mp covered with old | new
      · exact shape.inside x (.inl old)
      · exact loose.inside x new
    · exact shape.inside x (.inr handed)

/-- `free` puts a block that stands apart onto the ring, joined with the blocks that it touches. -/
theorem Loose.freed (loose : Loose base h free live b) (shape : Shape base h free live) :
    ∃ h' free', (∀ fuel, free.length + 1 < fuel → h.free fuel (b.start + 8) = some h') ∧
      Placed base h h' free free' live b := by
  obtain ⟨front, p, back, whole, behind, ahead, run⟩ := loose.search shape (Nat.lt_succ_self _)
  have merged := loose.joinPrev shape whole behind
  have bounds := within loose.inside loose.filled
  have wide := b.start_le_stop
  have room := shape.room
  obtain ⟨free', split, filled⟩ := shape.inserted whole loose.filled (by omega)
  rw [split] at merged
  refine ⟨_, free', fun fuel enough => ?_, loose.placed shape whole behind ahead split filled merged.point rfl⟩
  have header : (b.start + 8 + 2 ^ 32 - headerSize) % 2 ^ 32 = b.start := by
    unfold headerSize
    omega
  unfold Heap.free
  dsimp only
  rw [header, Ring.walk_mono (by omega) run]
  rfl

/-- `b` has been handed out, and nothing outside free blocks and the static header has changed. -/
structure Taken (base : Nat) (h h' : Heap) (free free' live : List Span) (b : Span) : Prop where
  shape : Shape base h' free' (b :: live)
  covers : ∀ x, Covers free x ↔ Covers free' x ∨ b.Holds x
  mem : ∀ x : Nat, ¬ Covers free x → x < base ∨ base + 8 ≤ x → h'.mem x = h.mem x
  brk : h'.brk = h.brk

/-- What is left to show when the last units of a free block have been taken off. -/
theorem Shape.taken {n : Nat} (shape : Shape base h free live) (split : free = front ++ s :: back) (positive : 0 < n)
    (fits : n ≤ h.size s.start) (ring : Circle h'.ptr (starts (sentinel base :: (front ++ trim (8 * n) s ++ back))))
    (freep : h'.freep ∈ starts (sentinel base :: (front ++ trim (8 * n) s ++ back)))
    (sizes : ∀ t ∈ sentinel base :: (front ++ trim (8 * n) s ++ back), h'.size t.start * 8 = t.size)
    (size : h'.size (tailOf (8 * n) s).start = n)
    (mem : ∀ x : Nat, ¬ Covers free x → x < base ∨ base + 8 ≤ x → h'.mem x = h.mem x) (brk : h'.brk = h.brk) :
    Taken base h h' free (front ++ trim (8 * n) s ++ back) live (tailOf (8 * n) s) := by
  have here : s ∈ free := split ▸ List.mem_append_right _ List.mem_cons_self
  have units := shape.sizes s (List.mem_cons_of_mem _ here)
  have covers : ∀ x, Covers free x ↔ Covers (front ++ trim (8 * n) s ++ back) x ∨
      (tailOf (8 * n) s).Holds x := fun x => by
    rw [split]
    exact trim_covers (by omega)
  have off : ∀ t ∈ live, (tailOf (8 * n) s).Disjoint t := by
    intro t member
    have long := shape.liveFilled t member
    exact disjoint_of_holds (show 0 < 8 * n by omega) (by omega) fun x holds there =>
      shape.separate x ((covers x).mpr (.inr holds)) ⟨t, member, there⟩
  refine ⟨⟨shape.positive, ring, freep, sizes, ?_, ?_, ?_, ?_, List.pairwise_cons.mpr ⟨off, shape.liveApart⟩, ?_, ?_,
    brk.trans_le shape.room⟩, covers, mem, brk⟩
  · intro t member
    rcases List.mem_cons.mp member with rfl | old
    · rw [size, Nat.mul_comm]
      rfl
    · exact shape.kept (fun x handed => mem x (fun used => shape.separate x used handed)
        (.inr (shape.inside x (.inr handed)).1)) t old
  · intro t member
    rw [List.append_assoc] at member
    rcases List.mem_append.mp member with early | later
    · exact shape.filled t (split ▸ List.mem_append_left _ early)
    rcases List.mem_append.mp later with rest | late
    · unfold trim at rest
      split at rest
      · cases rest
      · obtain rfl := List.mem_singleton.mp rest
        dsimp only
        omega
    · exact shape.filled t (split ▸ List.mem_append_right _ (List.mem_cons_of_mem s late))
  · intro t member
    rcases List.mem_cons.mp member with rfl | old
    · show 8 ≤ 8 * n
      omega
    · exact shape.liveFilled t old
  · have apart := shape.apart
    rw [split, ← List.cons_append] at apart
    exact trim_apart apart
  · intro x covered handed
    rcases covers_cons.mp handed with new | old
    · have apart := (List.pairwise_cons.mp shape.apart).2
      rw [split] at apart
      exact trim_off apart (by omega) covered new
    · exact shape.separate x ((covers x).mpr (.inl covered)) old
  · intro x covered
    rw [brk]
    rcases covered with covered | handed
    · exact shape.inside x (.inl ((covers x).mpr (.inl covered)))
    · rcases covers_cons.mp handed with new | old
      · exact shape.inside x (.inl ((covers x).mpr (.inr new)))
      · exact shape.inside x (.inr old)

/-- All of a block is handed out: the block before it links to the one behind it. -/
theorem Shape.unlink {q : Span} (shape : Shape base h free live)
    (whole : sentinel base :: free = front ++ q :: s :: back) :
    Circle (h.setPtr q.start (h.ptr s.start)).ptr (starts (front ++ q :: back)) ∧
      (∀ t ∈ front ++ q :: back, (h.setPtr q.start (h.ptr s.start)).size t.start * 8 = t.size) ∧
      (h.setPtr q.start (h.ptr s.start)).size s.start = h.size s.start := by
  have alike : Alike h (h.setPtr q.start (h.ptr s.start)) q.start := alike_setPtr
  have ring := shape.ring
  have clear : ∀ t ∈ front ++ s :: back, Clear q.start t.start := fun t member => shape.clear whole member
  rw [whole] at ring
  simp only [starts, List.map_append, List.map_cons] at ring ⊢
  refine ⟨ring.remove (ptr_setPtr_self (ptr_lt ..)) fun r member => ?_, fun t member => ?_, ?_⟩
  · rw [← List.map_append] at member
    obtain ⟨t, inside, rfl⟩ := List.mem_map.mp member
    refine alike.ptr _ (clear t ?_)
    exact (List.mem_append.mp inside).elim (List.mem_append_left _) fun later =>
      List.mem_append_right _ (List.mem_cons_of_mem s later)
  · have listed : t ∈ sentinel base :: free := by
      rw [whole]
      exact (List.mem_append.mp member).elim (List.mem_append_left _) fun later => List.mem_append_right _
        ((List.mem_cons.mp later).elim (fun is => is ▸ List.mem_cons_self) fun late =>
          List.mem_cons_of_mem q (List.mem_cons_of_mem s late))
    refine Eq.trans (congrArg (· * 8) ?_) (shape.sizes t listed)
    rcases List.mem_append.mp member with early | later
    · exact alike.size _ (clear t (List.mem_append_left _ early))
    rcases List.mem_cons.mp later with rfl | late
    · exact size_setPtr_self
    · exact alike.size _ (clear t (List.mem_append_right _ (List.mem_cons_of_mem s late)))
  · exact alike.size _ (clear s (List.mem_append_right _ List.mem_cons_self))

/-- A header inside a free block does not overlap those of the ring. -/
theorem Shape.clear_inside {p : Nat} (shape : Shape base h free live)
    (whole : sentinel base :: free = front ++ s :: back)
    (low : s.start + 8 ≤ p) (high : p + 8 ≤ s.stop) (member : t ∈ sentinel base :: free) : Clear p t.start := by
  have apart := shape.apart
  rw [whole] at apart member
  obtain ⟨-, later, -⟩ := List.pairwise_append.mp apart
  rcases List.mem_append.mp member with early | here
  · have clear := shape.clear whole (List.mem_append_left _ early)
    have order : t.Before s := (List.pairwise_append.mp apart).2.2 t early s List.mem_cons_self
    have wide := t.start_le_stop
    unfold Clear Span.Before at *
    omega
  rcases List.mem_cons.mp here with rfl | late
  · exact .inr low
  · have order := (List.pairwise_cons.mp later).1 t late
    unfold Span.Before at order
    exact .inl (by omega)

/-- The last units of a block are handed out, with a header of their own. -/
theorem Shape.divide {n p : Nat} (shape : Shape base h free live) (whole : sentinel base :: free = front ++ s :: back)
    (some : n < h.size s.start) (positive : 0 < n) (tail : p = (tailOf (8 * n) s).start) :
    ∀ t ∈ sentinel base :: free,
      ((h.setSize s.start (h.size s.start - n)).setSize p n).ptr t.start = h.ptr t.start ∧
      (t.start ≠ s.start → ((h.setSize s.start (h.size s.start - n)).setSize p n).size t.start = h.size t.start) ∧
      (t.start = s.start → ((h.setSize s.start (h.size s.start - n)).setSize p n).size t.start = h.size
        s.start - n) := by
  have listed : s ∈ sentinel base :: free := whole ▸ List.mem_append_right _ List.mem_cons_self
  have units := shape.sizes s listed
  have alike : Alike h (h.setSize s.start (h.size s.start - n)) s.start := alike_setSize
  have alike' : Alike (h.setSize s.start (h.size s.start - n))
      ((h.setSize s.start (h.size s.start - n)).setSize p n) p :=
    alike_setSize
  have stop : p + 8 * n = s.stop := by
    rw [tail]
    unfold tailOf Span.stop
    dsimp only
    omega
  have low : s.start + 8 ≤ p := by
    unfold Span.stop at stop
    omega
  intro t member
  have clear : Clear p t.start := shape.clear_inside whole low (by omega) member
  by_cases same : t.start = s.start
  · refine ⟨?_, fun other => absurd same other, fun _ => ?_⟩
    · rw [alike'.ptr _ clear, same, ptr_setSize_self]
    · have small := h.size_lt s.start
      rw [alike'.size _ clear, same, size_setSize_self (by omega)]
  · have apart : Clear s.start t.start := by
      rw [whole] at member
      rcases List.mem_append.mp member with early | here
      · exact shape.clear whole (List.mem_append_left _ early)
      rcases List.mem_cons.mp here with rfl | late
      · exact absurd rfl same
      · exact shape.clear whole (List.mem_append_right _ late)
    refine ⟨?_, fun _ => ?_, fun is => absurd is same⟩
    · rw [alike'.ptr _ clear, alike.ptr _ apart]
    · rw [alike'.size _ clear, alike.size _ apart]

/-- The branch of `malloc` for a block that is large enough hands out its last units. -/
theorem Shape.carve {n : Nat} {q : Span} (shape : Shape base h free live)
    (whole : sentinel base :: free = front ++ q :: s :: back) (positive : 0 < n) (fits : n ≤ h.size s.start) :
    ∃ h' free', h.carve n q.start s.start = ((tailOf (8 * n) s).start + 8, h') ∧
      Taken base h h' free free' live (tailOf (8 * n) s) := by
  obtain ⟨first, before, split⟩ : ∃ f, front ++ [q] = sentinel base :: f ∧ free = f ++ s :: back := by
    cases front with
    | nil => exact ⟨[], by rw [(List.cons.inj whole).1]; rfl, (List.cons.inj whole).2⟩
    | cons t front =>
      refine ⟨front ++ [q], by rw [(List.cons.inj whole).1]; rfl, ?_⟩
      rw [(List.cons.inj whole).2, List.append_assoc]
      rfl
  have here : s ∈ free := split ▸ List.mem_append_right _ List.mem_cons_self
  have listed : q ∈ sentinel base :: free := whole ▸ List.mem_append_right _ List.mem_cons_self
  have units := shape.sizes s (List.mem_cons_of_mem _ here)
  have bounds := shape.bounds here
  have room := shape.room
  have kept : q.start ∈ starts (sentinel base :: (first ++ trim (8 * n) s ++ back)) := by
    rw [List.append_assoc, ← List.cons_append, ← before]
    exact List.mem_map_of_mem (List.mem_append_left _ (List.mem_append_right _ List.mem_cons_self))
  unfold Heap.carve
  by_cases all : h.size s.start = n
  · have size : s.size = 8 * n := by omega
    have left : sentinel base :: (first ++ trim (8 * n) s ++ back) = front ++ q :: back := by
      rw [trim, if_pos size, List.append_nil, ← List.cons_append, ← before, List.append_assoc]
      rfl
    have last : (tailOf (8 * n) s).start = s.start := by
      unfold tailOf
      dsimp only
      omega
    obtain ⟨ring, sizes, same⟩ := shape.unlink whole
    rw [if_pos all]
    refine ⟨{ h.setPtr q.start (h.ptr s.start) with freep := q.start }, first ++ trim (8 * n) s ++ back,
      by rw [last]; rfl, shape.taken split positive fits (left ▸ ring) kept (left ▸ sizes) ?_ ?_ rfl⟩
    · rw [last, ← all]
      exact same
    · intro x used off
      refine (alike_setPtr (p := q.start)).mem x ?_
      rcases List.mem_cons.mp listed with rfl | inside
      · exact off
      · have long := shape.filled q inside
        have out : ¬ q.Holds x := fun holds => used ⟨q, inside, holds⟩
        unfold Span.Holds Span.stop at out
        omega
  · have less : n < h.size s.start := by omega
    have whole' : sentinel base :: free = (front ++ [q]) ++ s :: back := by rw [whole, List.append_assoc]; rfl
    have left : sentinel base :: (first ++ trim (8 * n) s ++ back) =
        front ++ q :: ⟨s.start, s.size - 8 * n⟩ :: back := by
      rw [trim, if_neg (by omega), List.append_assoc, ← List.cons_append, ← before, List.append_assoc]
      rfl
    have tail : (h.setSize s.start (h.size s.start - n)).after s.start = (tailOf (8 * n) s).start := by
      have small := h.size_lt s.start
      unfold Heap.after headerSize tailOf
      rw [size_setSize_self (by omega)]
      unfold Span.stop at bounds
      dsimp only
      omega
    have divided := shape.divide whole' less positive tail
    have same : starts (front ++ q :: ⟨s.start, s.size - 8 * n⟩ :: back) = starts (sentinel base :: free) := by
      rw [whole]
      simp only [starts, List.map_append, List.map_cons]
    rw [if_neg all]
    dsimp only
    refine ⟨{ (h.setSize s.start (h.size s.start - n)).setSize
      ((h.setSize s.start (h.size s.start - n)).after s.start) n
      with freep := q.start },
        first ++ trim (8 * n) s ++ back, by rw [tail]; rfl, shape.taken split positive fits ?_ kept ?_ ?_ ?_ rfl⟩
    · rw [left, same]
      refine shape.ring.congr fun r member => ?_
      obtain ⟨t, inside, rfl⟩ := List.mem_map.mp member
      exact (divided t inside).1
    · rw [left]
      intro t member
      have others : ∀ t ∈ (front ++ [q]) ++ back, ((h.setSize s.start (h.size s.start - n)).setSize
          ((h.setSize s.start (h.size s.start - n)).after s.start) n).size t.start * 8 = t.size := by
        intro t member
        have clear := shape.clear whole' member
        have inside : t ∈ sentinel base :: free := by
          rw [whole']
          exact (List.mem_append.mp member).elim (List.mem_append_left _) fun late =>
            List.mem_append_right _ (List.mem_cons_of_mem s late)
        rw [(divided t inside).2.1 fun is => by unfold Clear at clear; omega]
        exact shape.sizes t inside
      rw [List.append_cons] at member
      rcases List.mem_append.mp member with early | later
      · exact others t (List.mem_append_left _ early)
      rcases List.mem_cons.mp later with rfl | late
      · refine (congrArg (· * 8) ((divided s (List.mem_cons_of_mem _ here)).2.2 rfl)).trans ?_
        dsimp only
        omega
      · exact others t (List.mem_append_right _ late)
    · rw [tail]
      exact size_setSize_self (by have := h.size_lt s.start; omega)
    · intro x used off
      have out : ¬ s.Holds x := fun holds => used ⟨s, here, holds⟩
      unfold Span.Holds at out
      have low := bounds.1
      have stop : (tailOf (8 * n) s).start + 8 * n = s.stop := by
        unfold tailOf Span.stop
        dsimp only
        omega
      have start : s.start ≤ (tailOf (8 * n) s).start := Nat.le_add_right ..
      have filled := shape.filled s here
      rw [tail]
      refine (alike_setSize.mem x ?_).trans (alike_setSize.mem x ?_) <;> unfold Span.stop at * <;> omega

/-- The blocks depend on the static header, the free blocks and the headers of the others only. -/
theorem Shape.congr (shape : Shape base h free live) (freep : h'.freep = h.freep)
    (sentinelKept : ∀ x : Nat, base ≤ x → x < base + 8 → h'.mem x = h.mem x)
    (freeKept : ∀ x : Nat, Covers free x → h'.mem x = h.mem x)
    (headers : ∀ s ∈ live, ∀ x : Nat, s.start ≤ x → x < s.start + 8 → h'.mem x = h.mem x)
    (inside : ∀ x, Covers free x ∨ Covers live x → x < h'.brk)
    (room : h'.brk ≤ 2 ^ 31) : Shape base h' free live := by
  have kept : ∀ s ∈ sentinel base :: free, ∀ x : Nat, s.start ≤ x → x < s.start + 8 → h'.mem x = h.mem x := by
    intro s member x lower upper
    rcases List.mem_cons.mp member with rfl | inside
    · exact sentinelKept x lower upper
    · have long := shape.filled s inside
      exact freeKept x ⟨s, inside, lower, by unfold Span.stop; omega⟩
  refine ⟨shape.positive, shape.ring.congr fun p member => ?_, freep ▸ shape.freep, fun s member => ?_,
    fun s member => ?_,
    shape.filled, shape.liveFilled, shape.apart, shape.liveApart, shape.separate,
    fun x covered => ⟨(shape.inside x covered).1, inside x covered⟩, room⟩
  · obtain ⟨s, listed, rfl⟩ := List.mem_map.mp member
    exact ptr_congr (kept s listed)
  · rw [size_congr (kept s member)]
    exact shape.sizes s member
  · rw [size_congr (headers s member)]
    exact shape.liveSizes s member

theorem covers_perm {l l' : List Span} (perm : l.Perm l') : Covers l x ↔ Covers l' x := by
  simp only [Covers, perm.mem_iff]

theorem Shape.perm (shape : Shape base h free live) (perm : live.Perm live') : Shape base h free live' where
  positive := shape.positive
  ring := shape.ring
  freep := shape.freep
  sizes := shape.sizes
  liveSizes s member := shape.liveSizes s (perm.mem_iff.mpr member)
  filled := shape.filled
  liveFilled s member := shape.liveFilled s (perm.mem_iff.mpr member)
  apart := shape.apart
  liveApart := (perm.pairwise_iff fun disjoint => disjoint.symm).mp shape.liveApart
  separate x covered := fun handed => shape.separate x covered ((covers_perm perm).mpr handed)
  inside x covered := shape.inside x (covered.imp_right (covers_perm perm).mpr)
  room := shape.room

/-- The shape without one of the blocks handed out. -/
theorem Shape.dropped (shape : Shape base h free (b :: live)) : Shape base h free live where
  positive := shape.positive
  ring := shape.ring
  freep := shape.freep
  sizes := shape.sizes
  liveSizes s member := shape.liveSizes s (List.mem_cons_of_mem b member)
  filled := shape.filled
  liveFilled s member := shape.liveFilled s (List.mem_cons_of_mem b member)
  apart := shape.apart
  liveApart := (List.pairwise_cons.mp shape.liveApart).2
  separate x covered := fun handed => shape.separate x covered (covers_cons.mpr (.inr handed))
  inside x covered := shape.inside x (covered.imp_right fun handed => covers_cons.mpr (.inr handed))
  room := shape.room

theorem Shape.loose (shape : Shape base h free (b :: live)) : Loose base h free live b where
  size := shape.liveSizes b List.mem_cons_self
  filled := shape.liveFilled b List.mem_cons_self
  inside x holds := shape.inside x (.inr (covers_cons.mpr (.inl holds)))
  separate x holds := ⟨fun covered => shape.separate x covered (covers_cons.mpr (.inl holds)),
    fun ⟨s, member, there⟩ =>
    ((List.pairwise_cons.mp shape.liveApart).1 s member).not_holds holds there⟩

end Facts

end OsLabs.Umalloc
