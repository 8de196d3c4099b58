import Mathlib.Data.List.Pairwise
import Mathlib.Tactic.Common

namespace Spans

/-- The addresses from `start` up to `start + size`. -/
structure Span where
  start : Nat
  size : Nat
deriving DecidableEq, Repr

namespace Span

def stop (s : Span) : Nat := s.start + s.size

def Holds (s : Span) (x : Nat) : Prop := s.start ≤ x ∧ x < s.stop

/-- `s` lies before `t`, and does not touch it. -/
def Before (s t : Span) : Prop := s.stop < t.start

def Disjoint (s t : Span) : Prop := s.stop ≤ t.start ∨ t.stop ≤ s.start

def join (s t : Span) : Span := ⟨s.start, s.size + t.size⟩

@[simp] theorem join_start (s t : Span) : (s.join t).start = s.start := rfl
@[simp] theorem join_stop (s t : Span) : (s.join t).stop = s.stop + t.size := (Nat.add_assoc ..).symm

theorem start_le_stop (s : Span) : s.start ≤ s.stop := Nat.le_add_right ..

theorem Disjoint.symm {s t : Span} (disjoint : s.Disjoint t) : t.Disjoint s := Or.symm disjoint

end Span

variable {b p s : Span} {front back l l' : List Span} {x : Nat}

/-- Sorted, with a gap between any two. -/
def Apart (l : List Span) : Prop := l.Pairwise Span.Before

def Covers (l : List Span) (x : Nat) : Prop := ∃ s ∈ l, s.Holds x

theorem covers_nil : ¬ Covers [] x := fun ⟨_, member, _⟩ => nomatch member

theorem covers_cons : Covers (s :: l) x ↔ s.Holds x ∨ Covers l x := by
  simp only [Covers, List.mem_cons, exists_eq_or_imp]

theorem covers_append : Covers (l ++ l') x ↔ Covers l x ∨ Covers l' x := by
  simp only [Covers, List.mem_append, or_and_right, exists_or]

theorem holds_join (touch : s.stop = b.start) : (s.join b).Holds x ↔ s.Holds x ∨ b.Holds x := by
  have low := s.start_le_stop
  have high := b.start_le_stop
  simp only [Span.Holds, Span.join_start, Span.join_stop]
  unfold Span.stop at *
  omega

/-- Spans that have no address in common do not overlap. -/
theorem disjoint_of_holds (filled : 0 < s.size) (filled' : 0 < b.size) (none : ∀ x, s.Holds x → ¬ b.Holds x) :
    s.Disjoint b := by
  by_contra overlap
  obtain ⟨right, left⟩ := not_or.mp overlap
  unfold Span.stop at right left
  refine none (max s.start b.start) ⟨Nat.le_max_left .., ?_⟩ ⟨Nat.le_max_right .., ?_⟩ <;> unfold Span.stop <;> omega

theorem Span.Disjoint.not_holds (disjoint : s.Disjoint b) (holds : s.Holds x) : ¬ b.Holds x := by
  rintro ⟨lower, upper⟩
  obtain ⟨lower', upper'⟩ := holds
  rcases disjoint with before | behind <;> omega

/-- Of spans that do not overlap one at most holds an address. -/
theorem holds_unique (disjoint : l.Pairwise Span.Disjoint) (here : s ∈ l) (there : b ∈ l) (holds : s.Holds x)
    (holds' : b.Holds x) : s = b := by
  refine List.Pairwise.forall_of_forall_of_flip (R := fun s b => s.Holds x → b.Holds x → s = b) (fun _ _ _ _ => rfl)
    (disjoint.imp fun apart holds holds' => absurd holds' (apart.not_holds holds))
    (disjoint.imp fun apart holds holds' => absurd holds' (apart.symm.not_holds holds)) here there holds holds'

/-- `b` is joined with the first of the spans behind it when the two touch. -/
def absorb (b : Span) : List Span → Span × List Span
  | [] => (b, [])
  | n :: back => if b.stop = n.start then (b.join n, back) else (b, n :: back)

/-- `b` is put between `p` and the spans behind it, and joined with those that it touches. -/
def insertAfter (p b : Span) (back : List Span) : List Span :=
  if p.stop = b.start then p.join (absorb b back).1 :: (absorb b back).2
  else p :: (absorb b back).1 :: (absorb b back).2

theorem absorb_touch (touch : b.stop = s.start) : absorb b (s :: back) = (b.join s, back) := if_pos touch

theorem absorb_gap (gap : b.stop ≠ s.start) : absorb b (s :: back) = (b, s :: back) := if_neg gap

theorem absorb_start : (absorb b back).1.start = b.start := by
  unfold absorb
  split
  · rfl
  · split <;> rfl

theorem absorb_covers : Covers ((absorb b back).1 :: (absorb b back).2) x ↔ b.Holds x ∨ Covers back x := by
  unfold absorb
  split
  · exact covers_cons
  · split
    · rename_i touch
      rw [covers_cons, covers_cons, holds_join touch, or_assoc]
    · exact covers_cons

theorem absorb_apart (apart : Apart back) (ahead : ∀ n ∈ back, b.stop ≤ n.start) :
    Apart ((absorb b back).1 :: (absorb b back).2) := by
  unfold absorb
  split
  · exact List.pairwise_singleton ..
  · rename_i n back
    obtain ⟨first, rest⟩ := List.pairwise_cons.mp apart
    split
    · rename_i touch
      refine List.pairwise_cons.mpr ⟨fun m member => ?_, rest⟩
      have gap := first m member
      unfold Span.Before at gap ⊢
      rw [Span.join_stop, touch]
      exact gap
    · rename_i gap
      refine List.pairwise_cons.mpr ⟨fun m member => ?_, apart⟩
      have close := ahead n List.mem_cons_self
      show b.stop < m.start
      rcases List.mem_cons.mp member with rfl | later
      · exact Nat.lt_of_le_of_ne close gap
      · have far := first m later
        have wide := n.start_le_stop
        unfold Span.Before at far
        omega

theorem absorb_size : b.size ≤ (absorb b back).1.size := by
  unfold absorb
  split
  · exact Nat.le_refl _
  · split
    · exact Nat.le_add_right ..
    · exact Nat.le_refl _

theorem absorb_stop : (absorb b back).1.stop = b.stop ∨ ∃ n ∈ back, (absorb b back).1.stop = n.stop := by
  cases back with
  | nil => exact .inl rfl
  | cons n back =>
    by_cases touch : b.stop = n.start
    · refine .inr ⟨n, List.mem_cons_self, ?_⟩
      rw [absorb_touch touch, Span.join_stop, touch]
      rfl
    · exact .inl (by rw [absorb_gap touch])

theorem absorb_subset : ∀ n ∈ (absorb b back).2, n ∈ back := by
  intro n member
  unfold absorb at member
  split at member
  · exact member
  · split at member
    · exact List.mem_cons_of_mem _ member
    · exact member

theorem insertAfter_touch (touch : p.stop = b.start) :
    insertAfter p b back = p.join (absorb b back).1 :: (absorb b back).2 := if_pos touch

theorem insertAfter_gap (gap : p.stop ≠ b.start) :
    insertAfter p b back = p :: (absorb b back).1 :: (absorb b back).2 := if_neg gap

theorem insertAfter_covers :
    Covers (front ++ insertAfter p b back) x ↔ Covers (front ++ p :: back) x ∨ b.Holds x := by
  rw [covers_append, covers_append, covers_cons]
  have both : Covers (insertAfter p b back) x ↔ p.Holds x ∨ b.Holds x ∨ Covers back x := by
    unfold insertAfter
    split
    · rename_i touch
      rw [covers_cons, holds_join (touch.trans absorb_start.symm), or_assoc, ← covers_cons, absorb_covers]
    · rw [covers_cons, absorb_covers]
  rw [both]
  tauto

theorem insertAfter_apart (apart : Apart (front ++ p :: back)) (behind : p.stop ≤ b.start)
    (ahead : ∀ n ∈ back, b.stop ≤ n.start) : Apart (front ++ insertAfter p b back) := by
  obtain ⟨fronts, later, across⟩ := List.pairwise_append.mp apart
  obtain ⟨first, backs⟩ := List.pairwise_cons.mp later
  have joined := absorb_apart backs ahead
  obtain ⟨gap, rest⟩ := List.pairwise_cons.mp joined
  have low := p.start_le_stop
  have start : (absorb b back).1.start = b.start := absorb_start
  have wide := (absorb b back).1.start_le_stop
  have inside : ∀ n ∈ (absorb b back).2, n ∈ back := absorb_subset
  refine List.pairwise_append.mpr ⟨fronts, ?_, ?_⟩
  · unfold insertAfter
    split
    · rename_i touch
      refine List.pairwise_cons.mpr ⟨fun n member => ?_, rest⟩
      have far := gap n member
      unfold Span.Before Span.stop at far ⊢
      unfold Span.stop at touch
      simp only [Span.join]
      omega
    · rename_i apart
      refine List.pairwise_cons.mpr ⟨fun n member => ?_, joined⟩
      have near : p.Before (absorb b back).1 := by
        unfold Span.Before
        omega
      rcases List.mem_cons.mp member with rfl | later
      · exact near
      · have far := gap n later
        unfold Span.Before at near far ⊢
        omega
  · intro f member n there
    have before := across f member
    have start : p.start ≤ n.start := by
      unfold insertAfter at there
      split at there
      · rcases List.mem_cons.mp there with rfl | later
        · exact Nat.le_refl _
        · have far := first n (inside n later)
          unfold Span.Before at far
          omega
      · rcases List.mem_cons.mp there with rfl | later
        · exact Nat.le_refl _
        rcases List.mem_cons.mp later with rfl | later
        · omega
        · have far := first n (inside n later)
          unfold Span.Before at far
          omega
    have close := before p List.mem_cons_self
    unfold Span.Before at close ⊢
    omega

/-- Of separate spans there is a last one that begins before an address, if the first does. -/
theorem Apart.split (apart : Apart (s :: l)) (low : s.start < x) (off : ∀ t ∈ s :: l, t.start ≠ x) :
    ∃ front q back, s :: l = front ++ q :: back ∧ q.start < x ∧ ∀ n ∈ back, x < n.start := by
  induction l generalizing s with
  | nil => exact ⟨[], s, [], rfl, low, fun _ member => nomatch member⟩
  | cons t l ih =>
    obtain ⟨first, rest⟩ := List.pairwise_cons.mp apart
    by_cases next : t.start < x
    · obtain ⟨front, q, back, whole, below, above⟩ := ih rest next fun r member =>
        off r (List.mem_cons_of_mem s member)
      exact ⟨s :: front, q, back, congrArg (s :: ·) whole, below, above⟩
    · refine ⟨[], s, t :: l, rfl, low, fun n member => ?_⟩
      have beyond : x < t.start := Nat.lt_of_le_of_ne (Nat.not_lt.mp next) (off t (by simp)).symm
      rcases List.mem_cons.mp member with rfl | later
      · exact beyond
      · have far := (List.pairwise_cons.mp rest).1 n later
        have wide := t.start_le_stop
        unfold Span.Before at far
        omega

/-- The last `n` addresses of `s` are taken off, or all of it. -/
def trim (n : Nat) (s : Span) : List Span := if s.size = n then [] else [⟨s.start, s.size - n⟩]

def tailOf (n : Nat) (s : Span) : Span := ⟨s.start + (s.size - n), n⟩

theorem trim_covers {n : Nat} (fits : n ≤ s.size) :
    Covers (front ++ s :: back) x ↔ Covers (front ++ trim n s ++ back) x ∨ (tailOf n s).Holds x := by
  have one : s.Holds x ↔ Covers (trim n s) x ∨ (tailOf n s).Holds x := by
    unfold trim
    split
    · simp only [covers_nil, false_or, tailOf, Span.Holds, Span.stop]
      omega
    · rw [covers_cons]
      simp only [covers_nil, or_false, tailOf, Span.Holds, Span.stop]
      omega
  rw [covers_append, covers_cons, covers_append, covers_append, one]
  tauto

theorem trim_off {n : Nat} (apart : Apart (front ++ s :: back)) (fits : n ≤ s.size)
    (covered : Covers (front ++ trim n s ++ back) x) :
    ¬ (tailOf n s).Holds x := by
  rintro ⟨lower, upper⟩
  obtain ⟨-, later, across⟩ := List.pairwise_append.mp apart
  have behind := (List.pairwise_cons.mp later).1
  have start : s.start ≤ (tailOf n s).start := Nat.le_add_right ..
  rw [List.append_assoc] at covered
  rcases covers_append.mp covered with ⟨t, member, _, high⟩ | covered
  · have before := across t member s List.mem_cons_self
    unfold Span.Before at before
    omega
  rcases covers_append.mp covered with ⟨t, member, _, high⟩ | ⟨t, member, low, _⟩
  · unfold trim at member
    split at member
    · cases member
    · obtain rfl := List.mem_singleton.mp member
      exact Nat.lt_irrefl _ (Nat.lt_of_lt_of_le high lower)
  · have beyond := behind t member
    unfold Span.Before Span.stop at beyond
    unfold Span.stop tailOf at upper
    dsimp only at upper
    omega

theorem trim_apart {n : Nat} (apart : Apart (front ++ s :: back)) : Apart (front ++ trim n s ++ back) := by
  obtain ⟨fronts, later, across⟩ := List.pairwise_append.mp apart
  obtain ⟨first, backs⟩ := List.pairwise_cons.mp later
  rw [List.append_assoc]
  unfold trim
  split
  · exact List.pairwise_append.mpr
      ⟨fronts, backs, fun f member n there => across f member n (List.mem_cons_of_mem s there)⟩
  · refine List.pairwise_append.mpr ⟨fronts, List.pairwise_cons.mpr ⟨fun n member => ?_, backs⟩,
      fun f member n there => ?_⟩
    · have far := first n member
      unfold Span.Before Span.stop at far ⊢
      dsimp only
      omega
    · rcases List.mem_cons.mp there with rfl | later
      · exact across f member s List.mem_cons_self
      · exact across f member n (List.mem_cons_of_mem s later)

/-- Addresses in a row that a list of separate spans covers lie in one of them. -/
theorem Apart.inside_one {n : Nat} (apart : Apart l) (positive : 0 < n)
    (covered : ∀ y, x ≤ y → y < x + n → Covers l y) :
    ∃ s ∈ l, s.start ≤ x ∧ x + n ≤ s.stop := by
  obtain ⟨s, member, lower, upper⟩ := covered x (Nat.le_refl x) (by omega)
  refine ⟨s, member, lower, ?_⟩
  by_contra short
  obtain ⟨t, other, first, last⟩ := covered s.stop (by omega) (by omega)
  have same : s ≠ t := by
    rintro rfl
    exact Nat.lt_irrefl _ last
  rcases List.Pairwise.forall_of_forall_of_flip (R := fun s t => s = t ∨ s.Before t ∨ t.Before s)
      (fun _ _ => .inl rfl)
    (apart.imp fun before => .inr (.inl before))
    (apart.imp fun before => .inr (.inr before)) member other with is | before | before
  · exact same is
  · unfold Span.Before at before
    omega
  · have wide := s.start_le_stop
    unfold Span.Before at before
    omega

theorem Apart.first_le (apart : Apart (s :: l)) (covered : Covers (s :: l) x) : s.start ≤ x := by
  obtain ⟨t, member, lower, -⟩ := covered
  rcases List.mem_cons.mp member with rfl | later
  · exact lower
  · have far := (List.pairwise_cons.mp apart).1 t later
    have wide := s.start_le_stop
    unfold Span.Before at far
    omega

theorem Apart.covers_tail (apart : Apart (s :: l)) : Covers l x ↔ Covers (s :: l) x ∧ s.stop < x := by
  have first := (List.pairwise_cons.mp apart).1
  rw [covers_cons]
  constructor
  · rintro ⟨t, member, lower, upper⟩
    have far := first t member
    unfold Span.Before at far
    exact ⟨.inr ⟨t, member, lower, upper⟩, by omega⟩
  · rintro ⟨⟨_, upper⟩ | covered, beyond⟩
    · exact absurd upper (Nat.not_lt.mpr (Nat.le_of_lt beyond))
    · exact covered

/-- The first span ends where the covered addresses do. -/
theorem Apart.not_covers_stop (apart : Apart (s :: l)) : ¬ Covers (s :: l) s.stop := by
  intro covered
  rcases covers_cons.mp covered with ⟨_, upper⟩ | later
  · exact Nat.lt_irrefl _ upper
  · exact Nat.lt_irrefl _ (apart.covers_tail.mp later).2

theorem Apart.stop_le {s' : Span} (apart : Apart (s :: l)) (start : s'.start = s.start)
    (same : ∀ x, Covers (s :: l) x ↔ Covers (s' :: l') x) : s'.stop ≤ s.stop := by
  by_contra longer
  have wide := s.start_le_stop
  refine apart.not_covers_stop ((same _).mpr ⟨s', List.mem_cons_self, ?_, ?_⟩) <;> omega

/-- Separate spans are the maximal runs of what they cover: there is one list of them. -/
theorem Apart.unique (apart : Apart l) (apart' : Apart l') (wide : ∀ s ∈ l, 0 < s.size) (wide' : ∀ s ∈ l', 0 < s.size)
    (same : ∀ x, Covers l x ↔ Covers l' x) : l = l' := by
  have starts : ∀ {s : Span} {l : List Span}, 0 < s.size → Covers (s :: l) s.start := fun filled =>
    ⟨_, List.mem_cons_self, Nat.le_refl _, Nat.lt_add_of_pos_right filled⟩
  induction l generalizing l' with
  | nil =>
    cases l' with
    | nil => rfl
    | cons s l' => exact absurd ((same s.start).mpr (starts (wide' s List.mem_cons_self))) covers_nil
  | cons s l ih =>
    cases l' with
    | nil => exact absurd ((same s.start).mp (starts (wide s List.mem_cons_self))) covers_nil
    | cons s' l' =>
      have start : s'.start = s.start := Nat.le_antisymm
        (apart'.first_le ((same _).mp (starts (wide s List.mem_cons_self))))
        (apart.first_le ((same _).mpr (starts (wide' s' List.mem_cons_self))))
      have stop : s'.stop = s.stop := Nat.le_antisymm (apart.stop_le start same)
        (apart'.stop_le start.symm fun x => (same x).symm)
      obtain rfl : s' = s := by
        obtain ⟨start₁, size₁⟩ := s
        obtain ⟨start₂, size₂⟩ := s'
        obtain rfl : start₂ = start₁ := start
        exact congrArg _ (Nat.add_left_cancel stop)
      have rest := ih (List.pairwise_cons.mp apart).2 (List.pairwise_cons.mp apart').2
        (fun t member => wide t (List.mem_cons_of_mem _ member))
        (fun t member => wide' t (List.mem_cons_of_mem _ member))
        fun x => by rw [apart.covers_tail, apart'.covers_tail, same]
      rw [rest]

/-- The maximal runs of the addresses in `P`, in order. -/
structure RunsOf (P : Nat → Prop) (l : List Span) : Prop where
  apart : Apart l
  filled : ∀ s ∈ l, 0 < s.size
  covers : ∀ x, Covers l x ↔ P x

theorem RunsOf.unique {P : Nat → Prop} (runs : RunsOf P l) (runs' : RunsOf P l') : l = l' :=
  runs.apart.unique runs'.apart runs.filled runs'.filled fun x => (runs.covers x).trans (runs'.covers x).symm

end Spans
