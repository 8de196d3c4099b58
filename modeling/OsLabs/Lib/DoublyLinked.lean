import Mathlib.Data.List.Chain

namespace DoublyLinked

variable {P : Type} {next pred next' pred' : P → Option P} {front back path : List P} {a b x p : P}

/-- Neighbours on the path point at each other. -/
def Linked (next pred : P → Option P) (path : List P) : Prop :=
  path.IsChain fun p q => next p = some q ∧ pred q = some p

theorem linked_split : Linked next pred (front ++ a :: b :: back) ↔
    Linked next pred (front ++ [a]) ∧ (next a = some b ∧ pred b = some a) ∧ Linked next pred (b :: back) :=
  List.isChain_append_cons_cons

/-- The links in front of a node are kept when the nodes on them keep theirs. -/
theorem Linked.front_congr (linked : Linked next pred (front ++ [a])) (nexts : ∀ p ∈ front, next' p = next p)
    (preds : ∀ p ∈ front ++ [a], pred' p = pred p) : Linked next' pred' (front ++ [a]) := by
  obtain ⟨inner, _, last⟩ := List.isChain_append.mp linked
  refine List.isChain_append.mpr ⟨inner.imp_of_mem_imp ?_, List.isChain_singleton a, fun p final q member => ?_⟩
  · rintro p q before after ⟨forward, backward⟩
    exact ⟨(nexts p before).trans forward, (preds q (List.mem_append_left _ after)).trans backward⟩
  · obtain ⟨forward, backward⟩ := last p final q member
    obtain rfl : a = q := Option.some.inj member
    exact ⟨(nexts p (List.mem_of_getLast? final)).trans forward,
      (preds a (List.mem_append_right _ List.mem_cons_self)).trans backward⟩

/-- The links behind a node are kept when the nodes on them keep theirs. -/
theorem Linked.back_congr (linked : Linked next pred (b :: back)) (nexts : ∀ p ∈ b :: back, next' p = next p)
    (preds : ∀ p ∈ back, pred' p = pred p) : Linked next' pred' (b :: back) := by
  obtain ⟨first, inner⟩ := List.isChain_cons.mp linked
  refine List.isChain_cons.mpr ⟨fun q member => ?_, inner.imp_of_mem_imp ?_⟩
  · obtain ⟨forward, backward⟩ := first q member
    exact ⟨(nexts b List.mem_cons_self).trans forward, (preds q (List.mem_of_head? member)).trans backward⟩
  · rintro p q before after ⟨forward, backward⟩
    exact ⟨(nexts p (List.mem_cons_of_mem b before)).trans forward, (preds q after).trans backward⟩

/-- A node is put between two neighbours. -/
theorem Linked.insert (linked : Linked next pred (front ++ a :: b :: back))
    (nexts : ∀ p ∈ front ++ b :: back, next' p = next p) (preds : ∀ p ∈ front ++ a :: back, pred' p = pred p)
    (left : next' a = some x ∧ pred' x = some a) (right : next' x = some b ∧ pred' b = some x) :
    Linked next' pred' (front ++ a :: x :: b :: back) := by
  obtain ⟨before, _, after⟩ := linked_split.mp linked
  refine linked_split.mpr ⟨before.front_congr ?_ ?_, left, List.isChain_cons_cons.mpr ⟨right, after.back_congr ?_ ?_⟩⟩
  · exact fun p member => nexts p (List.mem_append_left _ member)
  · exact fun p member => preds p (by simp only [List.mem_append, List.mem_cons] at member ⊢; tauto)
  · exact fun p member => nexts p (List.mem_append_right _ member)
  · exact fun p member => preds p (List.mem_append_right _ (List.mem_cons_of_mem a member))

/-- A node is taken out from between its neighbours. -/
theorem Linked.remove (linked : Linked next pred (front ++ a :: x :: b :: back))
    (nexts : ∀ p ∈ front ++ b :: back, next' p = next p) (preds : ∀ p ∈ front ++ a :: back, pred' p = pred p)
    (joined : next' a = some b ∧ pred' b = some a) : Linked next' pred' (front ++ a :: b :: back) := by
  obtain ⟨before, _, after⟩ := linked_split.mp linked
  refine linked_split.mpr ⟨before.front_congr ?_ ?_, joined,
    Linked.back_congr (List.isChain_cons_cons.mp after).2 ?_ ?_⟩
  · exact fun p member => nexts p (List.mem_append_left _ member)
  · exact fun p member => preds p (by simp only [List.mem_append, List.mem_cons] at member ⊢; tauto)
  · exact fun p member => nexts p (List.mem_append_right _ member)
  · exact fun p member => preds p (List.mem_append_right _ (List.mem_cons_of_mem a member))

/-- Read from its end the path is linked the other way round. -/
theorem Linked.reverse (linked : Linked next pred path) : Linked pred next path.reverse :=
  List.isChain_reverse.mpr (linked.imp fun _ _ both => ⟨both.2, both.1⟩)

/-- A node that is not the last one points forward. -/
theorem Linked.next_some (linked : Linked next pred (path ++ [b])) (member : p ∈ path) : ∃ q, next p = some q := by
  obtain ⟨front, back, rfl⟩ := List.append_of_mem member
  rw [List.append_assoc, List.cons_append] at linked
  cases back with
  | nil => exact ⟨b, (linked_split.mp linked).2.1.1⟩
  | cons q back => exact ⟨q, (linked_split.mp linked).2.1.1⟩

/-- A node that is not the first one points backward. -/
theorem Linked.pred_some (linked : Linked next pred (a :: path)) (member : p ∈ path) : ∃ q, pred p = some q := by
  have reversed := linked.reverse
  rw [List.reverse_cons] at reversed
  exact reversed.next_some (List.mem_reverse.mpr member)

/-- The nodes reached when a link is followed so many times. -/
def trail (link : P → Option P) : Nat → P → Option (List P)
  | 0, _ => some []
  | k + 1, p => do
    let q ← link p
    let rest ← trail link k q
    return q :: rest

/-- Following the links of a path visits its nodes. -/
theorem Linked.trail (linked : Linked next pred (p :: path)) : trail next path.length p = some path := by
  induction path generalizing p with
  | nil => rfl
  | cons q path ih =>
    obtain ⟨⟨forward, _⟩, rest⟩ := List.isChain_cons_cons.mp linked
    simp only [DoublyLinked.trail, List.length_cons, forward, ih rest, Option.bind_eq_bind, Option.bind_some,
      Option.pure_def]

end DoublyLinked
