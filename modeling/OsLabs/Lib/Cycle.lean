import Mathlib.Data.List.Rotate
import Mathlib.Data.List.Nodup
import OsLabs.Lib.Ring

namespace Cycle

variable {P : Type} {next next' : P → P} {p q b : P} {order front back rest : List P}

/-- Following the links from any node of `order` visits the nodes in this order, the first again after the last. -/
def Circle (next : P → P) (order : List P) : Prop := order.map next = order.rotate 1

theorem circle_cons : Circle next (p :: rest) ↔ (p :: rest).map next = rest ++ [p] := by
  rw [Circle, List.rotate_cons_succ, List.rotate_zero]

/-- A circle has no first node. -/
theorem Circle.swap (circle : Circle next (front ++ back)) : Circle next (back ++ front) := by
  rw [← List.rotate_append_length_eq front back]
  unfold Circle at circle ⊢
  rw [List.map_rotate, circle, List.rotate_rotate, List.rotate_rotate, Nat.add_comm]

theorem Circle.rotated (circle : Circle next (front ++ p :: back)) :
    Circle next (p :: (back ++ front)) := circle.swap

/-- A node has one node before it. -/
theorem Circle.injective (circle : Circle next order) (once : order.Nodup) (here : p ∈ order) (there : q ∈ order)
    (same : next p = next q) : p = q := by
  have images : (order.map next).Nodup := by
    rw [circle]
    exact List.nodup_rotate.mpr once
  exact List.inj_on_of_nodup_map images here there same

theorem Circle.next_eq (circle : Circle next (front ++ p :: q :: back)) : next p = q := by
  have turned := circle_cons.mp circle.rotated
  rw [List.map_cons] at turned
  exact (List.cons.inj turned).1

theorem Circle.next_last (circle : Circle next (q :: (front ++ [p]))) : next p = q := by
  have whole : Circle next ((q :: front) ++ [p]) := circle
  have turned : Circle next ([] ++ p :: q :: front) := whole.swap
  exact turned.next_eq

/-- Only the links of the circle's own nodes matter. -/
theorem Circle.congr (circle : Circle next order) (same : ∀ q ∈ order, next' q = next q) : Circle next' order := by
  rw [Circle, List.map_congr_left same]
  exact circle

/-- `b` is put behind `p`. -/
theorem Circle.insert (circle : Circle next (front ++ p :: back)) (forward : next' p = b) (onward : next' b = next p)
    (same : ∀ q ∈ front ++ back, next' q = next q) : Circle next' (front ++ p :: b :: back) := by
  have turned := circle_cons.mp circle.rotated
  rw [List.map_cons] at turned
  have others : (back ++ front).map next' = (back ++ front).map next :=
    List.map_congr_left fun q member => same q (List.mem_append.mpr (List.mem_append.mp member).symm)
  have grown : Circle next' ((p :: b :: back) ++ front) := by
    change Circle next' (p :: b :: (back ++ front))
    rw [circle_cons, List.map_cons, List.map_cons, others, forward, onward, turned, List.cons_append]
  exact grown.swap

/-- The node behind `p` is taken out. -/
theorem Circle.remove (circle : Circle next (front ++ p :: b :: back)) (forward : next' p = next b)
    (same : ∀ q ∈ front ++ back, next' q = next q) : Circle next' (front ++ p :: back) := by
  have turned := circle_cons.mp circle.rotated
  rw [List.map_cons, List.cons_append, List.map_cons, List.cons_append] at turned
  have others : (back ++ front).map next' = (back ++ front).map next :=
    List.map_congr_left fun q member => same q (List.mem_append.mpr (List.mem_append.mp member).symm)
  have shrunk : Circle next' ((p :: back) ++ front) := by
    change Circle next' (p :: (back ++ front))
    rw [circle_cons, List.map_cons, others, forward]
    exact (List.cons.inj turned).2
  exact shrunk.swap

/-- Each node of the path links to the one behind it. -/
def Linked (next : P → P) (path : List P) : Prop := path.IsChain fun p q => next p = q

theorem linked_of_map {last : P} (images : (p :: rest).map next = rest ++ [last]) :
    Linked next (p :: (rest ++ [last])) := by
  induction rest generalizing p with
  | nil => exact .cons_cons (List.cons.inj images).1 (.singleton last)
  | cons q rest ih =>
    obtain ⟨first, images⟩ := List.cons.inj images
    exact .cons_cons first (ih images)

/-- From any node of the circle the links lead round and back to it. -/
theorem Circle.linked (circle : Circle next (front ++ p :: back)) : Linked next (p :: (back ++ front ++ [p])) :=
  linked_of_map (circle_cons.mp circle.rotated)

/-- A search along a path ends at a node that stops it, when the path has one. -/
theorem Linked.walk {stop : P → Bool} {fuel : Nat} (linked : Linked next (p :: rest))
    (found : ∃ q ∈ p :: rest, stop q = true) (enough : rest.length < fuel) :
    ∃ q ∈ p :: rest, stop q = true ∧ Ring.walk next stop fuel p = some q := by
  obtain ⟨fuel, rfl⟩ : ∃ k, fuel = k + 1 := ⟨fuel - 1, by omega⟩
  by_cases here : stop p = true
  · exact ⟨p, List.mem_cons_self, here, if_pos here⟩
  obtain ⟨q, member, stops⟩ := found
  have later : q ∈ rest := (List.mem_cons.mp member).resolve_left fun is => here (is ▸ stops)
  induction rest generalizing p fuel with
  | nil => cases later
  | cons c rest ih =>
    obtain ⟨forward, linked⟩ := List.isChain_cons_cons.mp linked
    rw [List.length_cons] at enough
    obtain ⟨fuel, rfl⟩ : ∃ k, fuel = k + 1 := ⟨fuel - 1, by omega⟩
    rw [Ring.walk, if_neg here, forward]
    by_cases there : stop c = true
    · exact ⟨c, List.mem_cons_of_mem p List.mem_cons_self, there, if_pos there⟩
    have beyond : q ∈ rest := (List.mem_cons.mp later).resolve_left fun is => there (is ▸ stops)
    obtain ⟨r, inside, ends, run⟩ := ih linked fuel (by omega) there later beyond
    exact ⟨r, List.mem_cons_of_mem p inside, ends, run⟩

/-- A search that some node of the circle ends does end, wherever it begins. -/
theorem Circle.walk {stop : P → Bool} {fuel : Nat} (circle : Circle next order) (start : p ∈ order)
    (found : ∃ q ∈ order, stop q = true) (enough : order.length < fuel) :
    ∃ q ∈ order, stop q = true ∧ Ring.walk next stop fuel p = some q := by
  obtain ⟨front, back, rfl⟩ := List.append_of_mem start
  obtain ⟨q, member, stops⟩ := found
  have same : ∀ r, r ∈ p :: (back ++ front ++ [p]) ↔ r ∈ front ++ p :: back := by
    intro r
    simp only [List.mem_cons, List.mem_append, List.not_mem_nil, or_false]
    tauto
  obtain ⟨r, inside, ends, run⟩ : ∃ r ∈ p :: (back ++ front ++ [p]), stop r = true ∧
      Ring.walk next stop fuel p = some r := circle.linked.walk ⟨q, (same q).mpr member, stops⟩
    (by simp only [List.length_append, List.length_cons, List.length_nil] at enough ⊢; omega)
  exact ⟨r, (same r).mp inside, ends, run⟩

end Cycle
