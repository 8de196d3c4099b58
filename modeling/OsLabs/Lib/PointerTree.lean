import Mathlib.Data.List.Basic
import Mathlib.Data.List.TakeWhile
import Mathlib.Order.Basic
import Mathlib.Order.Defs.LinearOrder
import Mathlib.Algebra.Order.Group.Nat
import Mathlib.Tactic.Common

namespace PointerTree

/-- A pointer tree of fixed height: a leaf is a block, an inner node is a
pointer block together with its children in entry order. -/
def Tree (B : Type) : Nat → Type
  | 0 => B
  | k + 1 => B × List (Tree B k)

variable {B : Type}

def leaf (b : B) : Tree B 0 := b

def node {k : Nat} (b : B) (cs : List (Tree B k)) : Tree B (k + 1) := (b, cs)

theorem exists_node {k : Nat} (t : Tree B (k + 1)) : ∃ b cs, t = node b cs := ⟨t.1, t.2, rfl⟩

def root : {k : Nat} → Tree B k → B
  | 0, b => b
  | _ + 1, (b, _) => b

/-- Every block of the tree, a pointer block before its children. -/
def nodes : {k : Nat} → Tree B k → List B
  | 0, b => [b]
  | _ + 1, (b, cs) => b :: cs.flatMap nodes

def leaves : {k : Nat} → Tree B k → List B
  | 0, b => [b]
  | _ + 1, (_, cs) => cs.flatMap leaves

/-- Every pointer block of the tree uses all of its `w` entries. -/
def Full (w : Nat) : {k : Nat} → Tree B k → Prop
  | 0, _ => True
  | _ + 1, (_, cs) => cs.length = w ∧ ∀ c ∈ cs, Full w c

/-- Filled from the left: only the last child of a node may be incomplete. -/
def Packed (w : Nat) : {k : Nat} → Tree B k → Prop
  | 0, _ => True
  | _ + 1, (_, cs) => cs.length ≤ w ∧ (∀ c ∈ cs.dropLast, Full w c) ∧ ∀ c ∈ cs, Packed w c

/-- The store names the children of every pointer block in its first entries. -/
def Held (entry : B → Nat → B) : {k : Nat} → Tree B k → Prop
  | 0, _ => True
  | _ + 1, (b, cs) => (∀ i c, cs[i]? = some c → entry b i = root c) ∧ ∀ c ∈ cs, Held entry c

/-- The entries behind the children of a pointer block are null. -/
def Ended (entry : B → Nat → B) (null : B) (w : Nat) : {k : Nat} → Tree B k → Prop
  | 0, _ => True
  | _ + 1, (b, cs) => (∀ i, cs.length ≤ i → i < w → entry b i = null) ∧ ∀ c ∈ cs, Ended entry null w c

section Equations
variable {k w : Nat} {b null : B} {cs : List (Tree B k)} {entry : B → Nat → B}

@[simp] theorem root_leaf : root (leaf b) = b := rfl
@[simp] theorem root_node : root (node b cs) = b := rfl
@[simp] theorem nodes_leaf : nodes (leaf b) = [b] := rfl
@[simp] theorem nodes_node : nodes (node b cs) = b :: cs.flatMap nodes := rfl
@[simp] theorem leaves_leaf : leaves (leaf b) = [b] := rfl
@[simp] theorem leaves_node : leaves (node b cs) = cs.flatMap leaves := rfl
@[simp] theorem full_leaf : Full w (leaf b) := trivial
@[simp] theorem packed_leaf : Packed w (leaf b) := trivial
@[simp] theorem held_leaf : Held entry (leaf b) := trivial
@[simp] theorem ended_leaf : Ended entry null w (leaf b) := trivial

end Equations

theorem root_mem_nodes : {k : Nat} → (t : Tree B k) → root t ∈ nodes t
  | 0, _ => List.mem_singleton.mpr rfl
  | _ + 1, (_, _) => List.mem_cons_self ..

theorem child_nodes {k : Nat} {b : B} {cs : List (Tree B k)} {c : Tree B k} (member : c ∈ cs) :
    nodes c ⊆ nodes (node b cs) := fun _ atChild =>
  List.mem_cons_of_mem _ (List.mem_flatMap.mpr ⟨c, member, atChild⟩)

/-- In a tree of distinct blocks no child holds the root. -/
theorem child_ne_root {k : Nat} {b : B} {cs : List (Tree B k)} {c : Tree B k} (distinct : (nodes (node b cs)).Nodup)
    (member : c ∈ cs) {d : B} (inside : d ∈ nodes c) : d ≠ b := by
  rw [nodes_node, List.nodup_cons] at distinct
  rintro rfl
  exact distinct.1 (List.mem_flatMap.mpr ⟨c, member, inside⟩)

theorem leaves_subset_nodes {k : Nat} (t : Tree B k) : leaves t ⊆ nodes t := by
  induction k with
  | zero => exact fun _ member => member
  | succ k ih =>
    obtain ⟨b, cs, rfl⟩ := exists_node t
    intro x member
    obtain ⟨c, child, inside⟩ := List.mem_flatMap.mp member
    exact child_nodes child (ih c inside)

theorem leaves_sublist {k : Nat} (t : Tree B k) : (leaves t).Sublist (nodes t) := by
  induction k with
  | zero => exact List.Sublist.refl _
  | succ k ih =>
    obtain ⟨b, cs, rfl⟩ := exists_node t
    refine List.Sublist.cons b ?_
    induction cs with
    | nil => exact List.Sublist.refl _
    | cons c cs below => exact (ih c).append below

theorem Full.length_leaves {w k : Nat} {t : Tree B k} (full : Full w t) : (leaves t).length = w ^ k := by
  induction k with
  | zero => rfl
  | succ k ih =>
    obtain ⟨b, cs, rfl⟩ := exists_node t
    have total : ∀ ds : List (Tree B k), (∀ c ∈ ds, Full w c) → (ds.flatMap leaves).length = ds.length * w ^ k := by
      intro ds whole
      induction ds with
      | nil => simp
      | cons d ds rest =>
        rw [List.flatMap_cons, List.length_append, ih (whole d (List.mem_cons_self ..)),
          rest (fun c member => whole c (List.mem_cons_of_mem _ member)), List.length_cons, Nat.succ_mul,
            Nat.add_comm]
    rw [leaves_node, total cs full.2, full.1, pow_succ, Nat.mul_comm]

theorem Full.packed {w k : Nat} {t : Tree B k} (full : Full w t) : Packed w t := by
  induction k with
  | zero => trivial
  | succ k ih =>
    obtain ⟨b, cs, rfl⟩ := exists_node t
    exact ⟨full.1.le, fun c member => full.2 c (List.dropLast_subset _ member), fun c member => ih (full.2 c member)⟩

theorem Held.congr {entry other : B → Nat → B} {k : Nat} {t : Tree B k}
    (same : ∀ b ∈ nodes t, entry b = other b) (held : Held entry t) : Held other t := by
  induction k with
  | zero => trivial
  | succ k ih =>
    obtain ⟨b, cs, rfl⟩ := exists_node t
    refine ⟨fun i c found => ?_, fun c member =>
      ih (fun d inside => same d (child_nodes member inside)) (held.2 c member)⟩
    rw [← same b (List.mem_cons_self ..)]
    exact held.1 i c found

theorem Ended.congr {entry other : B → Nat → B} {null : B} {w k : Nat} {t : Tree B k}
    (same : ∀ b ∈ nodes t, entry b = other b) (ended : Ended entry null w t) : Ended other null w t := by
  induction k with
  | zero => trivial
  | succ k ih =>
    obtain ⟨b, cs, rfl⟩ := exists_node t
    refine ⟨fun i lower upper => ?_, fun c member =>
      ih (fun d inside => same d (child_nodes member inside)) (ended.2 c member)⟩
    rw [← same b (List.mem_cons_self ..)]
    exact ended.1 i lower upper

section Append
variable {w k : Nat} {b : B} {cs : List (Tree B k)} {c : Tree B k} {entry : B → Nat → B} {null : B}

theorem nodes_append : nodes (node b (cs ++ [c])) = nodes (node b cs) ++ nodes c := by
  simp

theorem leaves_append : leaves (node b (cs ++ [c])) = leaves (node b cs) ++ leaves c := by
  simp

theorem Packed.append (room : cs.length < w) (full : ∀ d ∈ cs, Full w d) (packed : Packed w c) :
    Packed w (node b (cs ++ [c])) := by
  refine ⟨by simpa using Nat.succ_le_of_lt room, by simpa using full, fun d member => ?_⟩
  rcases List.mem_append.mp member with earlier | last
  · exact (full d earlier).packed
  · rw [List.mem_singleton.mp last]
    exact packed

/-- An element of a list with one more at its end is an old one or that one. -/
theorem snoc_cases {α : Type} {l : List α} {a b : α} {i : Nat} (found : (l ++ [a])[i]? = some b) :
    l[i]? = some b ∨ i = l.length ∧ a = b := by
  rw [List.getElem?_append] at found
  split at found
  · exact .inl found
  · have bound := (List.getElem?_eq_some_iff.mp found).1
    rw [List.length_singleton] at bound
    have last : i = l.length := by omega
    subst last
    rw [Nat.sub_self] at found
    exact .inr ⟨rfl, Option.some.inj found⟩

theorem Held.append (held : Held entry (node b cs)) (heldChild : Held entry c)
    (atEnd : entry b cs.length = root c) : Held entry (node b (cs ++ [c])) := by
  constructor
  · intro i d found
    rcases snoc_cases found with old | ⟨rfl, rfl⟩
    · exact held.1 i d old
    · exact atEnd
  · intro d member
    rcases List.mem_append.mp member with earlier | last
    · exact held.2 d earlier
    · rw [List.mem_singleton.mp last]
      exact heldChild

end Append

section Walk
variable (entry : B → Nat → B) (stop : B → Bool) (w : Nat)

/-- The pointers of a block up to the first one that stops the walk. -/
def pointers (b : B) : List B := ((List.range w).map (entry b)).takeWhile (fun p => !stop p)

/-- The data blocks met by following `k` levels of pointers from a block. -/
def scan : Nat → B → List B
  | 0, b => [b]
  | k + 1, b => (pointers entry stop w b).flatMap (scan k)

/-- All blocks met by following `k` levels of pointers, pointer blocks included. -/
def reach : Nat → B → List B
  | 0, b => [b]
  | k + 1, b => b :: (pointers entry stop w b).flatMap (reach k)

variable {entry stop w}

/-- The walk over a held node sees its children first, then what the
entries behind them name. -/
theorem pointers_node (stop : B → Bool) {k : Nat} {b : B} {cs : List (Tree B k)} (held : Held entry (node b cs))
    (fits : cs.length ≤ w) (passes : ∀ c ∈ cs, stop (root c) = false) :
    pointers entry stop w b = cs.map root ++
      ((List.range' cs.length (w - cs.length)).map (entry b)).takeWhile (fun p => !stop p) := by
  have front : (List.range cs.length).map (entry b) = cs.map root := by
    refine List.ext_getElem (by simp) fun i left right => ?_
    simp only [List.getElem_map, List.getElem_range]
    exact held.1 i _ (List.getElem?_eq_getElem (by simpa using right))
  have split : List.range w = List.range cs.length ++ List.range' cs.length (w - cs.length) := by
    have parts := List.range'_append_1 (s := 0) (m := cs.length) (n := w - cs.length)
    rw [Nat.zero_add, Nat.add_sub_cancel' fits] at parts
    rw [List.range_eq_range', List.range_eq_range', parts]
  unfold pointers
  rw [split, List.map_append, front, List.takeWhile_append_of_pos]
  intro p member
  obtain ⟨c, child, rfl⟩ := List.mem_map.mp member
  simp [passes c child]

theorem reach_tree [DecidableEq B] {null : B} {k : Nat} {t : Tree B k} (held : Held entry t)
    (ended : Ended entry null w t) (packed : Packed w t) (proper : ∀ b ∈ nodes t, b ≠ null) :
    reach entry (fun p => p == null) w k (root t) = nodes t := by
  induction k with
  | zero => rfl
  | succ k ih =>
    obtain ⟨b, cs, rfl⟩ := exists_node t
    have passes : ∀ c ∈ cs, (root c == null) = false := fun c member =>
      beq_eq_false_iff_ne.mpr (proper _ (child_nodes member (root_mem_nodes c)))
    have rest : ((List.range' cs.length (w - cs.length)).map (entry b)).takeWhile (fun p => !(p == null)) = [] := by
      cases size : w - cs.length with
      | zero => rfl
      | succ v =>
        have first : entry b cs.length = null := ended.1 _ le_rfl (by omega)
        simp [List.range'_succ, first]
    have children : cs.flatMap (fun c => reach entry (fun p => p == null) w k (root c)) = cs.flatMap nodes :=
      List.flatMap_congr fun c member => ih (held.2 c member) (ended.2 c member) (packed.2.2 c member)
        (fun d inside => proper d (child_nodes member inside))
    have seen := pointers_node (fun p => p == null) held packed.1 passes
    simp only [rest, List.append_nil] at seen
    simp only [reach, root_node, nodes_node, seen, List.flatMap_map, children]

theorem pointers_pass {b c : B} (member : c ∈ pointers entry stop w b) : stop c = false := by
  simpa using List.mem_takeWhile_imp member

/-- A walk from a block that passes meets only blocks that pass. -/
theorem reach_pass {k : Nat} {b c : B} (passes : stop b = false) (member : c ∈ reach entry stop w k b) :
    stop c = false := by
  induction k generalizing b with
  | zero => rwa [List.mem_singleton.mp member]
  | succ k ih =>
    rcases List.mem_cons.mp member with rfl | below
    · exact passes
    · obtain ⟨d, pointer, inside⟩ := List.mem_flatMap.mp below
      exact ih (pointers_pass pointer) inside

theorem scan_ne_nil {b : B} (positive : 0 < w) (self : entry b 0 = b) (passes : stop b = false) (k : Nat) :
    scan entry stop w k b ≠ [] := by
  induction k with
  | zero => simp [scan]
  | succ k ih =>
    obtain ⟨v, rfl⟩ : ∃ v, w = v + 1 := ⟨w - 1, by omega⟩
    simp only [scan, pointers, List.range_succ_eq_map, List.map_cons, self, List.takeWhile_cons, passes,
      Bool.not_false, if_true, List.flatMap_cons, ne_eq, List.append_eq_nil_iff, ih, false_and, not_false_eq_true]

/-- Scanning a packed tree yields its leaves in order. What follows them comes
from the unused entries: nothing in a full tree, and something otherwise when
the null block is itself scanned. -/
theorem scan_tree (null : B) {k : Nat} {t : Tree B k} (held : Held entry t) (packed : Packed w t)
    (passes : ∀ b ∈ nodes t, stop b = false) :
    ∃ rest, scan entry stop w k (root t) = leaves t ++ rest ∧ (Full w t → rest = []) ∧
      (Ended entry null w t → entry null 0 = null → stop null = false → ¬ Full w t → rest ≠ []) := by
  induction k with
  | zero => exact ⟨[], rfl, fun _ => rfl, fun _ _ _ partly => absurd trivial partly⟩
  | succ k ih =>
    obtain ⟨b, cs, rfl⟩ := exists_node t
    have child : ∀ c ∈ cs, ∃ rest, scan entry stop w k (root c) = leaves c ++ rest ∧ (Full w c → rest = []) ∧
        (Ended entry null w c → entry null 0 = null → stop null = false → ¬ Full w c → rest ≠ []) := fun c member =>
      ih (held.2 c member) (packed.2.2 c member) (fun d inside => passes d (child_nodes member inside))
    have whole : ∀ c ∈ cs, Full w c → scan entry stop w k (root c) = leaves c := by
      intro c member full
      obtain ⟨rest, value, closed, _⟩ := child c member
      rw [value, closed full, List.append_nil]
    have front := pointers_node stop held packed.1
      (fun c member => passes _ (child_nodes member (root_mem_nodes c)))
    simp only [scan, show root (node b cs) = b from rfl, front, List.flatMap_append, List.flatMap_map]
    generalize tailEq : ((List.range' cs.length (w - cs.length)).map (entry b)).takeWhile (fun p => !stop p) = tail
    have unused : Ended entry null w (node b cs) → entry null 0 = null → stop null = false →
        cs.length < w → tail.flatMap (scan entry stop w k) ≠ [] := by
      intro ended self inRange room empty
      obtain ⟨v, atV⟩ : ∃ v, w - cs.length = v + 1 := ⟨w - cs.length - 1, by omega⟩
      have first : entry b cs.length = null := ended.1 _ le_rfl room
      rw [← tailEq, atV, List.range'_succ, List.map_cons, List.takeWhile_cons] at empty
      simp only [first, inRange, Bool.not_false, if_true, List.flatMap_cons, List.append_eq_nil_iff] at empty
      exact scan_ne_nil (Nat.zero_lt_of_lt room) self inRange k empty.1
    rcases List.eq_nil_or_concat cs with rfl | ⟨init, last, rfl⟩
    · refine ⟨tail.flatMap (scan entry stop w k), rfl, fun full => ?_, fun ended self inRange partly => ?_⟩
      · have width : 0 = w := full.1
        subst width
        rw [← tailEq]
        rfl
      · by_cases room : 0 < w
        · exact unused ended self inRange room
        · exact absurd ⟨show 0 = w by omega, by simp⟩ partly
    · simp only [List.concat_eq_append] at *
      have lastMem : last ∈ init ++ [last] := List.mem_append_right _ (List.mem_singleton.mpr rfl)
      have initFull : ∀ c ∈ init, Full w c := fun c member => packed.2.1 c (by simpa using member)
      have initScan : init.flatMap (fun c => scan entry stop w k (root c)) = init.flatMap leaves :=
        List.flatMap_congr fun c member => whole c (List.mem_append_left _ member) (initFull c member)
      obtain ⟨rest, value, closed, more⟩ := child last lastMem
      refine ⟨rest ++ tail.flatMap (scan entry stop w k), ?_, fun full => ?_, fun ended self inRange partly => ?_⟩
      · simp only [leaves_node, List.flatMap_append, initScan, List.flatMap_singleton, value, List.append_assoc]
      · have width : (init ++ [last]).length = w := full.1
        rw [closed (full.2 last lastMem), ← tailEq, width, Nat.sub_self]
        rfl
      · by_cases room : (init ++ [last]).length < w
        · exact fun empty => unused ended self inRange room (List.append_eq_nil_iff.mp empty).2
        · have lastPartly : ¬ Full w last := by
            intro lastFull
            refine partly ⟨le_antisymm packed.1 (not_lt.mp room), fun c member => ?_⟩
            rcases List.mem_append.mp member with earlier | equal
            · exact initFull c earlier
            · rw [List.mem_singleton.mp equal]
              exact lastFull
          exact fun empty => more (ended.2 last lastMem) self inRange lastPartly (List.append_eq_nil_iff.mp empty).1

end Walk

end PointerTree
