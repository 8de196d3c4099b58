import Mathlib.Algebra.Order.Ring.Nat
import Mathlib.Tactic.Ring
import OsLabs.Lib.PointerTree
import OsLabs.Lib.TreeCost

namespace PointerTree

variable {B : Type} (entry : B → Nat → B) (w : Nat)

/-- The data blocks `k` levels of pointers below a block, in entry order. -/
def below : Nat → B → List B
  | 0, b => [b]
  | k + 1, b => (List.range w).flatMap fun i => below k (entry b i)

/-- The blocks that lead to the first `q` data blocks below a block, and these: a pointer block before
what it points to, and nothing behind an entry that no data block is needed from. -/
def used : Nat → Nat → B → List B
  | 0, q, b => if q = 0 then [] else [b]
  | k + 1, q, b => if q = 0 then [] else b :: (List.range w).flatMap fun i => used k (q - i * w ^ k) (entry b i)

variable {entry w} {k : Nat}

theorem used_zero (k : Nat) (b : B) : used entry w k 0 b = [] := by
  cases k <;> rfl

/-- A scan that nothing stops. -/
theorem scan_eq_below (k : Nat) (b : B) : scan entry (fun _ => false) w k b = below entry w k b := by
  induction k generalizing b with
  | zero => rfl
  | succ k ih =>
    have all : pointers entry (fun _ => false) w b = (List.range w).map (entry b) :=
      List.takeWhile_eq_self_iff.mpr fun _ _ => rfl
    rw [scan, below, all, List.flatMap_map]
    exact List.flatMap_congr fun i _ => ih (entry b i)

/-- The leaves of a tree come first among the data blocks below its root. -/
theorem below_tree {t : Tree B k} (held : Held entry t) (packed : Packed w t) :
    ∃ rest, below entry w k (root t) = leaves t ++ rest ∧ (Full w t → rest = []) := by
  obtain ⟨rest, value, closed, _⟩ := @scan_tree B entry (fun _ => false) w (root t) k t held packed fun _ _ => rfl
  exact ⟨rest, by rw [← scan_eq_below, value], closed⟩

theorem Packed.length_leaves_le {t : Tree B k} (packed : Packed w t) : (leaves t).length ≤ w ^ k := by
  induction k with
  | zero => exact le_rfl
  | succ k ih =>
    obtain ⟨b, cs, rfl⟩ := exists_node t
    have total : ∀ ds : List (Tree B k), (∀ c ∈ ds, Packed w c) → (ds.flatMap leaves).length ≤ ds.length * w ^ k := by
      intro ds each
      induction ds with
      | nil => simp
      | cons d ds rest =>
        have first := ih (each d (List.mem_cons_self ..))
        have others := rest fun c member => each c (List.mem_cons_of_mem _ member)
        rw [List.flatMap_cons, List.length_append, List.length_cons, Nat.succ_mul]
        omega
    calc (leaves (node b cs)).length ≤ cs.length * w ^ k := total cs packed.2.2
      _ ≤ w * w ^ k := Nat.mul_le_mul_right _ packed.1
      _ = w ^ (k + 1) := (pow_succ' w k).symm

/-- `q` data blocks are all the leaves of the tree, or the tree is full and they are at least as many. -/
def Exhausts (w q : Nat) {k : Nat} (t : Tree B k) : Prop := q = (leaves t).length ∨ Full w t ∧ w ^ k ≤ q

/-- How many data blocks there is room for in the first `i` of several trees. -/
def start (w : Nat) (level : Nat → Nat) (i : Nat) : Nat := ((List.range i).map fun j => w ^ level j).sum

@[simp] theorem start_zero (level : Nat → Nat) : start w level 0 = 0 := rfl

theorem start_succ (level : Nat → Nat) (i : Nat) :
    start w level (i + 1) = w ^ level 0 + start w (fun j => level (j + 1)) i := by
  unfold start
  rw [List.range_succ_eq_map, List.map_cons, List.sum_cons, List.map_map]
  rfl

theorem start_const (k i : Nat) : start w (fun _ => k) i = i * w ^ k := by
  induction i with
  | zero => rw [start_zero, Nat.zero_mul]
  | succ i ih => rw [start_succ, ih, Nat.succ_mul, Nat.add_comm]

/-- What is used of several trees behind one another, all full except for the last one, lies in these trees. -/
theorem used_forest (ts : List ((k : Nat) × Tree B k)) : ∀ (room q : Nat) (level : Nat → Nat) (name : Nat → B),
    (∀ t ∈ ts, ∀ q, Exhausts w q t.2 → (used entry w t.1 q (root t.2)).Sublist (nodes t.2)) →
      (∀ t ∈ ts, Packed w t.2) →
    (∀ i t, ts[i]? = some t → level i = t.1 ∧ name i = root t.2) → (∀ t ∈ ts.dropLast, Full w t.2) →
    (q = (ts.flatMap fun t => leaves t.2).length ∨
      ts.length = room ∧ (∀ t ∈ ts, Full w t.2) ∧ start w level room ≤ q) →
    ((List.range room).flatMap fun i => used entry w (level i) (q - start w level i) (name i)).Sublist
      (ts.flatMap fun t => nodes t.2) := by
  induction ts with
  | nil =>
    rintro room q level name - - - - (rfl | ⟨rfl, -⟩) <;> simp [used_zero]
  | cons t ts ih =>
    intro room q level name each packed named front enough
    cases room with
    | zero => exact List.nil_sublist _
    | succ room =>
      obtain ⟨height, top⟩ := named 0 t rfl
      have first : Exhausts w q t.2 := by
        rcases enough with all | ⟨-, full, enough⟩
        · cases ts with
          | nil => exact .inl (by simpa using all)
          | cons u us =>
            have full : Full w t.2 := front t (by simp)
            refine .inr ⟨full, ?_⟩
            rw [all, List.flatMap_cons, List.length_append, full.length_leaves]
            exact Nat.le_add_right _ _
        · refine .inr ⟨full t (List.mem_cons_self ..), ?_⟩
          rw [start_succ, height] at enough
          omega
      have rest : q - w ^ level 0 = (ts.flatMap fun t => leaves t.2).length ∨ ts.length = room ∧
          (∀ t ∈ ts, Full w t.2) ∧
          start w (fun i => level (i + 1)) room ≤ q - w ^ level 0 := by
        rcases enough with all | ⟨length, full, enough⟩
        · left
          rw [all, List.flatMap_cons, List.length_append, height]
          cases ts with
          | nil => simpa using Nat.sub_eq_zero_of_le (packed t (by simp)).length_leaves_le
          | cons u us =>
            rw [(front t (by simp)).length_leaves]
            exact Nat.add_sub_cancel_left _ _
        · refine .inr ⟨by simpa using length, fun u member => full u (List.mem_cons_of_mem _ member), ?_⟩
          rw [start_succ] at enough
          omega
      have onward := ih room (q - w ^ level 0) (fun i => level (i + 1)) (fun i => name (i + 1))
        (fun u member => each u (List.mem_cons_of_mem _ member))
        (fun u member => packed u (List.mem_cons_of_mem _ member))
        (fun i u found => named (i + 1) u (by simpa using found))
        (fun u member => front u
          (by cases ts with | nil => simp at member | cons => exact List.mem_cons_of_mem _ member)) rest
      simp only [Nat.sub_sub, ← start_succ] at onward
      rw [List.range_succ_eq_map, List.flatMap_cons, List.flatMap_map, List.flatMap_cons, start_zero, Nat.sub_zero,
        height, top]
      exact (each t (List.mem_cons_self ..) q first).append onward

/-- The blocks used for all the leaves of a tree are blocks of the tree, in the same order. -/
theorem used_sublist {t : Tree B k} (held : Held entry t) (packed : Packed w t) {q : Nat} (enough : Exhausts w q t) :
    (used entry w k q (root t)).Sublist (nodes t) := by
  induction k generalizing q with
  | zero =>
    unfold used
    split
    · exact List.nil_sublist _
    · exact List.Sublist.refl _
  | succ k ih =>
    obtain ⟨b, cs, rfl⟩ := exists_node t
    unfold used
    split
    · exact List.nil_sublist _
    · have children := @used_forest B entry w (cs.map (Sigma.mk k)) w q (fun _ => k) (entry b)
      simp only [List.forall_mem_map, List.flatMap_map, start_const, List.length_map, ← List.map_dropLast,
        List.getElem?_map,
        Option.map_eq_some_iff] at children
      refine List.Sublist.cons_cons b
        (children (fun c member _ => ih (held.2 c member) (packed.2.2 c member)) packed.2.2 ?_
        packed.2.1 ?_)
      · rintro i _ ⟨c, found, rfl⟩
        exact ⟨rfl, held.1 i c found⟩
      · rcases enough with all | ⟨full, enough⟩
        · exact .inl all
        · exact .inr ⟨full.1, full.2, by rwa [← pow_succ']⟩

/-- How many blocks are used below pointers of one level. -/
theorem length_used_entries (positive : 0 < w) (each : ∀ q b, (used entry w k q b).length = cost w k (min q (w ^ k)))
    (room : Nat) : ∀ (q : Nat) (name : Nat → B), ((List.range room).flatMap fun i =>
    used entry w k (q - i * w ^ k) (name i)).length = cost w k (min q (room * w ^ k)) := by
  induction room with
  | zero => exact fun q name => by rw [Nat.zero_mul, Nat.min_zero, cost_zero positive]; rfl
  | succ room rest =>
    intro q name
    rw [cost_trees positive, List.range_succ_eq_map, List.flatMap_cons, List.length_append, Nat.zero_mul,
      Nat.sub_zero,
      each, ← rest (q - w ^ k) fun i => name (i + 1), List.flatMap_map]
    refine congrArg (_ + List.length ·) (List.flatMap_congr fun i _ => ?_)
    rw [Nat.succ_mul, Nat.add_comm, Nat.sub_sub]

/-- How many blocks are used: the cost of the data blocks that there is room for. -/
theorem length_used (positive : 0 < w) (q : Nat) (b : B) :
    (used entry w k q b).length = cost w k (min q (w ^ k)) := by
  induction k generalizing q b with
  | zero =>
    unfold used
    split <;> simp [cost] <;> omega
  | succ k ih =>
    unfold used
    split
    · rename_i none
      rw [none, Nat.zero_min, cost_zero positive, List.length_nil]
    · have width : 0 < w ^ (k + 1) := Nat.pow_pos positive
      rw [cost_tree (by omega) (min_le_right _ _), List.length_cons,
        length_used_entries positive ih, ← pow_succ', Nat.add_comm]

end PointerTree
