import Mathlib.Data.List.Chain
import Mathlib.Data.List.Nodup
import Mathlib.Logic.Function.Basic

namespace Ring

variable {P : Type} {next prev next' prev' : P → P} {h a b c p q : P} {order path front back : List P}

/-- Neighbours on the path point at each other. -/
def Joined (next prev : P → P) (path : List P) : Prop := path.IsChain fun p q => next p = q ∧ prev q = p

/-- The nodes `order` stand in this order on the ring through `h`. -/
def Ringed (next prev : P → P) (h : P) (order : List P) : Prop :=
  (h :: order).Nodup ∧ Joined next prev (h :: (order ++ [h]))

theorem Joined.congr (joined : Joined next prev path) (nexts : ∀ p ∈ path.dropLast, next' p = next p)
    (prevs : ∀ p ∈ path.tail, prev' p = prev p) : Joined next' prev' path := by
  induction path with
  | nil => exact .nil
  | cons a path ih =>
    cases path with
    | nil => exact .singleton a
    | cons b path =>
      obtain ⟨⟨forward, backward⟩, rest⟩ := List.isChain_cons_cons.mp joined
      refine List.isChain_cons_cons.mpr ⟨⟨?_, ?_⟩, ih rest (fun p member => ?_) fun p member => ?_⟩
      · rw [nexts a List.mem_cons_self, forward]
      · rw [prevs b List.mem_cons_self, backward]
      · exact nexts p (List.mem_cons_of_mem a member)
      · exact prevs p (List.mem_cons_of_mem b member)

theorem joined_split : Joined next prev (front ++ a :: b :: back) ↔
    Joined next prev (front ++ [a]) ∧ (next a = b ∧ prev b = a) ∧ Joined next prev (b :: back) :=
  List.isChain_append_cons_cons

section Operations
variable [DecidableEq P]

/-- `b` is put behind `h`. -/
def pushFront (h b : P) (links : (P → P) × (P → P)) : (P → P) × (P → P) :=
  let next := Function.update links.1 b (links.1 h)
  let prev := Function.update links.2 b h
  let prev := Function.update prev (next h) b
  (Function.update next h b, prev)

/-- `b` is taken out; its own links stay. -/
def unlink (b : P) (links : (P → P) × (P → P)) : (P → P) × (P → P) :=
  let prev := Function.update links.2 (links.1 b) (links.2 b)
  (Function.update links.1 (links.2 b) (links.1 b), prev)

theorem Ringed.pushFront (ringed : Ringed next prev h order) (new : b ∉ h :: order) :
    Ringed (Ring.pushFront h b (next, prev)).1 (Ring.pushFront h b (next, prev)).2 h (b :: order) := by
  obtain ⟨once, joined⟩ := ringed
  obtain ⟨other, fresh⟩ := not_or.mp (mt List.mem_cons.mpr new)
  obtain ⟨apart, distinct⟩ := List.nodup_cons.mp once
  refine ⟨List.nodup_cons.mpr ⟨fun member => ?_, List.nodup_cons.mpr ⟨fresh, distinct⟩⟩, ?_⟩
  · rcases List.mem_cons.mp member with same | old
    · exact other same.symm
    · exact apart old
  obtain ⟨c, rest, split⟩ : ∃ c rest, order ++ [h] = c :: rest := by
    cases order with
    | nil => exact ⟨h, [], rfl⟩
    | cons c order => exact ⟨c, order ++ [h], rfl⟩
  rw [split] at joined
  obtain ⟨⟨forward, _⟩, inner⟩ := List.isChain_cons_cons.mp joined
  have first : next h = c := forward
  have reached : c = h ∨ c ∈ order := by
    have member : c ∈ order ++ [h] := split ▸ List.mem_cons_self
    rw [List.mem_append, List.mem_singleton] at member
    exact member.symm
  have cb : c ≠ b := fun same => reached.elim (fun is => other (same ▸ is)) fun is => fresh (same ▸ is)
  have behind : ∀ p ∈ rest, p ≠ c ∧ p ≠ b := by
    intro p member
    have all : (c :: rest).Nodup :=
      split ▸ List.nodup_append.mpr ⟨distinct, List.nodup_singleton h, fun x inside y last same =>
      apart (List.mem_singleton.mp last ▸ same ▸ inside)⟩
    refine ⟨fun same => (List.nodup_cons.mp all).1 (same ▸ member), fun same => ?_⟩
    have member : b ∈ order ++ [h] := split ▸ List.mem_cons_of_mem c (same ▸ member)
    rw [List.mem_append, List.mem_singleton] at member
    exact member.elim fresh other
  have ahead : ∀ p ∈ (c :: rest).dropLast, p ≠ h ∧ p ≠ b := by
    intro p member
    rw [← split, List.dropLast_concat] at member
    exact ⟨fun same => apart (same ▸ member), fun same => fresh (same ▸ member)⟩
  show Joined _ _ (h :: (b :: (order ++ [h])))
  rw [split]
  refine List.isChain_cons_cons.mpr ⟨⟨?_, ?_⟩, List.isChain_cons_cons.mpr ⟨⟨?_, ?_⟩, ?_⟩⟩
  · simp [Ring.pushFront]
  · simp [Ring.pushFront, Function.update_of_ne (Ne.symm other), first, Function.update_of_ne (Ne.symm cb)]
  · simp [Ring.pushFront, Function.update_of_ne other, first]
  · simp [Ring.pushFront, Function.update_of_ne (Ne.symm other), first]
  · refine Joined.congr inner (fun p member => ?_) fun p member => ?_
    · obtain ⟨ph, pb⟩ := ahead p member
      simp [Ring.pushFront, Function.update_of_ne ph, Function.update_of_ne pb]
    · obtain ⟨pc, pb⟩ := behind p member
      simp [Ring.pushFront, Function.update_of_ne (Ne.symm other), first, Function.update_of_ne pc,
        Function.update_of_ne pb]

theorem Ringed.unlink (ringed : Ringed next prev h (front ++ b :: back)) :
    Ringed (Ring.unlink b (next, prev)).1 (Ring.unlink b (next, prev)).2 h (front ++ back) := by
  obtain ⟨once, joined⟩ := ringed
  have rotated : (b :: (h :: (front ++ back))).Nodup := by
    refine (List.Perm.nodup_iff ?_).mp once
    exact (List.perm_middle.cons h).trans (List.Perm.swap b h _)
  obtain ⟨gone, distinct⟩ := List.nodup_cons.mp rotated
  refine ⟨distinct, ?_⟩
  obtain ⟨pre, a, before⟩ : ∃ pre a, h :: front = pre ++ [a] :=
    ⟨(h :: front).dropLast, _, (List.dropLast_concat_getLast (List.cons_ne_nil h front)).symm⟩
  obtain ⟨c, post, after⟩ : ∃ c post, back ++ [h] = c :: post := by
    cases back with
    | nil => exact ⟨h, [], rfl⟩
    | cons c back => exact ⟨c, back ++ [h], rfl⟩
  have whole : h :: (front ++ b :: back ++ [h]) = pre ++ a :: b :: c :: post := by
    rw [List.append_assoc, List.cons_append, after, ← List.cons_append, before, List.append_assoc]
    rfl
  rw [whole] at joined
  obtain ⟨left, ⟨forward, backward⟩, right⟩ := joined_split.mp joined
  obtain ⟨⟨forward', backward'⟩, right⟩ := List.isChain_cons_cons.mp right
  have nextb : next b = c := forward'
  have prevb : prev b = a := backward
  rw [show h :: (front ++ back ++ [h]) = pre ++ a :: c :: post by
    rw [List.append_assoc, after, ← List.cons_append, before, List.append_assoc]; rfl]
  rw [List.nodup_cons, List.nodup_append] at distinct
  obtain ⟨apart, fronts, backs, disjoint⟩ := distinct
  rw [List.mem_append, not_or] at apart
  have start : (pre ++ [a]).Nodup := before ▸ List.nodup_cons.mpr ⟨apart.1, fronts⟩
  have finish : (c :: post).Nodup := after ▸ List.nodup_append.mpr ⟨backs, List.nodup_singleton h,
    fun x inside y last same => apart.2 (List.mem_singleton.mp last ▸ same ▸ inside)⟩
  have ina : a ∈ h :: front := before ▸ List.mem_append_right _ List.mem_cons_self
  have inc : c ∈ back ++ [h] := after ▸ List.mem_cons_self
  rw [List.mem_append, List.mem_singleton] at inc
  simp only [Ring.unlink, nextb, prevb]
  refine joined_split.mpr ⟨left.congr (fun p member => ?_) fun p member => ?_, ⟨?_, ?_⟩,
    Joined.congr right (fun p member => ?_) fun p member => ?_⟩
  · rw [List.dropLast_concat] at member
    exact Function.update_of_ne (fun same => (List.nodup_append.mp start).2.2 p member a List.mem_cons_self same) ..
  · rw [← before, List.tail_cons] at member
    refine Function.update_of_ne (fun same => ?_) ..
    exact inc.elim (fun is => disjoint p member p (same ▸ is) rfl) fun is => apart.1 (is ▸ same ▸ member)
  · exact Function.update_self ..
  · exact Function.update_self ..
  · rw [← after, List.dropLast_concat] at member
    refine Function.update_of_ne (fun same => ?_) ..
    rcases List.mem_cons.mp (same ▸ ina) with is | is
    · exact apart.2 (is ▸ member)
    · exact disjoint p is p member rfl
  · rw [List.tail_cons] at member
    have other : p ≠ c := fun same => (List.nodup_cons.mp finish).1 (same ▸ member)
    exact Function.update_of_ne other ..

end Operations

/-- Walking along the links from `p` until a node that `stop`s; `none` when the fuel does not reach one. -/
def walk (link : P → P) (stop : P → Bool) : Nat → P → Option P
  | 0, _ => none
  | fuel + 1, p => if stop p then some p else walk link stop fuel (link p)

/-- More fuel finds the same node. -/
theorem walk_mono {link : P → P} {stop : P → Bool} {fuel fuel' : Nat} (more : fuel ≤ fuel')
    (found : walk link stop fuel p = some q) : walk link stop fuel' p = some q := by
  induction fuel generalizing p fuel' with
  | zero => cases found
  | succ fuel ih =>
    obtain ⟨fuel', rfl⟩ : ∃ k, fuel' = k + 1 := ⟨fuel' - 1, by omega⟩
    rw [walk] at found ⊢
    split at found
    · rename_i stops
      rw [if_pos stops, found]
    · rename_i on
      rw [if_neg on]
      exact ih (Nat.le_of_succ_le_succ more) found

/-- Walking along the links finds the first node of the order that stops, else the sentinel. -/
theorem Joined.walk {stop : P → Bool} {fuel : Nat} (joined : Joined next prev (q :: (order ++ [h])))
    (home : stop h = true) (enough : order.length < fuel) :
    Ring.walk next stop fuel (next q) = some ((order.find? stop).getD h) := by
  obtain ⟨fuel, rfl⟩ : ∃ k, fuel = k + 1 := ⟨fuel - 1, by omega⟩
  induction order generalizing fuel q with
  | nil =>
    obtain ⟨⟨forward, -⟩, -⟩ := List.isChain_cons_cons.mp joined
    rw [show next q = h from forward, Ring.walk, if_pos home]
    rfl
  | cons c order ih =>
    obtain ⟨⟨forward, -⟩, rest⟩ := List.isChain_cons_cons.mp joined
    rw [List.length_cons] at enough
    rw [show next q = c from forward, Ring.walk, List.find?_cons]
    by_cases found : stop c = true
    · rw [found, if_pos rfl]
      rfl
    · rw [if_neg found, Bool.eq_false_iff.mpr found]
      obtain ⟨fuel, rfl⟩ : ∃ k, fuel = k + 1 := ⟨fuel - 1, by omega⟩
      exact ih rest fuel (by omega)

/-- Read backward the ring has the opposite order. -/
theorem Ringed.reverse (ringed : Ringed next prev h order) : Ringed prev next h order.reverse := by
  obtain ⟨once, joined⟩ := ringed
  obtain ⟨apart, distinct⟩ := List.nodup_cons.mp once
  refine ⟨List.nodup_cons.mpr ⟨fun member => apart (List.mem_reverse.mp member), List.nodup_reverse.mpr distinct⟩, ?_⟩
  have backward : Joined prev next (h :: (order ++ [h])).reverse :=
    List.isChain_reverse.mpr (joined.imp fun _ _ both => ⟨both.2, both.1⟩)
  rwa [List.reverse_cons, List.reverse_append, List.reverse_singleton, List.append_assoc] at backward

end Ring
