import OsLabs.Life.Returns

namespace OsLabs.Life
open Interleaving

section Serial
variable {width height : Nat}

/-- The inner loop of `simulate_life_serial` for row `y`. -/
def serialRow (state next : LifeBoard width height) (y : Nat) : LifeBoard width height :=
  (List.range' 1 (width - 2)).foldl
    (fun next x => next.set x y (nextCell (liveInWindow state x y 9) (state.at x y))) next

/-- The two inner loops of `simulate_life_serial`. -/
def serialStep (state next : LifeBoard width height) : LifeBoard width height :=
  (List.range' 1 (height - 2)).foldl (fun next y => serialRow state next y) next

/-- The boards `state` and `next_state` after `n` rounds of the outer loop, each of which
ends with their swap. -/
def serialLoop (state : LifeBoard width height) : Nat → LifeBoard width height × LifeBoard width height
  | 0 => (state, .blank)
  | n + 1 => (serialStep (serialLoop state n).1 (serialLoop state n).2, (serialLoop state n).1)

def simulateLifeSerial (state : LifeBoard width height) (steps : Nat) : LifeBoard width height :=
  (serialLoop state steps).1

/-- A loop that writes to cell `k` in the rounds `h`. -/
theorem foldl_writes {f : LifeBoard width height → Nat → LifeBoard width height} {h : Nat → Prop} {v : LifeCell}
    {k : Fin (width * height)} (xs : List Nat) (written : ∀ b, ∀ x ∈ xs, h x → f b x k = v)
    (kept : ∀ b, ∀ x ∈ xs, ¬ h x → f b x k = b k) (b : LifeBoard width height) :
    ((∃ x ∈ xs, h x) → xs.foldl f b k = v) ∧ ((∀ x ∈ xs, ¬ h x) → xs.foldl f b k = b k) := by
  induction xs generalizing b with
  | nil =>
    refine ⟨?_, fun _ => rfl⟩
    rintro ⟨_, member, _⟩
    cases member
  | cons x xs ih =>
    obtain ⟨later, never⟩ := ih (fun b y member => written b y (List.mem_cons_of_mem x member))
      (fun b y member => kept b y (List.mem_cons_of_mem x member)) (f b x)
    refine ⟨fun some => ?_, fun none => ?_⟩
    · by_cases again : ∃ y ∈ xs, h y
      · exact later again
      · obtain ⟨y, member, here⟩ := some
        have first : y = x := by
          rcases List.mem_cons.mp member with same | rest
          · exact same
          · exact absurd ⟨y, rest, here⟩ again
        rw [List.foldl_cons, never fun z rest hits => again ⟨z, rest, hits⟩]
        exact written b x (List.mem_cons_self ..) (first ▸ here)
    · rw [List.foldl_cons, never fun y rest => none y (List.mem_cons_of_mem x rest)]
      exact kept b x (List.mem_cons_self ..) (none x (List.mem_cons_self ..))

theorem mem_inner {n x : Nat} : x ∈ List.range' 1 (n - 2) ↔ x ≠ 0 ∧ x + 1 < n := by
  rw [List.mem_range'_1]
  omega

/-- The coordinates of an index. -/
theorem index_iff {x y k : Nat} (column : x < width) : k = y * width + x ↔ k / width = y ∧ k % width = x := by
  constructor
  · rintro rfl
    rw [Nat.mul_comm, Nat.mul_add_div (Nat.zero_lt_of_lt column), Nat.div_eq_of_lt column, Nat.mul_add_mod,
      Nat.mod_eq_of_lt column]
    exact ⟨Nat.add_zero y, rfl⟩
  · rintro ⟨rfl, rfl⟩
    exact (index_eq width k).symm

/-- The row loop computes the inner cells of its row. -/
theorem serialRow_cell (state next : LifeBoard width height) (y : Nat) (k : Fin (width * height)) :
    serialRow state next y k =
      if k.val / width = y ∧ k % width ≠ 0 ∧ k % width + 1 < width then nextAt state k else next k := by
  have loop := foldl_writes (f := fun next x => next.set x y (nextCell (liveInWindow state x y 9) (state.at x y)))
    (h := fun x => k.val = y * width + x) (v := nextAt state k) (k := k) (List.range' 1 (width - 2))
    (fun b x member here => ?_) (fun b x _ elsewhere => if_neg elsewhere) next
  · obtain ⟨written, kept⟩ := loop
    by_cases inner : k.val / width = y ∧ k % width ≠ 0 ∧ k % width + 1 < width
    · obtain ⟨row, left, right⟩ := inner
      rw [if_pos ⟨row, left, right⟩]
      refine written ⟨k % width, mem_inner.mpr ⟨left, right⟩, ?_⟩
      rw [← row, index_eq]
    · rw [if_neg inner]
      refine kept fun x member here => inner ?_
      obtain ⟨left, right⟩ := mem_inner.mp member
      obtain ⟨row, rfl⟩ := (index_iff (by omega)).mp here
      exact ⟨row, left, right⟩
  · obtain ⟨_, right⟩ := mem_inner.mp member
    obtain ⟨rfl, rfl⟩ := (index_iff (by omega)).mp here
    exact if_pos here

/-- The two loops compute the interior cells and leave the edge. -/
theorem serialStep_cell (state next : LifeBoard width height) (k : Fin (width * height)) :
    serialStep state next k = if Interior width height k then nextAt state k else next k := by
  have row := row_lt k.isLt
  have column : k.val % width < width := Nat.mod_lt _ (Nat.pos_of_mul_pos_right (Nat.zero_lt_of_lt k.isLt))
  obtain ⟨written, kept⟩ := foldl_writes (f := fun next y => serialRow state next y)
    (h := fun y => k.val / width = y ∧ k % width ≠ 0 ∧ k % width + 1 < width) (v := nextAt state k) (k := k)
    (List.range' 1 (height - 2))
    (fun b y _ here => (serialRow_cell state b y k).trans (if_pos here))
    (fun b y _ elsewhere => (serialRow_cell state b y k).trans (if_neg elsewhere)) next
  unfold serialStep
  by_cases interior : Interior width height k
  · rw [if_pos interior]
    obtain ⟨left, top, right, bottom⟩ := interior
    have lower : k.val / width + 1 < height := Nat.lt_of_le_of_ne row fun last => bottom (Nat.eq_sub_of_add_eq last)
    have right : k.val % width + 1 < width := Nat.lt_of_le_of_ne column fun last => right (Nat.eq_sub_of_add_eq last)
    exact written ⟨k.val / width, mem_inner.mpr ⟨top, lower⟩, rfl, left, right⟩
  · rw [if_neg interior]
    refine kept fun y member here => interior ?_
    obtain ⟨rfl, left, right⟩ := here
    obtain ⟨top, bottom⟩ := mem_inner.mp member
    exact ⟨left, top, fun last => absurd right (by omega), fun last => absurd bottom (by omega)⟩

/-- The edge of the board after `n` rounds is the old one and that of the blank board in turn. -/
theorem serialLoop_edge (state : LifeBoard width height) (n : Nat) {k : Fin (width * height)}
    (edge : ¬ Interior width height k) : (serialLoop state n).1 k = (if n % 2 = 0 then state k else 0) ∧
      (serialLoop state n).2 k = if n % 2 = 0 then 0 else state k := by
  induction n with
  | zero => exact ⟨rfl, rfl⟩
  | succ n ih =>
    obtain ⟨first, second⟩ := ih
    have left : (serialLoop state (n + 1)).1 k = (serialLoop state n).2 k :=
      (serialStep_cell _ _ k).trans (if_neg edge)
    have right : (serialLoop state (n + 1)).2 k = (serialLoop state n).1 k := rfl
    rw [left, right, first, second]
    by_cases even : n % 2 = 0
    · rw [if_pos even, if_pos even, if_neg (by omega), if_neg (by omega)]
      exact ⟨rfl, rfl⟩
    · rw [if_neg even, if_neg even, if_pos (by omega), if_pos (by omega)]
      exact ⟨rfl, rfl⟩

/-- No cell on the edge is alive. -/
def EdgeDead (b : LifeBoard width height) : Prop := ∀ k : Fin (width * height), ¬ Interior width height k → b k = 0

/-- With a dead edge the serial simulator follows the synchronous rule. -/
theorem serialLoop_dead {state : LifeBoard width height} (dead : EdgeDead state) (n : Nat) :
    (serialLoop state n).1 = lifeSteps n state := by
  induction n with
  | zero => rfl
  | succ n ih =>
    unfold lifeSteps
    rw [← ih]
    refine lifeStep_of_cells (fun k interior => (serialStep_cell _ _ k).trans (if_pos interior)) fun k edge => ?_
    rw [(serialLoop_edge state (n + 1) edge).1, (serialLoop_edge state n edge).1, dead k edge, ite_self, ite_self]

/-- The two simulators leave the same board, for every number of threads and every schedule. -/
def Agree (state : LifeBoard width height) (steps : Nat) : Prop :=
  ∀ (threads : Nat) (s : Simulation threads width height), 0 < threads →
    Relation.ReflTransGen (Step steps) (begin threads state) s → s.main = .done →
    s.shared.boards .argument = simulateLifeSerial state steps

theorem agree_iff (state : LifeBoard width height) (steps : Nat) :
    Agree state steps ↔ lifeSteps steps state = simulateLifeSerial state steps := by
  constructor
  · intro agree
    have returns : ∃ s : Simulation 1 width height, Relation.ReflTransGen (Step steps) (begin 1 state) s ∧
        s.main = .done :=
      simulateLifeParallel_returns Nat.zero_lt_one state steps
    obtain ⟨s, run, done⟩ := returns
    rw [← agree 1 s Nat.zero_lt_one run done]
    exact ((run_inv Nat.zero_lt_one run).result done).symm
  · intro same threads s positive run done
    rw [← same]
    exact (run_inv positive run).result done

theorem Agree.dead {state : LifeBoard width height} {steps : Nat} (agree : Agree state steps) (odd : steps % 2 = 1) :
    EdgeDead state := by
  intro k edge
  have same := congrFun ((agree_iff state steps).mp agree) k
  rw [lifeSteps_edge _ _ edge] at same
  rw [same]
  exact (serialLoop_edge state steps edge).1.trans (if_neg (by omega))

/-- The simulators agree on a board for every number of steps exactly if its edge is dead; an
odd number of steps already shows the difference, no step at all never does. -/
theorem simulators_agree_iff (state : LifeBoard width height) :
    ((∀ steps, Agree state steps) ↔ EdgeDead state) ∧
      (∀ steps, steps % 2 = 1 → (Agree state steps ↔ EdgeDead state)) ∧ Agree state 0 := by
  have agrees : EdgeDead state → ∀ steps, Agree state steps := fun dead steps =>
    (agree_iff state steps).mpr (serialLoop_dead dead steps).symm
  refine ⟨⟨fun agree => (agree 1).dead rfl, agrees⟩, fun steps odd => ⟨fun agree => agree.dead odd, fun dead =>
    agrees dead steps⟩, (agree_iff state 0).mpr rfl⟩

/-- A board of one live cell, after one step. -/
theorem one_cell_disagrees : ¬ ∀ (width height : Nat) (state : LifeBoard width height) (steps : Nat),
    0 < width → 0 < height → (∀ k, state k = 0 ∨ state k = 1) → Agree state steps := by
  intro promise
  have agree := promise 1 1 (fun _ => 1) 1 (by decide) (by decide) fun _ => .inr rfl
  exact absurd (agree.dead rfl ⟨0, by decide⟩ (by decide)) (by decide)

end Serial

end OsLabs.Life
