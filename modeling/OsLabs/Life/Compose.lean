import OsLabs.Life.Serial

namespace OsLabs.Life

variable {width height : Nat} {state : LifeBoard width height} {a b : Nat}

/-- A run of `a + b` steps leaves what a run of `a` steps and then one of `b` steps leave. -/
def Composes (state : LifeBoard width height) (a b : Nat) : Prop :=
  simulateLifeSerial state (a + b) = simulateLifeSerial (simulateLifeSerial state a) b

/-- A step takes from the second board only its edge. -/
theorem serialStep_congr {next other : LifeBoard width height}
    (same : ∀ k : Fin (width * height), ¬ Interior width height k → next k = other k) :
    serialStep state next = serialStep state other := by
  funext k
  rw [serialStep_cell, serialStep_cell]
  split
  · rfl
  · rename_i edge
    exact same k edge

/-- After `a` steps the second board has a dead edge, as the blank board of a new run. -/
theorem serialLoop_add (dead : EdgeDead (serialLoop state a).2) (b : Nat) :
    (serialLoop state (a + b)).1 = (serialLoop (simulateLifeSerial state a) b).1 ∧
      ∀ k : Fin (width * height), ¬ Interior width height k →
        (serialLoop state (a + b)).2 k = (serialLoop (simulateLifeSerial state a) b).2 k := by
  induction b with
  | zero => exact ⟨rfl, dead⟩
  | succ b ih =>
    obtain ⟨current, next⟩ := ih
    refine ⟨?_, fun k _ => congrFun current k⟩
    change serialStep (serialLoop state (a + b)).1 (serialLoop state (a + b)).2 = _
    rw [serialStep_congr next, current]
    rfl

theorem composes_of_dead (dead : EdgeDead (serialLoop state a).2) (b : Nat) :
    Composes state a b := (serialLoop_add dead b).1

/-- The second board has a dead edge after an even number of steps, and always when the first has. -/
theorem second_dead (condition : a % 2 = 0 ∨ EdgeDead state) : EdgeDead (serialLoop state a).2 := by
  intro k edge
  rw [(serialLoop_edge state a edge).2]
  rcases condition with even | dead
  · rw [if_pos even]
  · rw [dead k edge, ite_self]

/-- Two odd runs leave the edge of the blank board, one even run leaves that of the board itself. -/
theorem Composes.dead (composes : Composes state a b) (first : a % 2 = 1) (second : b % 2 = 1) : EdgeDead state := by
  intro k edge
  have whole : simulateLifeSerial state (a + b) k = state k :=
    (serialLoop_edge state (a + b) edge).1.trans (if_pos (by omega))
  have parts : simulateLifeSerial (simulateLifeSerial state a) b k = 0 :=
    (serialLoop_edge _ b edge).1.trans (if_neg (by omega))
  rw [← whole, composes, parts]

theorem composes_odd_iff (odd : b % 2 = 1) : Composes state a b ↔ a % 2 = 0 ∨ EdgeDead state := by
  constructor
  · intro composes
    rcases Nat.mod_two_eq_zero_or_one a with even | first
    · exact .inl even
    · exact .inr (composes.dead first odd)
  · exact fun condition => composes_of_dead (second_dead condition) b

/-- The first run composes with every second one exactly if it is even or the edge of the board is
dead; an odd second run already shows the difference. -/
theorem composes_iff (state : LifeBoard width height) (a : Nat) :
    ((∀ b, Composes state a b) ↔ a % 2 = 0 ∨ EdgeDead state) ∧
      (∀ b, b % 2 = 1 → (Composes state a b ↔ a % 2 = 0 ∨ EdgeDead state)) ∧ Composes state a 0 := by
  refine ⟨⟨fun composes => ?_, fun condition b => composes_of_dead (second_dead condition) b⟩,
    fun b odd => composes_odd_iff odd, rfl⟩
  exact (composes_odd_iff (b := 1) rfl).mp (composes 1)

/-- A board of one live cell, after one step and another. -/
theorem one_cell_composes_not : ¬ ∀ (width height : Nat) (state : LifeBoard width height) (a b : Nat),
    (∀ k, state k = 0 ∨ state k = 1) → Composes state a b := by
  intro promise
  have composes := promise 1 1 (fun _ => 1) 1 1 fun _ => .inr rfl
  exact absurd (composes.dead rfl rfl ⟨0, by decide⟩ (by decide)) (by decide)

end OsLabs.Life
