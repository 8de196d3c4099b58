import Mathlib.Logic.Function.Basic
import Mathlib.Logic.Relation

namespace Interleaving

variable {σ ι τ : Type} {step : σ → σ → Prop} {s t : σ}

/-- What every step keeps holds after every run. -/
theorem run_keeps {I : σ → Prop} (run : Relation.ReflTransGen step s t) (start : I s)
    (kept : ∀ s t, I s → step s t → I t) : I t := by
  induction run with
  | refl => exact start
  | tail _ last ih => exact kept _ _ ih last

section Threads
variable [DecidableEq ι] {threads : ι → τ} {k j : ι} {x y : τ}

/-- After a step of thread `k` the other threads are where they were. -/
theorem forall_moved {P : ι → τ → Prop} (mover : P k x) (others : ∀ j, j ≠ k → P j (threads j)) :
    ∀ j, P j (Function.update threads k x j) :=
  (Function.forall_update_iff threads P).mpr ⟨mover, others⟩

/-- A thread seen somewhere after a step has moved there, or stayed where it was seen before. -/
theorem moved {β : Type} (g : τ → β) {b : β} (seen : g (Function.update threads k x j) = b) :
    (j = k ∧ g x = b) ∨ (j ≠ k ∧ g (threads j) = b) := by
  by_cases same : j = k
  · subst same
    rw [Function.update_self] at seen
    exact .inl ⟨rfl, seen⟩
  · rw [Function.update_of_ne same] at seen
    exact .inr ⟨same, seen⟩

theorem moved_to (seen : Function.update threads k x j = y) : (j = k ∧ x = y) ∨ (j ≠ k ∧ threads j = y) :=
  moved id seen

/-- A thread that was not before where it is after the step has moved there. -/
theorem mover (before : threads j ≠ y) (seen : Function.update threads k x j = y) : j = k ∧ x = y :=
  (moved_to seen).resolve_right fun ⟨_, stayed⟩ => before stayed

theorem mover_of_ne (changed : Function.update threads k x j ≠ threads j) : j = k :=
  by_contra fun away => changed (Function.update_of_ne away ..)

end Threads

end Interleaving
