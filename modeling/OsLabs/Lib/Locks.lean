import Mathlib.Logic.Function.Basic
import Mathlib.Data.Set.Basic

namespace Locks

variable {ι κ τ : Type} {holds : τ → κ → Bool} {owner : κ → Option ι} {threads : ι → τ} {x : ι} {l : κ} {t : τ}

/-- A lock is owned by a thread exactly when the thread is where it holds the lock. -/
def Agree (holds : τ → κ → Bool) (owner : κ → Option ι) (threads : ι → τ) : Prop :=
  ∀ l x, owner l = some x ↔ holds (threads x) l = true

/-- Two threads never hold one lock. -/
theorem Agree.exclusive (agree : Agree holds owner threads) {y : ι} (mine : holds (threads x) l = true)
    (yours : holds (threads y) l = true) : x = y :=
  Option.some.inj (((agree l x).mpr mine).symm.trans ((agree l y).mpr yours))

section Moves
variable [DecidableEq ι]

theorem Agree.move (agree : Agree holds owner threads) (same : ∀ k, holds t k = holds (threads x) k) :
    Agree holds owner (Function.update threads x t) := by
  intro k y
  by_cases moved : y = x
  · subst moved
    rw [Function.update_self, same, agree]
  · rw [Function.update_of_ne moved, agree]

variable [DecidableEq κ]

/-- The thread takes a free lock. -/
theorem Agree.acquire (agree : Agree holds owner threads) (free : owner l = none)
    (same : ∀ k, holds t k = (decide (k = l) || holds (threads x) k)) :
    Agree holds (Function.update owner l (some x)) (Function.update threads x t) := by
  intro k y
  by_cases taken : k = l
  · subst taken
    have nobody : holds (threads y) k = false := by
      by_contra held
      rw [Bool.not_eq_false, ← agree, free] at held
      cases held
    by_cases moved : y = x
    · subst moved
      simp [same]
    · simp [Function.update_of_ne moved, nobody, Ne.symm moved]
  · rw [Function.update_of_ne taken, agree]
    by_cases moved : y = x
    · subst moved
      simp [same, taken]
    · rw [Function.update_of_ne moved]

/-- The thread gives a lock back. -/
theorem Agree.release (agree : Agree holds owner threads) (held : holds (threads x) l = true)
    (same : ∀ k, holds t k = (!decide (k = l) && holds (threads x) k)) :
    Agree holds (Function.update owner l none) (Function.update threads x t) := by
  intro k y
  by_cases freed : k = l
  · subst freed
    have others : y ≠ x → holds (threads y) k = false := by
      intro away
      by_contra also
      exact away (agree.exclusive (Bool.not_eq_false _ ▸ also) held)
    by_cases moved : y = x
    · subst moved
      simp [same]
    · simp [Function.update_of_ne moved, others moved]
  · rw [Function.update_of_ne freed, agree]
    by_cases moved : y = x
    · subst moved
      simp [same, freed]
    · rw [Function.update_of_ne moved]

end Moves

/-- The threads of `group` each wait for a lock that another one of them owns. -/
def Cycle (wants : τ → Option κ) (owner : κ → Option ι) (threads : ι → τ) (group : Set ι) : Prop :=
  group.Nonempty ∧ ∀ x ∈ group, (∃ l, owner l = some x) ∧ ∃ l, wants (threads x) = some l ∧
    ∃ y ∈ group, y ≠ x ∧ owner l = some y

/-- Where locks are taken in increasing order of their ranks, which are bounded, no threads
wait for each other. -/
theorem no_cycle {wants : τ → Option κ} (rank : κ → Nat) (bound : Nat) (below : ∀ l, rank l < bound)
    (agree : Agree holds owner threads)
    (ordered : ∀ x l k, wants (threads x) = some l → holds (threads x) k = true → rank k < rank l) (group : Set ι) :
    ¬ Cycle wants owner threads group := by
  rintro ⟨⟨x, member⟩, waiting⟩
  -- Along the cycle the ranks of the locks wanted grow without end.
  have grows : ∀ k x, x ∈ group → ∃ y ∈ group, ∃ l, wants (threads y) = some l ∧ k ≤ rank l := by
    intro k
    induction k with
    | zero =>
      intro x member
      obtain ⟨_, l, wanted, _⟩ := waiting x member
      exact ⟨x, member, l, wanted, Nat.zero_le _⟩
    | succ k ih =>
      intro x member
      obtain ⟨y, inside, l, wanted, least⟩ := ih x member
      obtain ⟨_, l', wanted', z, inside', _, owned⟩ := waiting y inside
      obtain rfl : l = l' := Option.some.inj (wanted.symm.trans wanted')
      obtain ⟨_, next, wantsNext, _⟩ := waiting z inside'
      have higher := ordered z next l wantsNext ((agree l z).mp owned)
      exact ⟨z, inside', next, wantsNext, by omega⟩
  obtain ⟨y, _, l, _, least⟩ := grows bound x member
  exact absurd (below l) (by omega)

end Locks
