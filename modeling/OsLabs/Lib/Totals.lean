import Mathlib.Algebra.BigOperators.Fin
import Mathlib.Algebra.Order.BigOperators.Group.Finset

namespace Totals

variable {ι τ : Type} [Fintype ι]

/-- A total over the threads when one of them moves. -/
theorem sum_moved [DecidableEq ι] (f : τ → Nat) (threads : ι → τ) (k : ι) (x : τ) :
    ∑ j, f (Function.update threads k x j) + f (threads k) = ∑ j, f (threads j) + f x := by
  have moved : (fun j => f (Function.update threads k x j)) = Function.update (fun j => f (threads j)) k (f x) :=
    Function.comp_update f threads k x
  rw [moved, Finset.sum_update_of_mem (Finset.mem_univ k),
    ← Finset.add_sum_erase Finset.univ (fun j => f (threads j)) (Finset.mem_univ k), Finset.sdiff_singleton_eq_erase]
  omega

theorem le_sum (f : τ → Nat) (threads : ι → τ) (k : ι) : f (threads k) ≤ ∑ j, f (threads j) :=
  Finset.single_le_sum (f := fun j => f (threads j)) (fun _ _ => Nat.zero_le _) (Finset.mem_univ k)

/-- Two threads have at most the total. -/
theorem add_le_sum [DecidableEq ι] (f : τ → Nat) (threads : ι → τ) {j k : ι} (apart : j ≠ k) :
    f (threads j) + f (threads k) ≤ ∑ i, f (threads i) := by
  rw [← Finset.sum_pair (f := fun i => f (threads i)) apart]
  exact Finset.sum_le_sum_of_subset (Finset.subset_univ _)

theorem sum_zero {f : τ → Nat} {threads : ι → τ} (none : ∑ j, f (threads j) = 0) (k : ι) : f (threads k) = 0 :=
  Nat.le_zero.mp (none ▸ le_sum f threads k)

end Totals
