import Mathlib.Algebra.BigOperators.Group.Finset.Basic
import Mathlib.Data.Multiset.UnionInter

namespace Ownership

/-- What an object owns of a memory of cells `F` with contents `W`; finding it out reads no other cell. -/
structure Footprint (F W : Type) where
  cells : (F → W) → Multiset F
  closed : ∀ m m', (∀ f ∈ cells m, m' f = m f) → cells m' = cells m

variable {F W ι : Type} {m m' : F → W}

namespace Footprint

def nothing : Footprint F W := ⟨fun _ => 0, fun _ _ _ => rfl⟩

def cell (f : F) : Footprint F W := ⟨fun _ => {f}, fun _ _ _ => rfl⟩

/-- Two objects side by side. -/
def both (a b : Footprint F W) : Footprint F W where
  cells m := a.cells m + b.cells m
  closed m m' same := by
    rw [a.closed m m' fun f member => same f (Multiset.mem_add.mpr (.inl member)),
      b.closed m m' fun f member => same f (Multiset.mem_add.mpr (.inr member))]

/-- The objects of a family side by side. -/
def all (I : Finset ι) (e : ι → Footprint F W) : Footprint F W where
  cells m := I.sum fun i => (e i).cells m
  closed m m' same := Finset.sum_congr rfl fun i inside =>
    (e i).closed m m' fun f member => same f (Multiset.mem_sum.mpr ⟨i, inside, member⟩)

theorem cells_both (a b : Footprint F W) (m : F → W) : (both a b).cells m = a.cells m + b.cells m := rfl

theorem mem_all {I : Finset ι} {e : ι → Footprint F W} {f : F} : f ∈ (all I e).cells m ↔ ∃ j ∈ I, f ∈ (e j).cells m :=
  Multiset.mem_sum

section Family
variable [DecidableEq ι] {I : Finset ι} {i : ι}

/-- One object beside the others. -/
theorem all_split (e : ι → Footprint F W) (inside : i ∈ I) (m : F → W) :
    (all I e).cells m = (e i).cells m + (all (I.erase i) e).cells m :=
  (Finset.add_sum_erase I (fun j => (e j).cells m) inside).symm

/-- The others do not change with the object. -/
theorem all_erase_congr {e e' : ι → Footprint F W} (same : ∀ j ∈ I, j ≠ i → e' j = e j) :
    all (I.erase i) e' = all (I.erase i) e := by
  unfold all
  congr 1
  funext m
  refine Finset.sum_congr rfl fun j inside => ?_
  obtain ⟨other, member⟩ := Finset.mem_erase.mp inside
  rw [same j member other]

end Family

end Footprint

end Ownership
