import Mathlib.Data.Nat.Find
import Mathlib.Logic.Function.Basic

namespace NodeHeap

/-- A pointer: an address, and the allocation it was made by. An address is used again after `free`,
but an older pointer does not lead to the new node. -/
structure Ptr where
  address : Nat
  stamp : Nat
  deriving DecidableEq, Repr

/-- The allocated nodes by their addresses, each with its allocation. Only finitely many addresses are
taken; the allocations are counted. -/
structure Heap (α : Type) where
  cell : Nat → Option (Nat × α)
  limit : Nat
  vacant : ∀ a, limit ≤ a → cell a = none
  count : Nat

def Heap.empty {α : Type} : Heap α := ⟨fun _ => none, 0, fun _ _ => rfl, 0⟩

def Heap.assign {α : Type} (h : Heap α) (a : Nat) (node : Option (Nat × α)) : Heap α where
  cell := Function.update h.cell a node
  limit := max h.limit (a + 1)
  vacant b beyond := by
    have other : b ≠ a := by omega
    rw [Function.update_of_ne other, h.vacant b (by omega)]
  count := h.count

section Operations
variable {α : Type} (h : Heap α) (p : Ptr)

/-- Reading through a pointer; none when its node has been freed. -/
def Heap.load : Option α :=
  match h.cell p.address with
  | some (stamp, v) => if stamp = p.stamp then some v else none
  | none => none

/-- Writing through a pointer. -/
def Heap.modify (f : α → α) : Option (Heap α) := do
  let v ← h.load p
  return h.assign p.address (some (p.stamp, f v))

/-- `free(p)` -/
def Heap.free : Option (Heap α) := do
  let _ ← h.load p
  return h.assign p.address none

end Operations

/-- An allocator: the address it takes, where nothing is allocated, and what the memory holds there.
Both may depend on all that has been allocated and freed before. -/
structure Allocator (α : Type) where
  address : Heap α → Nat
  contents : Heap α → α
  fresh : ∀ h : Heap α, h.cell (address h) = none

/-- `malloc` -/
def Allocator.malloc {α : Type} (m : Allocator α) (h : Heap α) : Ptr × Heap α :=
  (⟨m.address h, h.count⟩,
    { h.assign (m.address h) (some (h.count, m.contents h)) with count := h.count + 1 })

/-- The allocator that takes the lowest address. -/
def Allocator.lowest {α : Type} (v : α) : Allocator α where
  address h := Nat.find (⟨h.limit, h.vacant _ le_rfl⟩ : ∃ a, h.cell a = none)
  contents _ := v
  fresh h := Nat.find_spec (⟨h.limit, h.vacant _ le_rfl⟩ : ∃ a, h.cell a = none)

section Loads
variable {α : Type} {h h' : Heap α} {p q : Ptr} {v w : α}

theorem load_eq_some : h.load p = some v ↔ h.cell p.address = some (p.stamp, v) := by
  unfold Heap.load
  cases found : h.cell p.address with
  | none => simp
  | some node =>
    obtain ⟨stamp, w⟩ := node
    by_cases same : stamp = p.stamp
    · simp [same]
    · simp [same]

/-- Two pointers to nodes at one address are equal. -/
theorem ptr_eq (left : h.load p = some v) (right : h.load q = some w) (address : p.address = q.address) : p = q := by
  rw [load_eq_some] at left right
  rw [address, right] at left
  have stamp : q.stamp = p.stamp := (Prod.mk.inj (Option.some.inj left)).1
  cases p
  cases q
  cases address
  cases stamp
  rfl

/-- After an assignment, through a pointer to another address. -/
theorem load_elsewhere {a : Nat} {node : Option (Nat × α)} (cells : h'.cell = Function.update h.cell a node)
    (other : q.address ≠ a) : h'.load q = h.load q := by
  unfold Heap.load
  rw [cells, Function.update_of_ne other]

/-- After the assignment of a node, through a pointer to it. -/
theorem load_node (cells : h'.cell = Function.update h.cell p.address (some (p.stamp, v)))
    (here : q.address = p.address) : h'.load q = if q = p then some v else none := by
  unfold Heap.load
  rw [cells, here, Function.update_self]
  by_cases stamp : p.stamp = q.stamp
  · have same : q = p := by
      cases p
      cases q
      cases here
      cases stamp
      rfl
    simp [same]
  · have other : q ≠ p := fun same => stamp (same ▸ rfl)
    simp [stamp, other]

theorem load_freed {a : Nat} (cells : h'.cell = Function.update h.cell a none) (here : q.address = a) :
    h'.load q = none := by
  unfold Heap.load
  rw [cells, here, Function.update_self]

/-- Nothing else is live at the address of a live node. -/
theorem load_eq_none (live : h.load p = some v) (here : q.address = p.address) (other : q ≠ p) : h.load q = none := by
  cases old : h.load q with
  | none => rfl
  | some w => exact absurd (ptr_eq old live here) other

/-- A write changes one node. -/
theorem modify_eq (live : h.load p = some v) (f : α → α) :
    ∃ h', h.modify p f = some h' ∧ h'.load = Function.update h.load p (some (f v)) := by
  refine ⟨h.assign p.address (some (p.stamp, f v)), by rw [Heap.modify, live]; rfl, funext fun q => ?_⟩
  by_cases here : q.address = p.address
  · rw [load_node rfl here]
    by_cases same : q = p
    · rw [if_pos same, same, Function.update_self]
    · rw [if_neg same, Function.update_of_ne same, load_eq_none live here same]
  · have other : q ≠ p := fun same => here (same ▸ rfl)
    rw [Function.update_of_ne other, load_elsewhere rfl here]

theorem free_eq (live : h.load p = some v) :
    ∃ h', h.free p = some h' ∧ h'.load = Function.update h.load p none := by
  refine ⟨h.assign p.address none, by rw [Heap.free, live]; rfl, funext fun q => ?_⟩
  by_cases here : q.address = p.address
  · rw [load_freed rfl here]
    by_cases same : q = p
    · rw [same, Function.update_self]
    · rw [Function.update_of_ne same, load_eq_none live here same]
  · have other : q ≠ p := fun same => here (same ▸ rfl)
    rw [Function.update_of_ne other, load_elsewhere rfl here]

/-- The new node was not there before, and the other nodes stay. -/
theorem malloc_eq (m : Allocator α) (h : Heap α) :
    h.load (m.malloc h).1 = none ∧
      (m.malloc h).2.load = Function.update h.load (m.malloc h).1 (some (m.contents h)) := by
  have absent : ∀ q : Ptr, q.address = m.address h → h.load q = none := by
    intro q here
    unfold Heap.load
    rw [here, m.fresh]
  refine ⟨absent _ rfl, funext fun q => ?_⟩
  by_cases here : q.address = m.address h
  · rw [load_node (p := (m.malloc h).1) rfl here]
    by_cases same : q = (m.malloc h).1
    · rw [if_pos same, same, Function.update_self]
    · rw [if_neg same, Function.update_of_ne same, absent q here]
  · have other : q ≠ (m.malloc h).1 := fun same => here (same ▸ rfl)
    rw [Function.update_of_ne other, load_elsewhere (h := h) rfl here]

end Loads

end NodeHeap
