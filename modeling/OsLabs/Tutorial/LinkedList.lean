import OsLabs.Lib.DoublyLinked
import OsLabs.Lib.NodeHeap

namespace OsLabs.Tutorial
open NodeHeap

/-- `struct list_item`; none is a null pointer. -/
structure ListItem (δ : Type) where
  pred : Option Ptr
  next : Option Ptr
  datum : δ

/-- `struct list`; the two function pointers are addresses. -/
structure ListT where
  head : Ptr
  tail : Ptr
  length : UInt32
  compare : Nat
  datumDelete : Nat

/-- A list and the memory its nodes lie in. -/
structure State (δ : Type) where
  list : ListT
  heap : Heap (ListItem δ)

section Functions
variable {δ : Type} (m : Allocator (ListItem δ))

/-- `list_init`, with the addresses of its two strings. None means here and below that a null pointer,
or one to a freed node, has been followed. -/
def listInit (dh dt : δ) (compare datumDelete : Nat) (h : Heap (ListItem δ)) : Option (State δ) := do
  let (dummyHead, h) := m.malloc h
  let (dummyTail, h) := m.malloc h
  let h ← h.modify dummyHead fun item => { item with datum := dh }
  let h ← h.modify dummyTail fun item => { item with datum := dt }
  let h ← h.modify dummyHead fun item => { item with pred := none }
  let h ← h.modify dummyHead fun item => { item with next := some dummyTail }
  let h ← h.modify dummyTail fun item => { item with pred := some dummyHead }
  let h ← h.modify dummyTail fun item => { item with next := none }
  return ⟨⟨dummyHead, dummyTail, 0, compare, datumDelete⟩, h⟩

/-- The loop of `list_visit_items`, with what the visitor works on; none also means that the fuel is
spent. -/
def visitLoop {σ : Type} (s : State δ) (visitor : Ptr → σ → σ) : Nat → Option Ptr → σ → Option σ
  | 0, _, _ => none
  | fuel + 1, iterator, w =>
    if iterator.map Ptr.address = some s.list.tail.address then some w
    else do
      let p ← iterator
      let w := visitor p w
      let item ← s.heap.load p
      visitLoop s visitor fuel item.next w

def listVisitItems {σ : Type} (s : State δ) (visitor : Ptr → σ → σ) (fuel : Nat) (w : σ) : Option σ := do
  let head ← s.heap.load s.list.head
  visitLoop s visitor fuel head.next w

/-- What `list_harness` prints: data, `EMPTY`, and the line that ends a round. -/
inductive Printed (δ : Type)
  | datum (v : δ)
  | empty
  | dashes
  deriving DecidableEq, Repr

/-- The visitor `print_list`, with what has been printed so far. -/
def printList (h : Heap (ListItem δ)) (p : Ptr) (out : List (Printed δ)) : List (Printed δ) :=
  match h.load p with
  | some item => out ++ [.datum item.datum]
  | none => out

def listInsertTail (v : δ) (s : State δ) : Option (State δ) := do
  let (temp, h) := m.malloc s.heap
  let h ← h.modify temp fun item => { item with datum := v }
  let tail ← h.load s.list.tail
  let h ← h.modify temp fun item => { item with pred := tail.pred }
  let h ← h.modify temp fun item => { item with next := some s.list.tail }
  let tail ← h.load s.list.tail
  let last ← tail.pred
  let h ← h.modify last fun item => { item with next := some temp }
  let h ← h.modify s.list.tail fun item => { item with pred := some temp }
  return ⟨{ s.list with length := s.list.length + 1 }, h⟩

/-- `list_remove_head`; the node it allocates first is never used, nor freed. -/
def listRemoveHead (s : State δ) : Option (State δ) :=
  if 0 < s.list.length then do
    let (_, h) := m.malloc s.heap
    let head ← h.load s.list.head
    let removedNode ← head.next
    let removed ← h.load removedNode
    let h ← h.modify s.list.head fun item => { item with next := removed.next }
    let removed ← h.load removedNode
    let next ← removed.next
    let h ← h.modify next fun item => { item with pred := some s.list.head }
    let h ← h.free removedNode
    return ⟨{ s.list with length := s.list.length - 1 }, h⟩
  else return s

/-- The loop of `main` for the keyword `tail-remove`. -/
def tailRemove : Nat → State δ → Option (List (Printed δ))
  | 0, _ => none
  | fuel + 1, s =>
    if 0 < s.list.length then do
      let s ← listRemoveHead m s
      let s ← listRemoveHead m s
      let s ← listRemoveHead m s
      let out ← listVisitItems s (printList s.heap) (fuel + 1) []
      let more ← tailRemove fuel s
      return out ++ (if s.list.length = 0 then [.empty] else []) ++ [.dashes] ++ more
    else some []

/-- A call of one of the two functions that change a list. -/
inductive Op (δ : Type)
  | insertTail (v : δ)
  | removeHead
  deriving DecidableEq, Repr

def step (s : State δ) : Op δ → Option (State δ)
  | .insertTail v => listInsertTail m v s
  | .removeHead => listRemoveHead m s

def run : List (Op δ) → State δ → Option (State δ)
  | [], s => some s
  | op :: ops, s => do
    let s ← step m s op
    run ops s

end Functions

section Links
variable {δ : Type} (h : Heap (ListItem δ))

def nextOf (p : Ptr) : Option Ptr := (h.load p).bind ListItem.next

def predOf (p : Ptr) : Option Ptr := (h.load p).bind ListItem.pred

def datumOf (p : Ptr) : Option δ := (h.load p).map ListItem.datum

end Links

/-- The values inserted and not yet removed, the oldest first: what a queue holds after some calls. -/
def Op.apply {δ : Type} (items : List δ) : Op δ → List δ
  | .insertTail v => items ++ [v]
  | .removeHead => items.tail

def contents {δ : Type} (ops : List (Op δ)) : List δ := ops.foldl Op.apply []

/-- The list shows these values: its length, the walks over its nodes in both directions, and what a
visitor sees. -/
structure IsQueue {δ : Type} (s : State δ) (items : List δ) : Prop where
  length : s.list.length.toNat = items.length
  nodes : ∃ nodes : List Ptr, (s.list.head :: (nodes ++ [s.list.tail])).Nodup ∧
    DoublyLinked.trail (nextOf s.heap) (s.list.length.toNat + 1) s.list.head = some (nodes ++ [s.list.tail]) ∧
    DoublyLinked.trail (predOf s.heap) (s.list.length.toNat + 1) s.list.tail =
      some (nodes.reverse ++ [s.list.head]) ∧
    nodes.map (datumOf s.heap) = items.map some ∧
    ∀ (σ : Type) (visitor : Ptr → σ → σ) (fuel : Nat) (w : σ), nodes.length < fuel →
      listVisitItems s visitor fuel w = some (nodes.foldl (fun w p => visitor p w) w)

end OsLabs.Tutorial
