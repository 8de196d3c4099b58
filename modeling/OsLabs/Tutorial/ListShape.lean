import Mathlib.Algebra.Order.Group.Nat
import OsLabs.Tutorial.LinkedList

namespace OsLabs.Tutorial
open NodeHeap

section Specs
variable {δ : Type} (m : Allocator (ListItem δ)) {s : State δ}

/-- A live node is not a new one. -/
theorem ne_of_live {h : Heap (ListItem δ)} {p q : Ptr} {item : ListItem δ} (live : h.load p = some item)
    (absent : h.load q = none) : p ≠ q := by
  rintro rfl
  rw [live] at absent
  cases absent

/-- The new node, its neighbours and the other nodes after an insertion. -/
theorem listInsertTail_spec {t n : ListItem δ} {last : Ptr} (tail : s.heap.load s.list.tail = some t)
    (before : t.pred = some last) (final : s.heap.load last = some n) (apart : last ≠ s.list.tail) (v : δ) :
    ∃ s' temp, listInsertTail m v s = some s' ∧ s.heap.load temp = none ∧
      s'.list = { s.list with length := s.list.length + 1 } ∧
      s'.heap.load = Function.update (Function.update (Function.update s.heap.load
        temp (some ⟨some last, some s.list.tail, v⟩)) last (some { n with next := some temp }))
        s.list.tail (some { t with pred := some temp }) := by
  obtain ⟨absent, loads₀⟩ := malloc_eq m s.heap
  rcases made : m.malloc s.heap with ⟨temp, h₀⟩
  rw [made] at absent loads₀
  dsimp only at absent loads₀
  have tailOld : s.list.tail ≠ temp := ne_of_live tail absent
  have lastOld : last ≠ temp := ne_of_live final absent
  obtain ⟨h₁, run₁, loads₁⟩ :=
    modify_eq (p := temp) (by rw [loads₀, Function.update_self]) fun item : ListItem δ => { item with datum := v }
  have tail₁ : h₁.load s.list.tail = some t := by
    rw [loads₁, loads₀, Function.update_of_ne tailOld, Function.update_of_ne tailOld, tail]
  obtain ⟨h₂, run₂, loads₂⟩ :=
    modify_eq (p := temp) (by rw [loads₁, Function.update_self]) fun item : ListItem δ =>
      { item with pred := some last }
  obtain ⟨h₃, run₃, loads₃⟩ := modify_eq (p := temp) (by rw [loads₂, Function.update_self])
    fun item : ListItem δ => { item with next := some s.list.tail }
  have node : h₃.load = Function.update s.heap.load temp (some ⟨some last, some s.list.tail, v⟩) := by
    rw [loads₃, loads₂, loads₁, loads₀]
    simp only [Function.update_idem]
  have tail₃ : h₃.load s.list.tail = some t := by rw [node, Function.update_of_ne tailOld, tail]
  have final₃ : h₃.load last = some n := by rw [node, Function.update_of_ne lastOld, final]
  obtain ⟨h₄, run₄, loads₄⟩ := modify_eq final₃ fun item : ListItem δ => { item with next := some temp }
  have tail₄ : h₄.load s.list.tail = some t := by rw [loads₄, Function.update_of_ne apart.symm, tail₃]
  obtain ⟨h₅, run₅, loads₅⟩ := modify_eq tail₄ fun item : ListItem δ => { item with pred := some temp }
  refine ⟨⟨{ s.list with length := s.list.length + 1 }, h₅⟩, temp, ?_, absent, rfl, by rw [loads₅, loads₄, node]⟩
  unfold listInsertTail
  simp only [made, run₁, tail₁, run₂, run₃, tail₃, before, run₄, run₅, Option.bind_eq_bind, Option.bind_some,
    Option.pure_def]

/-- The nodes after a removal; a node that nothing points to has been added to them. -/
theorem listRemoveHead_spec {first second third : ListItem δ} {removedNode next : Ptr} (nonzero : 0 < s.list.length)
    (head : s.heap.load s.list.head = some first) (removed : first.next = some removedNode)
    (node : s.heap.load removedNode = some second) (after : second.next = some next)
    (follower : s.heap.load next = some third)
    (apart : s.list.head ≠ removedNode ∧ s.list.head ≠ next ∧ removedNode ≠ next) :
    ∃ s' unused contents, listRemoveHead m s = some s' ∧ s.heap.load unused = none ∧
      s'.list = { s.list with length := s.list.length - 1 } ∧
      s'.heap.load = Function.update (Function.update (Function.update (Function.update s.heap.load
        unused (some contents)) s.list.head (some { first with next := some next })) next
        (some { third with pred := some s.list.head })) removedNode none := by
  obtain ⟨absent, loads₀⟩ := malloc_eq m s.heap
  rcases made : m.malloc s.heap with ⟨unused, h₀⟩
  rw [made] at absent loads₀
  dsimp only at absent loads₀
  have keep : ∀ {p item}, s.heap.load p = some item → h₀.load p = some item := by
    intro p item live
    rw [loads₀, Function.update_of_ne (ne_of_live live absent), live]
  obtain ⟨h₁, run₁, loads₁⟩ := modify_eq (keep head) fun item : ListItem δ => { item with next := some next }
  have node₁ : h₁.load removedNode = some second := by rw [loads₁, Function.update_of_ne apart.1.symm, keep node]
  have follower₁ : h₁.load next = some third := by rw [loads₁, Function.update_of_ne apart.2.1.symm, keep follower]
  obtain ⟨h₂, run₂, loads₂⟩ := modify_eq follower₁ fun item : ListItem δ => { item with pred := some s.list.head }
  obtain ⟨h₃, run₃, loads₃⟩ := free_eq (p := removedNode) (v := second) (by
    rw [loads₂, Function.update_of_ne apart.2.2, node₁])
  refine ⟨⟨{ s.list with length := s.list.length - 1 }, h₃⟩, unused, m.contents s.heap, ?_, absent, rfl, ?_⟩
  · unfold listRemoveHead
    simp only [if_pos nonzero, made, keep head, removed, keep node, run₁, node₁, after, run₂, run₃,
      Option.bind_eq_bind, Option.bind_some, Option.pure_def]
  · rw [loads₃, loads₂, loads₁, loads₀]

end Specs

section Fields
variable {δ : Type} {h h' : Heap (ListItem δ)} {p : Ptr}

theorem nextOf_eq (h : Heap (ListItem δ)) : nextOf h = (·.bind ListItem.next) ∘ h.load := rfl

theorem predOf_eq (h : Heap (ListItem δ)) : predOf h = (·.bind ListItem.pred) ∘ h.load := rfl

theorem datumOf_eq (h : Heap (ListItem δ)) : datumOf h = (·.map ListItem.datum) ∘ h.load := rfl

theorem nextOf_some {q : Ptr} (link : nextOf h p = some q) : ∃ item, h.load p = some item ∧ item.next = some q :=
  Option.bind_eq_some_iff.mp link

theorem predOf_some {q : Ptr} (link : predOf h p = some q) : ∃ item, h.load p = some item ∧ item.pred = some q :=
  Option.bind_eq_some_iff.mp link

/-- Writing a value that is there changes nothing. -/
theorem update_same {β : Type} {f : Ptr → β} {v : β} (same : f p = v) : Function.update f p v = f :=
  same ▸ Function.update_eq_self p f

end Fields

section Links
variable {δ : Type} (m : Allocator (ListItem δ)) {s : State δ}

/-- An insertion in terms of the links: the new node points at the last one and at the tail, and these
point at it. -/
theorem listInsertTail_links {last : Ptr} (forward : nextOf s.heap last = some s.list.tail)
    (backward : predOf s.heap s.list.tail = some last) (apart : last ≠ s.list.tail) (v : δ) :
    ∃ s' temp, listInsertTail m v s = some s' ∧ s.heap.load temp = none ∧
      s'.list = { s.list with length := s.list.length + 1 } ∧
      nextOf s'.heap = Function.update (Function.update (nextOf s.heap) temp (some s.list.tail)) last (some temp) ∧
      predOf s'.heap = Function.update (Function.update (predOf s.heap) temp (some last)) s.list.tail (some temp) ∧
      datumOf s'.heap = Function.update (datumOf s.heap) temp (some v) := by
  obtain ⟨n, lastLive, _⟩ := nextOf_some forward
  obtain ⟨t, tailLive, tailPred⟩ := predOf_some backward
  obtain ⟨s', temp, run, absent, list, loads⟩ := listInsertTail_spec m tailLive tailPred lastLive apart v
  have lastTemp : last ≠ temp := ne_of_live lastLive absent
  have tailTemp : s.list.tail ≠ temp := ne_of_live tailLive absent
  refine ⟨s', temp, run, absent, list, ?_, ?_, ?_⟩
  · rw [nextOf_eq, loads]
    simp only [Function.comp_update, ← nextOf_eq, Option.bind_some]
    refine update_same ?_
    rw [Function.update_of_ne apart.symm, Function.update_of_ne tailTemp, nextOf, tailLive, Option.bind_some]
  · rw [predOf_eq, loads]
    simp only [Function.comp_update, ← predOf_eq, Option.bind_some]
    congr 1
    refine update_same ?_
    rw [Function.update_of_ne lastTemp, predOf, lastLive, Option.bind_some]
  · rw [datumOf_eq, loads]
    simp only [Function.comp_update, ← datumOf_eq, Option.map_some]
    rw [update_same (p := last), update_same (p := s.list.tail)]
    · rw [Function.update_of_ne tailTemp, datumOf, tailLive, Option.map_some]
    · rw [Function.update_of_ne lastTemp, datumOf, lastLive, Option.map_some]

/-- A removal in terms of the links: the head and the second node point at each other, and the first
node is gone. -/
theorem listRemoveHead_links {removedNode next : Ptr} (nonzero : 0 < s.list.length)
    (headNext : nextOf s.heap s.list.head = some removedNode) (removedNext : nextOf s.heap removedNode = some next)
    (nextPred : predOf s.heap next = some removedNode)
    (apart : s.list.head ≠ removedNode ∧ s.list.head ≠ next ∧ removedNode ≠ next) :
    ∃ s' unused contents, listRemoveHead m s = some s' ∧ s.heap.load unused = none ∧
      s'.list = { s.list with length := s.list.length - 1 } ∧
      nextOf s'.heap = Function.update
        (Function.update (Function.update (nextOf s.heap) unused (ListItem.next contents))
        s.list.head (some next)) removedNode none ∧
      predOf s'.heap = Function.update (Function.update (Function.update (predOf s.heap) unused contents.pred)
        next (some s.list.head)) removedNode none ∧
      datumOf s'.heap = Function.update (Function.update (datumOf s.heap) unused (some contents.datum))
        removedNode none := by
  obtain ⟨first, headLive, firstNext⟩ := nextOf_some headNext
  obtain ⟨second, removedLive, secondNext⟩ := nextOf_some removedNext
  obtain ⟨third, nextLive, _⟩ := predOf_some nextPred
  obtain ⟨s', unused, contents, run, absent, list, loads⟩ :=
    listRemoveHead_spec m nonzero headLive firstNext removedLive secondNext nextLive apart
  have headUnused : s.list.head ≠ unused := ne_of_live headLive absent
  have nextUnused : next ≠ unused := ne_of_live nextLive absent
  refine ⟨s', unused, contents, run, absent, list, ?_, ?_, ?_⟩
  · rw [nextOf_eq, loads]
    simp only [Function.comp_update, ← nextOf_eq, Option.bind_some, Option.bind_none]
    congr 1
    refine update_same ?_
    rw [Function.update_of_ne apart.2.1.symm, Function.update_of_ne nextUnused, nextOf, nextLive, Option.bind_some]
  · rw [predOf_eq, loads]
    simp only [Function.comp_update, ← predOf_eq, Option.bind_some, Option.bind_none]
    congr 2
    refine update_same ?_
    rw [Function.update_of_ne headUnused, predOf, headLive, Option.bind_some]
  · rw [datumOf_eq, loads]
    simp only [Function.comp_update, ← datumOf_eq, Option.map_some, Option.map_none]
    rw [update_same (p := s.list.head), update_same (p := next)]
    · rw [Function.update_of_ne nextUnused, datumOf, nextLive, Option.map_some]
    · rw [Function.update_of_ne headUnused, datumOf, headLive, Option.map_some]

end Links

/-- The list in memory: sentinels and nodes linked in both directions, with their data, and the
number of items as an `unsigned`. -/
structure Shape {δ : Type} (s : State δ) (nodes : List Ptr) (items : List δ) : Prop where
  distinct : (s.list.head :: (nodes ++ [s.list.tail])).Nodup
  linked : DoublyLinked.Linked (nextOf s.heap) (predOf s.heap) (s.list.head :: (nodes ++ [s.list.tail]))
  data : nodes.map (datumOf s.heap) = items.map some
  length : s.list.length = UInt32.ofNat items.length

section Steps
variable {δ : Type} (m : Allocator (ListItem δ)) {s : State δ} {nodes : List Ptr} {items : List δ}

/-- Every node of the list is allocated. -/
theorem Shape.live (shape : Shape s nodes items) {p : Ptr} (member : p ∈ s.list.head :: (nodes ++ [s.list.tail])) :
    ∃ item, s.heap.load p = some item := by
  rw [← List.cons_append] at member
  rcases List.mem_append.mp member with inner | last
  · obtain ⟨q, forward⟩ := @DoublyLinked.Linked.next_some _ _ _ (s.list.head :: nodes) _ _ shape.linked inner
    obtain ⟨item, live, _⟩ := nextOf_some forward
    exact ⟨item, live⟩
  · obtain rfl := List.mem_singleton.mp last
    obtain ⟨q, backward⟩ := shape.linked.pred_some (List.mem_append_right nodes List.mem_cons_self)
    obtain ⟨item, live, _⟩ := predOf_some backward
    exact ⟨item, live⟩

/-- A node that is not allocated is not on the list. -/
theorem Shape.ne (shape : Shape s nodes items) {p q : Ptr} (absent : s.heap.load q = none)
    (member : p ∈ s.list.head :: (nodes ++ [s.list.tail])) : p ≠ q := by
  obtain ⟨item, live⟩ := shape.live member
  exact ne_of_live live absent

theorem Shape.insertTail (shape : Shape s nodes items) (v : δ) :
    ∃ s' temp, listInsertTail m v s = some s' ∧ Shape s' (nodes ++ [temp]) (items ++ [v]) := by
  obtain ⟨front, last, split⟩ : ∃ front last, s.list.head :: nodes = front ++ [last] :=
    ⟨_, _, (List.dropLast_append_getLast (List.cons_ne_nil s.list.head nodes)).symm⟩
  have path : s.list.head :: (nodes ++ [s.list.tail]) = front ++ [last, s.list.tail] := by
    rw [← List.cons_append, split, List.append_assoc, List.singleton_append]
  have distinct := shape.distinct
  have linked := shape.linked
  rw [path] at distinct linked
  obtain ⟨_, pair, apart⟩ := List.nodup_append.mp distinct
  have lastTail : last ≠ s.list.tail := fun same => by simp [same] at pair
  obtain ⟨_, ⟨forward, backward⟩, _⟩ := DoublyLinked.linked_split.mp linked
  obtain ⟨s', temp, run, absent, list, nexts, preds, data⟩ := listInsertTail_links m forward backward lastTail v
  have fresh : ∀ p ∈ front ++ [last, s.list.tail], p ≠ temp := fun p member => shape.ne absent (path ▸ member)
  have lastTemp := fresh last (by simp)
  have tailTemp := fresh s.list.tail (by simp)
  have head : s'.list.head = s.list.head := by rw [list]
  have tail : s'.list.tail = s.list.tail := by rw [list]
  have path' : s'.list.head :: ((nodes ++ [temp]) ++ [s'.list.tail]) = front ++ [last, temp, s.list.tail] := by
    rw [head, tail, List.append_assoc, ← List.cons_append, split]
    simp
  refine ⟨s', temp, run, ?_, ?_, ?_, ?_⟩
  · have absentNode : temp ∉ front ++ [last] ++ [s.list.tail] := fun member => fresh temp (by simpa using member) rfl
    have middle : (front ++ [last] ++ temp :: [s.list.tail]).Nodup :=
      List.perm_middle.nodup_iff.mpr (List.nodup_cons.mpr ⟨absentNode, by simpa using distinct⟩)
    rw [path']
    simpa using middle
  · rw [path']
    refine linked.insert (fun p member => ?_) (fun p member => ?_) ⟨?_, ?_⟩ ⟨?_, ?_⟩
    · have other : p ≠ last := by
        rcases List.mem_append.mp member with inner | final
        · exact apart p inner last List.mem_cons_self
        · exact List.mem_singleton.mp final ▸ lastTail.symm
      rw [nexts, Function.update_of_ne other, Function.update_of_ne (fresh p (by simp at member ⊢; tauto))]
    · have other : p ≠ s.list.tail := by
        rcases List.mem_append.mp member with inner | final
        · exact apart p inner s.list.tail (by simp)
        · exact List.mem_singleton.mp final ▸ lastTail
      rw [preds, Function.update_of_ne other, Function.update_of_ne (fresh p (by simp at member ⊢; tauto))]
    · rw [nexts, Function.update_self]
    · rw [preds, Function.update_of_ne tailTemp.symm, Function.update_self]
    · rw [nexts, Function.update_of_ne lastTemp.symm, Function.update_self]
    · rw [preds, Function.update_self]
  · rw [List.map_append, List.map_append, data, List.map_singleton, List.map_singleton,
      Function.update_self, ← shape.data]
    congr 1
    refine List.map_congr_left fun p member => ?_
    rw [Function.update_of_ne (shape.ne absent (List.mem_cons_of_mem _ (List.mem_append_left _ member)))]
  · rw [list, shape.length, List.length_append, List.length_singleton, UInt32.ofNat_add]
    rfl

/-- While the length is not 0 the first item is removed, its node with it. -/
theorem Shape.removeHead (shape : Shape s nodes items) (nonzero : 0 < s.list.length) :
    ∃ s', listRemoveHead m s = some s' ∧ Shape s' nodes.tail items.tail := by
  have data := shape.data
  cases nodes with
  | nil =>
    have empty : items = [] := List.map_eq_nil_iff.mp data.symm
    rw [shape.length, empty] at nonzero
    simp at nonzero
  | cons removedNode nodes =>
  cases items with
  | nil => cases data
  | cons v items =>
  obtain ⟨_, data⟩ := List.cons.inj data
  have distinct := shape.distinct
  have linked := shape.linked
  obtain ⟨next, back, split⟩ : ∃ next back, nodes ++ [s.list.tail] = next :: back :=
    List.exists_cons_of_ne_nil (List.append_ne_nil_of_right_ne_nil _ (List.cons_ne_nil _ _))
  rw [List.cons_append, split] at distinct linked
  obtain ⟨notHead, notRemoved, notNext⟩ : s.list.head ∉ removedNode :: next :: back ∧
      removedNode ∉ next :: back ∧ next ∉ back := by
    rw [List.nodup_cons, List.nodup_cons, List.nodup_cons] at distinct
    exact ⟨distinct.1, distinct.2.1, distinct.2.2.1⟩
  have pieces : DoublyLinked.Linked (nextOf s.heap) (predOf s.heap)
      ([] ++ s.list.head :: removedNode :: next :: back) :=
    linked
  obtain ⟨_, ⟨headNext, _⟩, inner⟩ := DoublyLinked.linked_split.mp pieces
  obtain ⟨⟨removedNext, nextPred⟩, _⟩ := List.isChain_cons_cons.mp inner
  have headRemoved : s.list.head ≠ removedNode := fun same => notHead (same ▸ List.mem_cons_self)
  have headOther : s.list.head ≠ next := fun same => notHead (by simp [same])
  have removedOther : removedNode ≠ next := fun same => notRemoved (same ▸ List.mem_cons_self)
  obtain ⟨s', unused, contents, run, absent, list, nexts, preds, shown⟩ :=
    listRemoveHead_links m nonzero headNext removedNext nextPred ⟨headRemoved, headOther, removedOther⟩
  have fresh : ∀ p ∈ s.list.head :: removedNode :: next :: back, p ≠ unused := fun p member =>
    shape.ne absent (by rw [List.cons_append, split]; exact member)
  have headUnused := fresh s.list.head (by simp)
  have path : s'.list.head :: (nodes ++ [s'.list.tail]) = s.list.head :: next :: back := by
    rw [list, ← split]
  refine ⟨s', run, ?_, ?_, ?_, ?_⟩
  · rw [List.tail_cons, path]
    rw [List.nodup_cons, List.nodup_cons] at distinct
    exact List.nodup_cons.mpr ⟨fun member => notHead (List.mem_cons_of_mem _ member), distinct.2.2⟩
  · rw [List.tail_cons, path]
    refine @DoublyLinked.Linked.remove _ _ _ _ _ [] back _ _ _ pieces (fun p member => ?_)
      (fun p member => ?_) ⟨?_, ?_⟩
    · have inside : p ∈ next :: back := member
      have notFirst : p ≠ s.list.head := fun same => notHead (same ▸ List.mem_cons_of_mem _ inside)
      have kept : p ≠ removedNode := fun same => notRemoved (same ▸ inside)
      rw [nexts, Function.update_of_ne kept, Function.update_of_ne notFirst,
        Function.update_of_ne (fresh p (List.mem_cons_of_mem _ (List.mem_cons_of_mem _ inside)))]
    · rcases List.mem_cons.mp member with rfl | inside
      · rw [preds, Function.update_of_ne headRemoved, Function.update_of_ne headOther,
          Function.update_of_ne headUnused]
      · have notFirst : p ≠ next := fun same => notNext (same ▸ inside)
        have kept : p ≠ removedNode := fun same => notRemoved (same ▸ List.mem_cons_of_mem next inside)
        rw [preds, Function.update_of_ne kept, Function.update_of_ne notFirst,
          Function.update_of_ne (fresh p (by simp [inside]))]
    · rw [nexts, Function.update_of_ne headRemoved, Function.update_self]
    · rw [preds, Function.update_of_ne removedOther.symm, Function.update_self]
  · rw [List.tail_cons, List.tail_cons, shown, ← data]
    refine List.map_congr_left fun p member => ?_
    have inside : p ∈ next :: back := split ▸ List.mem_append_left _ member
    have kept : p ≠ removedNode := fun same => notRemoved (same ▸ inside)
    rw [Function.update_of_ne kept,
      Function.update_of_ne (fresh p (List.mem_cons_of_mem _ (List.mem_cons_of_mem _ inside)))]
  · rw [list, shape.length, List.length_cons, UInt32.ofNat_add]
    exact UInt32.add_sub_cancel _ _

/-- `list_init` makes an empty list. -/
theorem listInit_shape (dh dt : δ) (compare datumDelete : Nat) (h : Heap (ListItem δ)) :
    ∃ start, listInit m dh dt compare datumDelete h = some start ∧ Shape start [] [] := by
  obtain ⟨_, loads₀⟩ := malloc_eq m h
  rcases madeHead : m.malloc h with ⟨dummyHead, h₀⟩
  rw [madeHead] at loads₀
  dsimp only at loads₀
  obtain ⟨absent, loads₁⟩ := malloc_eq m h₀
  rcases madeTail : m.malloc h₀ with ⟨dummyTail, h₁⟩
  rw [madeTail] at absent loads₁
  dsimp only at absent loads₁
  have apart : dummyHead ≠ dummyTail := by
    rintro rfl
    rw [loads₀, Function.update_self] at absent
    cases absent
  have head₁ : h₁.load dummyHead = some (m.contents h) := by
    rw [loads₁, Function.update_of_ne apart, loads₀, Function.update_self]
  have tail₁ : h₁.load dummyTail = some (m.contents h₀) := by rw [loads₁, Function.update_self]
  obtain ⟨h₂, run₂, loads₂⟩ := modify_eq head₁ fun item : ListItem δ => { item with datum := dh }
  have tail₂ : h₂.load dummyTail = some (m.contents h₀) := by rw [loads₂, Function.update_of_ne apart.symm, tail₁]
  obtain ⟨h₃, run₃, loads₃⟩ := modify_eq tail₂ fun item : ListItem δ => { item with datum := dt }
  obtain ⟨h₄, run₄, loads₄⟩ := modify_eq (p := dummyHead)
    (by rw [loads₃, Function.update_of_ne apart, loads₂, Function.update_self])
    fun item : ListItem δ => { item with pred := none }
  obtain ⟨h₅, run₅, loads₅⟩ := modify_eq (p := dummyHead) (by rw [loads₄, Function.update_self])
    fun item : ListItem δ => { item with next := some dummyTail }
  obtain ⟨h₆, run₆, loads₆⟩ := modify_eq (p := dummyTail)
    (by rw [loads₅, Function.update_of_ne apart.symm, loads₄, Function.update_of_ne apart.symm, loads₃,
      Function.update_self])
    fun item : ListItem δ => { item with pred := some dummyHead }
  obtain ⟨h₇, run₇, loads₇⟩ := modify_eq (p := dummyTail) (by rw [loads₆, Function.update_self])
    fun item : ListItem δ => { item with next := none }
  have headNode : h₇.load dummyHead = some ⟨none, some dummyTail, dh⟩ := by
    rw [loads₇, Function.update_of_ne apart, loads₆, Function.update_of_ne apart, loads₅, Function.update_self]
  have tailNode : h₇.load dummyTail = some ⟨some dummyHead, none, dt⟩ := by
    rw [loads₇, Function.update_self]
  refine ⟨⟨⟨dummyHead, dummyTail, 0, compare, datumDelete⟩, h₇⟩, ?_, ?_, ?_, rfl, rfl⟩
  · unfold listInit
    simp only [madeHead, madeTail, run₂, run₃, run₄, run₅, run₆, run₇, Option.bind_eq_bind, Option.bind_some,
      Option.pure_def]
  · exact List.nodup_cons.mpr
      ⟨fun member => apart (List.mem_singleton.mp member), List.nodup_cons.mpr ⟨List.not_mem_nil, List.nodup_nil⟩⟩
  · refine List.isChain_pair.mpr ⟨?_, ?_⟩
    · rw [nextOf, headNode, Option.bind_some]
    · rw [predOf, tailNode, Option.bind_some]

end Steps

section Visits
variable {δ : Type} {s : State δ} {nodes : List Ptr} {items : List δ}

/-- Behind a node of the list the loop visits the nodes up to the tail. -/
theorem visitLoop_eq {σ : Type} (visitor : Ptr → σ → σ) {before : Ptr} {fuel : Nat} (w : σ)
    (linked : DoublyLinked.Linked (nextOf s.heap) (predOf s.heap) (before :: (nodes ++ [s.list.tail])))
    (other : s.list.tail ∉ nodes) (enough : nodes.length < fuel) :
    visitLoop s visitor fuel (nextOf s.heap before) w = some (nodes.foldl (fun w p => visitor p w) w) := by
  induction nodes generalizing before fuel w with
  | nil =>
    obtain ⟨fuel, rfl⟩ := Nat.exists_eq_add_of_lt enough
    rw [(List.isChain_pair.mp linked).1]
    unfold visitLoop
    rw [Option.map_some, if_pos rfl]
    rfl
  | cons p nodes ih =>
    obtain ⟨⟨forward, _⟩, behind⟩ := List.isChain_cons_cons.mp linked
    have rest : DoublyLinked.Linked (nextOf s.heap) (predOf s.heap) (p :: (nodes ++ [s.list.tail])) := behind
    obtain ⟨q, onward⟩ := @DoublyLinked.Linked.next_some _ _ _ (p :: nodes) _ _ rest List.mem_cons_self
    obtain ⟨item, live, _⟩ := nextOf_some onward
    obtain ⟨_, backward⟩ := rest.pred_some (List.mem_append_right nodes List.mem_cons_self)
    obtain ⟨_, tailLive, _⟩ := predOf_some backward
    have inner : ¬ (some p).map Ptr.address = some s.list.tail.address := by
      intro address
      exact other (ptr_eq live tailLive (Option.some.inj address) ▸ List.mem_cons_self)
    have next : nextOf s.heap p = item.next := by rw [nextOf, live, Option.bind_some]
    obtain ⟨fuel, rfl⟩ : ∃ less, fuel = less + 1 := ⟨fuel - 1, by omega⟩
    have later := @ih p fuel (visitor p w) rest (fun member => other (List.mem_cons_of_mem p member))
      (Nat.lt_of_succ_lt_succ enough)
    rw [next] at later
    rw [forward]
    unfold visitLoop
    rw [if_neg inner]
    simp only [live, Option.bind_eq_bind, Option.bind_some, List.foldl_cons]
    exact later

theorem Shape.visit {σ : Type} (shape : Shape s nodes items) (visitor : Ptr → σ → σ) {fuel : Nat} (w : σ)
    (enough : nodes.length < fuel) :
    listVisitItems s visitor fuel w = some (nodes.foldl (fun w p => visitor p w) w) := by
  obtain ⟨item, live⟩ := shape.live List.mem_cons_self
  have next : nextOf s.heap s.list.head = item.next := by rw [nextOf, live, Option.bind_some]
  have other : s.list.tail ∉ nodes := by
    intro member
    obtain ⟨_, pair⟩ := List.nodup_cons.mp shape.distinct
    exact (List.nodup_append.mp pair).2.2 _ member _ List.mem_cons_self rfl
  have visited := visitLoop_eq visitor w shape.linked other enough
  rw [next] at visited
  unfold listVisitItems
  rw [live, Option.bind_eq_bind, Option.bind_some]
  exact visited

theorem Shape.count (shape : Shape s nodes items) : nodes.length = items.length := by
  have lengths := congrArg List.length shape.data
  rwa [List.length_map, List.length_map] at lengths

/-- A list whose items can be counted shows them. -/
theorem Shape.isQueue (shape : Shape s nodes items) (fits : items.length < 2 ^ 32) : IsQueue s items := by
  have length : s.list.length.toNat = items.length := by
    rw [shape.length]
    exact UInt32.toNat_ofNat_of_lt' fits
  have forward := shape.linked.trail
  have backward : DoublyLinked.Linked (predOf s.heap) (nextOf s.heap)
      (s.list.tail :: (nodes.reverse ++ [s.list.head])) := by
    simpa using shape.linked.reverse
  have back := backward.trail
  rw [List.length_append, List.length_singleton, shape.count, ← length] at forward
  rw [List.length_append, List.length_singleton, List.length_reverse, shape.count, ← length] at back
  exact ⟨length, nodes, shape.distinct, forward, back, shape.data,
    fun _ visitor _ w enough => shape.visit visitor w enough⟩

end Visits

end OsLabs.Tutorial
