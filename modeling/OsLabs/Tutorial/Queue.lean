import OsLabs.Tutorial.ListShape

namespace OsLabs.Tutorial
open NodeHeap

section Runs
variable {δ : Type} (m : Allocator (ListItem δ)) {s : State δ} {nodes : List Ptr} {items : List δ}

/-- What a call leaves: with a length of 0 nothing is removed. -/
def Op.keep (items : List δ) : Op δ → List δ
  | .insertTail v => items ++ [v]
  | .removeHead => if UInt32.ofNat items.length = 0 then items else items.tail

/-- Every call returns, and keeps the list in shape. -/
theorem Shape.step (shape : Shape s nodes items) (op : Op δ) :
    ∃ s' nodes', step m s op = some s' ∧ Shape s' nodes' (op.keep items) := by
  cases op with
  | insertTail v =>
    obtain ⟨s', temp, run, shape'⟩ := shape.insertTail m v
    exact ⟨s', _, run, shape'⟩
  | removeHead =>
    by_cases empty : UInt32.ofNat items.length = 0
    · refine ⟨s, nodes, ?_, by rwa [Op.keep, if_pos empty]⟩
      rw [Tutorial.step, listRemoveHead, shape.length, empty, if_neg (by decide)]
      rfl
    · have nonzero : 0 < s.list.length := by
        rw [shape.length]
        exact UInt32.pos_iff_ne_zero.mpr empty
      obtain ⟨s', run, shape'⟩ := shape.removeHead m nonzero
      exact ⟨s', _, run, by rwa [Op.keep, if_neg empty]⟩

/-- Whatever the calls are, no null pointer and no pointer to a freed node is followed. -/
theorem Shape.run (shape : Shape s nodes items) (ops : List (Op δ)) :
    ∃ s' nodes', run m ops s = some s' ∧ Shape s' nodes' (ops.foldl Op.keep items) := by
  induction ops generalizing s nodes items with
  | nil => exact ⟨s, nodes, rfl, shape⟩
  | cons op ops ih =>
    obtain ⟨s₁, nodes₁, first, shape₁⟩ := shape.step m op
    obtain ⟨s₂, nodes₂, rest, shape₂⟩ := ih shape₁
    refine ⟨s₂, nodes₂, ?_, shape₂⟩
    rw [Tutorial.run, first]
    exact rest

/-- Fewer than 2^32 items are counted, and removed in turn. -/
theorem keep_eq_apply (fits : items.length < 2 ^ 32) (op : Op δ) : op.keep items = op.apply items := by
  cases op with
  | insertTail v => rfl
  | removeHead =>
    unfold Op.keep Op.apply
    by_cases empty : UInt32.ofNat items.length = 0
    · have none : items.length = 0 := by
        rw [← UInt32.toNat_ofNat_of_lt' fits, empty]
        rfl
      rw [if_pos empty, List.eq_nil_of_length_eq_zero none, List.tail_nil]
    · rw [if_neg empty]

theorem foldl_keep {ops : List (Op δ)} (fits : ∀ done, done <+: ops → (contents done).length < 2 ^ 32) :
    ops.foldl Op.keep [] = contents ops := by
  induction ops using List.reverseRecOn with
  | nil => rfl
  | append_singleton ops op ih =>
    have earlier := ih fun done front => fits done (front.trans (List.prefix_append ops [op]))
    unfold contents at earlier ⊢
    rw [List.foldl_append, List.foldl_append, earlier]
    exact keep_eq_apply (fits ops (List.prefix_append ops [op])) op

/-- From `list_init` on, the list is a queue behind every call if and only if it never has to hold
2^32 items. -/
theorem isQueue_iff (dh dt : δ) (compare datumDelete : Nat) (h : Heap (ListItem δ)) (ops : List (Op δ)) :
    (∃ start, listInit m dh dt compare datumDelete h = some start ∧
      ∀ done, done <+: ops → ∃ s, Tutorial.run m done start = some s ∧ IsQueue s (contents done)) ↔
    ∀ done, done <+: ops → (contents done).length < 2 ^ 32 := by
  constructor
  · rintro ⟨start, _, queues⟩ done front
    obtain ⟨s, _, queue⟩ := queues done front
    rw [← queue.length]
    exact s.list.length.toNat_lt
  · intro fits
    obtain ⟨start, init, shape⟩ := listInit_shape m dh dt compare datumDelete h
    refine ⟨start, init, fun done front => ?_⟩
    obtain ⟨s, nodes, run, shape'⟩ := shape.run m done
    rw [foldl_keep fun earlier before => fits earlier (before.trans front)] at shape'
    exact ⟨s, run, shape'.isQueue (fits done front)⟩

theorem length_contents_inserts (v : δ) (n : Nat) : (contents (List.replicate n (Op.insertTail v))).length = n := by
  have insert : ∀ items : List δ,
      (List.replicate n (Op.insertTail v)).foldl Op.apply items = items ++ List.replicate n v := by
    induction n with
    | zero => simp
    | succ n ih =>
      intro items
      rw [List.replicate_succ, List.foldl_cons, ih, Op.apply, List.append_assoc, List.singleton_append,
        List.replicate_succ]
  rw [contents, insert, List.nil_append, List.length_replicate]

/-- After 2^32 insertions the length is 0 again. -/
theorem insertions_wrap :
    ¬ ∃ start, listInit (Allocator.lowest ⟨none, none, ()⟩) () () 0 0 Heap.empty = some start ∧
      ∀ done, done <+: List.replicate (2 ^ 32) (Op.insertTail ()) →
        ∃ s, Tutorial.run (Allocator.lowest ⟨none, none, ()⟩) done start = some s ∧ IsQueue s (contents done) := by
  rintro ⟨start, _, queues⟩
  obtain ⟨s, _, queue⟩ := queues _ (List.prefix_refl _)
  have length := queue.length
  rw [length_contents_inserts] at length
  exact absurd s.list.length.toNat_lt (length ▸ lt_irrefl _)

end Runs

section Harness
variable {δ : Type} (m : Allocator (ListItem δ)) {s : State δ} {nodes : List Ptr} {items : List δ}

/-- A removal leaves the other items, and an empty list as it is. -/
theorem Shape.removed (shape : Shape s nodes items) (fits : items.length < 2 ^ 32) :
    ∃ s' nodes', listRemoveHead m s = some s' ∧ Shape s' nodes' items.tail := by
  obtain ⟨s', nodes', run, shape'⟩ := shape.step m .removeHead
  rw [keep_eq_apply fits] at shape'
  exact ⟨s', nodes', run, shape'⟩

theorem foldl_printList {h : Heap (ListItem δ)} (data : nodes.map (datumOf h) = items.map some)
    (out : List (Printed δ)) :
    nodes.foldl (fun w p => printList h p w) out = out ++ items.map .datum := by
  induction nodes generalizing items out with
  | nil =>
    obtain rfl : items = [] := List.map_eq_nil_iff.mp data.symm
    simp
  | cons p nodes ih =>
    cases items with
    | nil => cases data
    | cons v items =>
      obtain ⟨first, rest⟩ := List.cons.inj data
      obtain ⟨item, live, rfl⟩ := Option.map_eq_some_iff.mp first
      have printed : printList h p out = out ++ [.datum item.datum] := by rw [printList, live]
      rw [List.foldl_cons, printed, ih rest, List.append_assoc, List.map_cons, List.singleton_append]

/-- What a round prints when so many items have been removed. -/
def roundText (items : List δ) (gone : Nat) : List (Printed δ) :=
  (items.drop gone).map .datum ++ (if items.length ≤ gone then [.empty] else []) ++ [.dashes]

theorem roundText_drop (items : List δ) (k : Nat) :
    roundText items (3 * (k + 1 + 1)) = roundText (items.drop 3) (3 * (k + 1)) := by
  have gone : 3 + 3 * (k + 1) = 3 * (k + 1 + 1) := by omega
  have last : (items.length - 3 ≤ 3 * (k + 1)) = (items.length ≤ 3 * (k + 1 + 1)) := propext (by omega)
  simp only [roundText, List.drop_drop, List.length_drop, gone, last]

/-- The loop ends, and prints what is left after three, six, nine removals and so on. -/
theorem tailRemove_eq (shape : Shape s nodes items) (fits : items.length < 2 ^ 32) {fuel : Nat}
    (enough : items.length < fuel) :
    tailRemove m fuel s =
      some ((List.range ((items.length + 2) / 3)).flatMap fun k => roundText items (3 * (k + 1))) := by
  induction fuel generalizing s nodes items with
  | zero => exact absurd enough (Nat.not_lt_zero _)
  | succ fuel ih =>
    have length : s.list.length.toNat = items.length := (shape.isQueue fits).length
    unfold tailRemove
    by_cases empty : items.length = 0
    · have zero : ¬ 0 < s.list.length := by
        rw [UInt32.lt_iff_toNat_lt, length, empty]
        exact lt_irrefl 0
      rw [if_neg zero, empty]
      rfl
    · have nonzero : 0 < s.list.length := by
        rw [UInt32.lt_iff_toNat_lt, length]
        exact Nat.pos_of_ne_zero empty
      obtain ⟨s₁, _, run₁, shape₁⟩ := shape.removed m fits
      obtain ⟨s₂, _, run₂, shape₂⟩ := shape₁.removed m (by rw [List.length_tail]; omega)
      obtain ⟨s₃, nodes₃, run₃, shape₃⟩ := shape₂.removed m (by rw [List.length_tail, List.length_tail]; omega)
      have three : items.tail.tail.tail = items.drop 3 := by
        rw [← List.drop_one, ← List.drop_one, ← List.drop_one, List.drop_drop, List.drop_drop]
      rw [three] at shape₃
      have short : (items.drop 3).length = items.length - 3 := List.length_drop
      have fits₃ : (items.drop 3).length < 2 ^ 32 := by omega
      have out := @Shape.visit δ s₃ nodes₃ _ _ shape₃ (printList s₃.heap) (fuel + 1) [] (by rw [shape₃.count]; omega)
      rw [foldl_printList shape₃.data, List.nil_append] at out
      have more := ih shape₃ fits₃ (by omega)
      have last : (s₃.list.length = 0) = (items.length ≤ 3 * (0 + 1)) := propext (by
        rw [← UInt32.toNat_inj, (shape₃.isQueue fits₃).length, UInt32.toNat_zero]
        omega)
      have rounds : (items.length + 2) / 3 = ((items.drop 3).length + 2) / 3 + 1 := by omega
      rw [if_pos nonzero, rounds, List.range_succ_eq_map, List.flatMap_cons, List.flatMap_map]
      simp only [run₁, run₂, run₃, out, more, last, roundText_drop, Option.bind_eq_bind, Option.bind_some,
        Option.pure_def]
      rfl

end Harness

end OsLabs.Tutorial
