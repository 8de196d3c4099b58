import OsLabs.Lib.TreeCost
import OsLabs.Inodes.PlacedFile

namespace OsLabs.Inodes
open ByteMemory PointerTree

/-- The free blocks of the data area, in increasing order. -/
def spare (n m : Int) (bitmap : Bytes) : List Int :=
  ((List.range (n - m).toNat).map fun k : Nat => m + k).filter fun b => bitmap b == 0

section Spare
variable {n m : Int} {bitmap : Bytes}

theorem mem_spare {b : Int} : b ∈ spare n m bitmap ↔ (m ≤ b ∧ b < n) ∧ bitmap b = 0 := by
  unfold spare
  rw [List.mem_filter, List.mem_map, beq_iff_eq]
  refine and_congr_left fun _ => ⟨?_, fun ⟨lower, upper⟩ => ⟨(b - m).toNat, List.mem_range.mpr (by omega), by omega⟩⟩
  rintro ⟨k, below, rfl⟩
  have below := List.mem_range.mp below
  omega

theorem spare_increasing : (spare n m bitmap).Pairwise (· < ·) := by
  refine List.Pairwise.filter _ (List.pairwise_map.mpr ?_)
  exact List.pairwise_lt_range.imp fun below => by omega

theorem length_spare : (spare n m bitmap).length = freeCount n m bitmap := by
  have listed : freeCount n m bitmap =
      ((List.range (n - m).toNat).filter fun k : Nat => bitmap (m + k) = 0).length := rfl
  rw [listed, spare, List.filter_map, List.length_map]
  refine congrArg List.length (List.filter_congr fun k _ => ?_)
  rw [Function.comp_apply, beq_eq_decide]

theorem spare_congr {bitmap' : Bytes} (same : ∀ b, m ≤ b → b < n → (bitmap b = 0 ↔ bitmap' b = 0)) :
    spare n m bitmap = spare n m bitmap' := by
  refine List.filter_congr fun b listed => ?_
  obtain ⟨k, below, rfl⟩ := List.mem_map.mp listed
  have below := List.mem_range.mp below
  rw [Bool.eq_iff_iff, beq_iff_eq, beq_iff_eq]
  exact same _ (by omega) (by omega)

theorem length_spare_free (free : ∀ b, m ≤ b → b < n → bitmap b = 0) : (spare n m bitmap).length = (n - m).toNat := by
  have all : spare n m bitmap = (List.range (n - m).toNat).map fun k : Nat => m + k := by
    refine List.filter_eq_self.mpr fun b listed => ?_
    obtain ⟨k, below, rfl⟩ := List.mem_map.mp listed
    have below := List.mem_range.mp below
    exact beq_iff_eq.mpr (free _ (by omega) (by omega))
  rw [all, List.length_map, List.length_range]

theorem getFreeBlock_nil (ordered : m ≤ n) (none : spare n m bitmap = []) :
    getFreeBlock bitmap n m = .error .noFreeBlock := by
  cases run : getFreeBlock bitmap n m with
  | error e =>
    unfold getFreeBlock at run
    dsimp only at run
    split at run
    · exact run.symm
    · cases run
  | ok found =>
    obtain ⟨lower, upper, free, _, _⟩ := getFreeBlock_spec ordered run
    have member := mem_spare.mpr ⟨⟨lower, upper⟩, free⟩
    rw [none] at member
    exact absurd member List.not_mem_nil

/-- `get_free_block` takes the first of the free blocks. -/
theorem getFreeBlock_cons (ordered : m ≤ n) {b : Int} {rest : List Int} (next : spare n m bitmap = b :: rest) :
    getFreeBlock bitmap n m = .ok (b, Function.update bitmap b 1) ∧
      spare n m (Function.update bitmap b 1) = rest := by
  have increasing := @spare_increasing n m bitmap
  rw [next, List.pairwise_cons] at increasing
  have first := mem_spare.mp (next ▸ List.mem_cons_self (a := b) (l := rest))
  constructor
  · cases run : getFreeBlock bitmap n m with
    | error e =>
      obtain ⟨lower, upper, taken, _⟩ := firstFree_spec bitmap (n - m).toNat m
      unfold getFreeBlock at run
      dsimp only at run
      split at run
      · rename_i last
        exact absurd first.2 (taken b first.1.1 (by omega))
      · cases run
    | ok found =>
      obtain ⟨c, marked⟩ := found
      obtain ⟨lower, upper, free, taken, rfl⟩ := getFreeBlock_spec ordered run
      have member := mem_spare.mpr ⟨⟨lower, upper⟩, free⟩
      rw [next] at member
      rcases List.mem_cons.mp member with rfl | later
      · rfl
      · exact absurd first.2 (taken b first.1.1 (increasing.1 c later))
  · have others : spare n m (Function.update bitmap b 1) = (spare n m bitmap).filter fun c => c != b := by
      unfold spare
      rw [List.filter_filter]
      refine List.filter_congr fun c _ => ?_
      by_cases same : c = b
      · subst same
        simp
      · simp [same]
    rw [others, next, List.filter_cons, if_neg (by simp)]
    exact List.filter_eq_self.mpr fun c later => bne_iff_ne.mpr (increasing.1 c later).ne'

end Spare

/-- How many blocks of the input file have not been read yet, a part of a block counting as one. -/
def chunksLeft (file : List UInt8) (s : Placing) : Nat := (file.length - s.fpr + 1023) / 1024

/-- The byte count is the position in the file. -/
structure Counted (file : List UInt8) (s : Placing) : Prop where
  count : s.nbytes = s.fpr
  within : s.fpr ≤ file.length

/-- `v` follows from `s` by taking the first `blocks` free blocks and reading `chunks` blocks of the file. -/
structure Spends (file : List UInt8) (n m : Int) (s v : Placing) (blocks chunks : Nat) : Prop where
  enough : blocks ≤ (spare n m s.bitmap).length
  remaining : spare n m v.bitmap = (spare n m s.bitmap).drop blocks
  bitmap : ∀ b, v.bitmap b = if b ∈ (spare n m s.bitmap).take blocks then 1 else s.bitmap b
  counted : Counted file v
  left : chunksLeft file v = chunksLeft file s - chunks

/-- A step that needs `blocks` free blocks: without them it exits for lack of a free block, and with them it
ends in a state that has spent them. -/
inductive Outcome {α : Type} (file : List UInt8) (n m : Int) (state : α → Placing) (s : Placing) (blocks chunks : Nat) :
    Except Exit α → Prop
  | short (few : (spare n m s.bitmap).length < blocks) : Outcome file n m state s blocks chunks (.error .noFreeBlock)
  | spent {a : α} (spends : Spends file n m s (state a) blocks chunks) : Outcome file n m state s blocks chunks (.ok a)

section Spending
variable {file : List UInt8} {n m : Int} {s u v : Placing}

theorem Spends.refl (counted : Counted file s) :
    Spends file n m s s 0 0 := ⟨Nat.zero_le _, rfl, by simp, counted, rfl⟩

/-- Nothing is taken when nothing is left to be read. -/
theorem Spends.idle (counted : Counted file s) {chunks : Nat} (none : chunksLeft file s = 0) :
    Spends file n m s s 0 chunks :=
  ⟨Nat.zero_le _, rfl, by simp, counted, by rw [none, Nat.zero_sub]⟩

theorem Spends.trans {b c d e : Nat} (first : Spends file n m s u b d) (second : Spends file n m u v c e) :
    Spends file n m s v (b + c) (d + e) := by
  have enough := second.enough
  rw [first.remaining, List.length_drop] at enough
  have room := first.enough
  refine ⟨by omega, ?_, fun x => ?_, second.counted, ?_⟩
  · rw [second.remaining, first.remaining, List.drop_drop]
  · rw [second.bitmap, first.bitmap, first.remaining, List.take_add]
    by_cases late : x ∈ ((spare n m s.bitmap).drop b).take c
    · rw [if_pos late, if_pos (List.mem_append_right _ late)]
    · simp only [late, if_false, List.mem_append, or_false]
  · rw [second.left, first.left, Nat.sub_sub]

theorem Outcome.after {α : Type} {state : α → Placing} {x : Except Exit α} {b c d e : Nat}
    (first : Spends file n m s u b d)
    (next : Outcome file n m state u c e x) : Outcome file n m state s (b + c) (d + e) x := by
  cases next with
  | short few =>
    have room := first.enough
    rw [first.remaining, List.length_drop] at few
    exact .short (by omega)
  | spent later => exact .spent (first.trans later)

theorem Outcome.bind {α β : Type} {before : α → Placing} {after : β → Placing} {x : Except Exit α}
    {f : α → Except Exit β}
    {b c d e : Nat} (first : Outcome file n m before s b d x)
    (next : ∀ a, Spends file n m s (before a) b d → Outcome file n m after (before a) c e (f a)) :
    Outcome file n m after s (b + c) (d + e) (x.bind f) := by
  cases first with
  | short few => exact .short (by omega)
  | @spent a spends => exact (next a spends).after spends

/-- Only the bitmap and the position in the file matter. -/
theorem Outcome.map {α β : Type} {before : α → Placing} {after : β → Placing} {x : Except Exit α}
    {f : α → β} {b d : Nat}
    (first : Outcome file n m before s b d x) (bitmap : ∀ a, (after (f a)).bitmap = (before a).bitmap)
    (fpr : ∀ a, (after (f a)).fpr = (before a).fpr) (nbytes : ∀ a, (after (f a)).nbytes = (before a).nbytes) :
    Outcome file n m after s b d (x.bind fun a => .ok (f a)) := by
  cases first with
  | short few => exact .short few
  | @spent a spends =>
    refine .spent ⟨spends.enough, ?_, ?_, ⟨?_, ?_⟩, ?_⟩
    · rw [bitmap, spends.remaining]
    · rw [bitmap]
      exact spends.bitmap
    · rw [nbytes, fpr, spends.counted.count]
    · rw [fpr]
      exact spends.counted.within
    · rw [chunksLeft, fpr, ← chunksLeft, spends.left]

/-- Part of the file is left to be read exactly while the byte count is below its length. -/
theorem Counted.started_iff (counted : Counted file s) : s.nbytes < file.length ↔ 0 < chunksLeft file s := by
  obtain ⟨count, within⟩ := counted
  unfold chunksLeft
  omega

theorem Counted.done_iff (counted : Counted file s) : file.length ≤ s.nbytes ↔ chunksLeft file s = 0 := by
  have started := counted.started_iff
  omega

end Spending

/-- The cost of a step that stores up to `256 ^ k` data blocks in a tree of height `k`. -/
def EntryCost (file : List UInt8) (n m : Int) (k : Nat) (step : Int → Placing → Except Exit Placing) : Prop :=
  ∀ position s, Counted file s → 0 < chunksLeft file s →
    Outcome file n m id s (cost 256 k (min (chunksLeft file s) (256 ^ k))) (256 ^ k) (step position s)

section Levels
variable {file : List UInt8} {n m : Int} (ordered : m ≤ n) (short : file.length < 2 ^ 31)

include short in
/-- A data block takes one free block for the next block of the file. -/
theorem spends_chunk {s u : Placing} {b : Int} {rest : List Int} (counted : Counted file s)
    (next : spare n m s.bitmap = b :: rest) (later : spare n m (Function.update s.bitmap b 1) = rest)
    (bitmap : u.bitmap = Function.update s.bitmap b 1) (fpr : u.fpr = s.fpr) (nbytes : u.nbytes = s.nbytes)
    (c : Int) :
    Spends file n m s (copyBlock c (readChunk file u)) 1 1 := by
  obtain ⟨count, within⟩ := counted
  have sum : wrap32 (u.nbytes + ↑(min 1024 (file.length - u.fpr))) = u.nbytes + ↑(min 1024 (file.length - u.fpr)) :=
    wrap32_of_range (by omega) (by omega)
  refine ⟨by rw [next]; simp, ?_, fun x => ?_, ⟨?_, ?_⟩, ?_⟩
  · rw [next]
    simpa [copyBlock, readChunk, bitmap] using later
  · rw [next]
    by_cases same : x = b <;> simp [copyBlock, readChunk, bitmap, same]
  · simp only [copyBlock, readChunk, sum]
    push_cast
    omega
  · simp only [copyBlock, readChunk]
    omega
  · simp only [chunksLeft, copyBlock, readChunk]
    omega

include ordered short

theorem placeDataEntry_cost : EntryCost file n m 0 (placeDataEntry file n m) := by
  intro position s counted some
  rw [cost, pow_zero, min_eq_right (show 1 ≤ chunksLeft file s from some)]
  unfold placeDataEntry
  cases next : spare n m s.bitmap with
  | nil =>
    rw [getFreeBlock_nil ordered next]
    exact .short (by rw [next]; exact Nat.one_pos)
  | cons b rest =>
    obtain ⟨run, later⟩ := getFreeBlock_cons ordered next
    rw [run]
    exact .spent (@spends_chunk file n m short s { s with
      bitmap := Function.update s.bitmap b 1, rawdata := writeInt position b s.rawdata } b rest counted next
        later rfl rfl rfl b)

omit ordered short in
/-- The loop over the entries of a pointer block costs what its subtrees cost. -/
theorem fillBlock_cost {k : Nat} {step : Int → Placing → Except Exit Placing} (each : EntryCost file n m k step)
    (blockno : Int) (left : Nat) : ∀ s, Counted file s →
    Outcome file n m Prod.snd s (cost 256 k (min (chunksLeft file s) (left * 256 ^ k))) (left * 256 ^ k)
      (fillBlock step file.length blockno left s) := by
  induction left with
  | zero =>
    intro s counted
    rw [Nat.zero_mul, Nat.min_zero, cost_zero (by decide)]
    exact .spent (.refl counted)
  | succ left ih =>
    intro s counted
    unfold fillBlock
    by_cases started : s.nbytes < file.length
    swap
    · have none : chunksLeft file s = 0 := by
        have some := counted.started_iff
        omega
      rw [if_neg started, none, Nat.zero_min, cost_zero (by decide)]
      exact .spent (.idle counted none)
    rw [if_pos started]
    generalize wrap32 (wrap32 (blockno * 1024) + (256 - ((left : Int) + 1)) * 4) = position
    rw [cost_trees (by decide), Nat.succ_mul, Nat.add_comm (left * 256 ^ k)]
    refine (each position s counted (counted.started_iff.mp started)).bind fun v spends => ?_
    change Spends file n m s v _ _ at spends
    change Outcome file n m Prod.snd v _ _ _
    rw [← spends.left]
    split
    · rename_i done
      have none := spends.counted.done_iff.mp done
      rw [none, Nat.zero_min, cost_zero (by decide)]
      exact .spent (.idle spends.counted none)
    · exact ih v spends.counted

omit short in
/-- A pointer block of height `k + 1` over a step for height `k`. -/
theorem placePointerBlock_cost {k : Nat} {name : Int → Inode → Inode} {step : Int → Placing → Except Exit Placing}
    (each : EntryCost file n m k step) {s : Placing} (counted : Counted file s) (some : 0 < chunksLeft file s) :
    Outcome file n m (fun out => out.2.2) s (cost 256 (k + 1) (min (chunksLeft file s) (256 ^ (k + 1))))
      (256 ^ (k + 1))
      (placePointerBlock n m name step file.length s) := by
  have width : 0 < 256 ^ (k + 1) := Nat.pow_pos (by decide)
  rw [cost_tree (by omega) (min_le_right _ _)]
  unfold placePointerBlock
  cases next : spare n m s.bitmap with
  | nil =>
    rw [getFreeBlock_nil ordered next]
    exact .short (by rw [next]; exact Nat.lt_add_right _ Nat.one_pos)
  | cons b rest =>
    obtain ⟨run, later⟩ := getFreeBlock_cons ordered next
    rw [run]
    -- the pointer block itself, before its entries are filled
    have first : Spends file n m s { s with bitmap := Function.update s.bitmap b 1, ip := name b s.ip } 1 0 := by
      refine ⟨by rw [next]; simp, by rw [next]; simpa using later, fun x => ?_, ⟨counted.count, counted.within⟩, rfl⟩
      rw [next]
      by_cases same : x = b <;> simp [same]
    show Outcome file n m (fun out => out.2.2) s _ _ ((fillBlock step file.length b 256
      { s with bitmap := Function.update s.bitmap b 1, ip := name b s.ip }).bind fun out => .ok (b, out.1, out.2))
    generalize { s with bitmap := Function.update s.bitmap b 1, ip := name b s.ip } = u at first ⊢
    have left : chunksLeft file u = chunksLeft file s := first.left
    have fill := fillBlock_cost each b 256 u first.counted
    rw [left, ← pow_succ'] at fill
    have whole := Outcome.after first fill
    rw [Nat.zero_add] at whole
    exact whole.map (fun _ => rfl) (fun _ => rfl) (fun _ => rfl)

theorem placeIndirectBlock_cost (numIndirect : Int) {s : Placing} (counted : Counted file s)
    (some : 0 < chunksLeft file s) :
    Outcome file n m Prod.snd s (cost 256 1 (min (chunksLeft file s) (256 ^ 1))) (256 ^ 1)
      (placeIndirectBlock file n m file.length numIndirect s) :=
  (placePointerBlock_cost ordered (placeDataEntry_cost ordered short) counted some).map
    (fun _ => rfl) (fun _ => rfl) (fun _ => rfl)

theorem placeIndirectEntry_cost :
    EntryCost file n m 1 (placeIndirectEntry file n m file.length) := fun _ _ counted some =>
  (placeIndirectBlock_cost ordered short 21 counted some).map (fun _ => rfl) (fun _ => rfl) (fun _ => rfl)

theorem placeDoublyIndirectBlock_cost (tripleFlag : Int) {s : Placing} (counted : Counted file s)
    (some : 0 < chunksLeft file s) :
    Outcome file n m Prod.snd s (cost 256 2 (min (chunksLeft file s) (256 ^ 2))) (256 ^ 2)
      (placeDoublyIndirectBlock file n m file.length tripleFlag s) :=
  (placePointerBlock_cost ordered (placeIndirectEntry_cost ordered short) counted some).map
    (fun _ => rfl) (fun _ => rfl) (fun _ => rfl)

theorem placeDoublyEntry_cost :
    EntryCost file n m 2 (placeDoublyEntry file n m file.length) := fun _ _ counted some =>
  (placeDoublyIndirectBlock_cost ordered short 1 counted some).map (fun _ => rfl) (fun _ => rfl) (fun _ => rfl)

theorem placeTriplyIndirectBlock_cost {s : Placing} (counted : Counted file s) (some : 0 < chunksLeft file s) :
    Outcome file n m id s (cost 256 3 (min (chunksLeft file s) (256 ^ 3))) (256 ^ 3)
      (placeTriplyIndirectBlock file n m file.length s) :=
  (placePointerBlock_cost ordered (placeDoublyEntry_cost ordered short) counted some).map
    (fun _ => rfl) (fun _ => rfl) (fun _ => rfl)

omit ordered short in
/-- A stage that starts only when a part of the file is left to be read. -/
theorem outcome_started {s : Placing} (counted : Counted file s) {k chunks : Nat} {x : Except Exit Placing}
    (started : 0 < chunksLeft file s → Outcome file n m id s (cost 256 k (min (chunksLeft file s) chunks)) chunks x) :
    Outcome file n m id s (cost 256 k (min (chunksLeft file s) chunks)) chunks
      (if s.nbytes < file.length then x else .ok s) := by
  split
  · rename_i some
    exact started (counted.started_iff.mp some)
  · rename_i done
    have none := counted.done_iff.mp (not_lt.mp done)
    rw [none, Nat.zero_min, cost_zero (by decide)]
    exact .spent (.idle counted none)

/-- The first direct block is taken even for an empty file. -/
theorem placeDirect_cost (left : Nat) : ∀ s, Counted file s →
    Outcome file n m id s (max (min 1 left) (min (chunksLeft file s) left)) left (placeDirect file n m left s) := by
  induction left with
  | zero =>
    intro s counted
    rw [Nat.min_zero, Nat.min_zero, Nat.max_self]
    exact .spent (.refl counted)
  | succ left ih =>
    intro s counted
    unfold placeDirect
    cases next : spare n m s.bitmap with
    | nil =>
      rw [getFreeBlock_nil ordered next]
      exact .short (by rw [next, List.length_nil]; omega)
    | cons b rest =>
      obtain ⟨run, later⟩ := getFreeBlock_cons ordered next
      rw [run]
      have first := @spends_chunk file n m short s { s with
        bitmap := Function.update s.bitmap b 1
        ip := { s.ip with dblocks := Function.update s.ip.dblocks (12 - (left + 1)) b } } b rest counted
          next later rfl rfl rfl b
      show Outcome file n m id s _ _ (if (file.length : Int) ≤ (copyBlock b (readChunk file { s with
        bitmap := Function.update s.bitmap b 1
        ip := { s.ip with dblocks := Function.update s.ip.dblocks (12 - (left + 1)) b } })).nbytes then _ else _)
      generalize copyBlock b _ = u at first ⊢
      have fewer := first.left
      have split : max (min 1 (left + 1)) (min (chunksLeft file s) (left + 1)) =
          1 + (min (chunksLeft file u) left) := by omega
      rw [split, Nat.add_comm left 1]
      split
      · rename_i done
        have none := first.counted.done_iff.mp done
        rw [none, Nat.zero_min]
        exact .after first (.spent (.idle first.counted none))
      · rename_i more
        have some : 0 < chunksLeft file u := by
          have done := first.counted.done_iff
          omega
        have onward := ih u first.counted
        rw [show max (min 1 left) (min (chunksLeft file u) left) = min (chunksLeft file u) left by omega] at onward
        exact .after first onward

theorem placeIndirects_cost (left : Nat) : ∀ s, Counted file s →
    Outcome file n m id s (cost 256 1 (min (chunksLeft file s) (left * 256 ^ 1))) (left * 256 ^ 1)
      (placeIndirects file n m left s) := by
  induction left with
  | zero =>
    intro s counted
    rw [Nat.zero_mul, Nat.min_zero, cost_zero (by decide)]
    exact .spent (.refl counted)
  | succ left ih =>
    intro s counted
    unfold placeIndirects
    rw [wrap32_of_range (by omega) (by omega)]
    refine outcome_started counted fun some => ?_
    rw [cost_trees (by decide), Nat.succ_mul, Nat.add_comm (left * 256 ^ 1)]
    refine (placeIndirectBlock_cost ordered short _ counted some).bind fun v spends => ?_
    rw [← spends.left]
    exact ih v.2 spends.counted

theorem placeDoubly_cost {s : Placing} (counted : Counted file s) :
    Outcome file n m id s (cost 256 2 (min (chunksLeft file s) (256 ^ 2))) (256 ^ 2) (placeDoubly file n m s) := by
  unfold placeDoubly
  rw [wrap32_of_range (by omega) (by omega)]
  exact outcome_started counted fun some => (placeDoublyIndirectBlock_cost ordered short 0 counted some).map
    (fun _ => rfl) (fun _ => rfl) (fun _ => rfl)

theorem placeTriply_cost {s : Placing} (counted : Counted file s) :
    Outcome file n m id s (cost 256 3 (min (chunksLeft file s) (256 ^ 3))) (256 ^ 3) (placeTriply file n m s) := by
  unfold placeTriply
  rw [wrap32_of_range (by omega) (by omega)]
  exact outcome_started counted fun some => placeTriplyIndirectBlock_cost ordered short counted some

end Levels

/-- The number of blocks that a file of `s` bytes takes up: the data blocks, of which there is
always one, and the pointer blocks of each level. -/
def need (s : Nat) : Nat :=
  let d := max 1 ((s + 1023) / 1024)
  let r := d - 12
  let r2 := r - 768
  let r3 := r2 - 65536
  d + min 3 ((r + 255) / 256) + (if 0 < r2 then 1 + (min r2 65536 + 255) / 256 else 0) +
    (if 0 < r3 then 1 + (r3 + 65535) / 65536 + (r3 + 255) / 256 else 0)

section Need
variable (r : Nat)

theorem cost_single : cost 256 1 (min r (3 * 256 ^ 1)) = min r 768 + min 3 ((r + 255) / 256) := by
  simp only [cost]
  omega

theorem cost_double : cost 256 2 (min r (256 ^ 2)) =
    min r 65536 + if 0 < r then 1 + (min r 65536 + 255) / 256 else 0 := by
  split
  · rename_i some
    rw [cost_tree (by omega) (min_le_right _ _)]
    simp only [cost]
    omega
  · rename_i none
    rw [Nat.eq_zero_of_not_pos none]
    rfl

theorem cost_triple (fits : r ≤ 256 ^ 3) : cost 256 3 (min r (256 ^ 3)) =
    r + if 0 < r then 1 + (r + 65535) / 65536 + (r + 255) / 256 else 0 := by
  rw [min_eq_left fits]
  split
  · rename_i some
    rw [cost_tree some fits]
    simp only [cost]
    omega
  · rename_i none
    rw [Nat.eq_zero_of_not_pos none]
    rfl

end Need

/-- For the files that the byte count can measure, the levels together take what is needed. -/
theorem need_eq_cost {s : Nat} (short : s < 2 ^ 31) (q : Nat) (chunks : (s + 1023) / 1024 = q) :
    max (min 1 12) (min q 12) + (cost 256 1 (min (q - 12) (3 * 256 ^ 1)) +
      (cost 256 2 (min (q - 12 - 3 * 256 ^ 1) (256 ^ 2)) +
        (cost 256 3 (min (q - 12 - 3 * 256 ^ 1 - 256 ^ 2) (256 ^ 3)) + 0))) =
    need s := by
  have few : q ≤ 2 ^ 21 := by omega
  have r : max 1 q - 12 = q - 12 := by omega
  rw [cost_single, cost_double, cost_triple _ (by omega)]
  unfold need
  simp only [chunks, r, show 3 * 256 ^ 1 = 768 from rfl, show 256 ^ 2 = 65536 from rfl]
  omega

section Budget
variable {file : List UInt8} {n m : Int}

/-- From the bitmap that it gets, the whole allocation takes what the file needs. -/
theorem placeBlocks_cost (ordered : m ≤ n) (short : file.length < 2 ^ 31) (heap : Heap) (uid gid : Int)
    (rawdata bitmap : Bytes) : ∃ s : Placing, s.bitmap = bitmap ∧
    Outcome file n m id s (need file.length) (12 + (3 * 256 ^ 1 + (256 ^ 2 + (256 ^ 3 + 0))))
      (placeBlocks heap file uid gid m rawdata bitmap n) := by
  refine ⟨⟨rawdata, bitmap, { heap.ip with
    mode := 0, nlink := 1, uid := uid, gid := gid
    ctime := wrap32 (heap.random 0), mtime := wrap32 (heap.random 1), atime := wrap32 (heap.random 2) }, 0,
      heap.buf, 0⟩,
    rfl, ?_⟩
  generalize start : Placing.mk rawdata bitmap _ 0 heap.buf 0 = s
  have counted : Counted file s := by
    subst start
    exact ⟨rfl, Nat.zero_le _⟩
  have whole : chunksLeft file s = (file.length + 1023) / 1024 := by
    subst start
    rfl
  rw [← need_eq_cost short _ whole.symm]
  unfold placeBlocks
  dsimp only
  rw [start]
  refine (placeDirect_cost ordered short 12 s counted).bind fun s₁ direct => ?_
  simp only [id_eq] at direct
  simp only [id_eq, ← direct.left]
  refine (placeIndirects_cost ordered short 3 s₁ direct.counted).bind fun s₂ single => ?_
  simp only [id_eq] at single
  simp only [id_eq, ← single.left]
  refine (placeDoubly_cost ordered short single.counted).bind fun s₃ double => ?_
  simp only [id_eq] at double
  simp only [id_eq, ← double.left]
  refine (placeTriply_cost ordered short double.counted).bind fun s₄ triple => ?_
  simp only [id_eq] at triple ⊢
  have done : chunksLeft file s₄ = 0 := by
    have fewer := triple.left
    rw [double.left, single.left, direct.left, whole] at fewer
    omega
  have stored : ¬ s₄.nbytes < file.length := by
    rw [triple.counted.started_iff, done]
    exact Nat.lt_irrefl 0
  rw [if_neg stored]
  exact .spent ⟨Nat.zero_le _, rfl, by simp, ⟨triple.counted.count, triple.counted.within⟩, rfl⟩

/-- More than the image holds is needed for a file that the byte count cannot measure. -/
theorem need_long {s : Nat} (long : 2 ^ 31 ≤ s) : 2 ^ 21 ≤ need s := by
  unfold need
  dsimp only
  omega

section Bounds
variable (reserved : 0 ≤ m) (ordered : m ≤ n) (small : n * 1024 < 2 ^ 31) {heap : Heap} {uid gid : Int}
  {rawdata bitmap : Bytes} {w : Placing}
include reserved ordered small

/-- The blocks that a run marks are the first free ones. -/
theorem placeBlocks_bitmap (run : placeBlocks heap file uid gid m rawdata bitmap n = .ok w) (b : Int) :
    w.bitmap b = if b ∈ (spare n m bitmap).take (need file.length) then 1 else bitmap b := by
  obtain ⟨_, _, _, _, _, _, _, _, _, _, _, short⟩ := placeBlocks_spec reserved ordered small run
  obtain ⟨s, rfl, outcome⟩ := placeBlocks_cost ordered short heap uid gid rawdata bitmap
  rw [run] at outcome
  cases outcome with
  | spent spends => exact spends.bitmap b

/-- The allocation gets through exactly when there are enough free blocks. -/
theorem placeBlocks_ok_iff : (∃ w, placeBlocks heap file uid gid m rawdata bitmap n = .ok w) ↔
    need file.length ≤ (spare n m bitmap).length := by
  by_cases short : file.length < 2 ^ 31
  · obtain ⟨s, rfl, outcome⟩ := placeBlocks_cost ordered short heap uid gid rawdata bitmap
    generalize placeBlocks heap file uid gid m rawdata s.bitmap n = result at outcome ⊢
    cases outcome with
    | short few => exact ⟨fun ⟨_, run⟩ => (nomatch run), fun enough => absurd enough (by omega)⟩
    | @spent v spends => exact ⟨fun _ => spends.enough, fun _ => ⟨v, rfl⟩⟩
  · have available := freeCount_le n m bitmap
    have needed := need_long (not_lt.mp short)
    rw [length_spare]
    refine ⟨fun ⟨w, run⟩ => ?_, fun enough => by omega⟩
    obtain ⟨_, _, _, _, _, _, _, _, _, _, _, short'⟩ := placeBlocks_spec reserved ordered small run
    exact absurd short' short

end Bounds

/-- The blocks of a file are found exactly when there are enough free ones, and they are the first free ones. -/
theorem placeBlocks_budget (reserved : 0 ≤ m) (ordered : m ≤ n) (small : n * 1024 < 2 ^ 31) (heap : Heap)
    (uid gid : Int) (rawdata bitmap : Bytes) :
    ((∃ w, placeBlocks heap file uid gid m rawdata bitmap n = .ok w) ↔
      need file.length ≤ (spare n m bitmap).length) ∧
    ∀ w, placeBlocks heap file uid gid m rawdata bitmap n = .ok w →
      ∀ b, w.bitmap b = if b ∈ (spare n m bitmap).take (need file.length) then 1 else bitmap b :=
  ⟨placeBlocks_ok_iff reserved ordered small, fun _ => placeBlocks_bitmap reserved ordered small⟩

/-- A file of 13 blocks fills an image with 14 blocks for data. -/
theorem placeBlocks_budget_blocks : ∃ w, placeBlocks blankHeap (List.replicate (12 * 1024 + 1) 65) 0 0 1
    (fun _ => 0) (fun _ => 0) 15 = .ok w := by
  refine (placeBlocks_budget (by decide) (by decide) (by decide) _ 0 0 _ _).1.mpr ?_
  rw [List.length_replicate]
  decide

end Budget

end OsLabs.Inodes
