import OsLabs.Inodes.Allocation

namespace OsLabs.Inodes
open ByteMemory

/-- A call of `get_free_block` that has returned: the bitmap it was given, the block, the bitmap it left. -/
structure BlockCall where
  before : Bytes
  blockno : Int
  after : Bytes

/-- The calls that return when `get_free_block` is called so many times on one bitmap; a call that
terminates the program is the last one. -/
def blockCalls (n m : Int) : Nat → Bytes → List BlockCall
  | 0, _ => []
  | calls + 1, bitmap =>
    match getFreeBlock bitmap n m with
    | .error _ => []
    | .ok (blockno, marked) => ⟨bitmap, blockno, marked⟩ :: blockCalls n m calls marked

/-- The call has taken the lowest free block of the data area, and set only its entry. -/
structure TakesLowest (n m : Int) (call : BlockCall) : Prop where
  area : m ≤ call.blockno ∧ call.blockno < n
  free : call.before call.blockno = 0
  lowest : ∀ b, m ≤ b → b < call.blockno → call.before b ≠ 0
  marked : call.after = Function.update call.before call.blockno 1

/-- Every call takes the lowest free block, and no block is returned twice. -/
structure StaysInArea (n m : Int) (calls : List BlockCall) : Prop where
  each : ∀ call ∈ calls, TakesLowest n m call
  once : (calls.map BlockCall.blockno).Nodup

section Calls
variable {n m : Int}

/-- No later call returns a block whose entry is set, or clears an entry. -/
theorem blockCalls_free (ordered : m ≤ n) (calls : Nat) (bitmap : Bytes) :
    ∀ call ∈ blockCalls n m calls bitmap, TakesLowest n m call ∧ bitmap call.blockno = 0 := by
  induction calls generalizing bitmap with
  | zero => exact fun call member => absurd member List.not_mem_nil
  | succ calls ih =>
    intro call member
    unfold blockCalls at member
    split at member
    · exact absurd member List.not_mem_nil
    · rename_i blockno marked run
      obtain ⟨lower, upper, free, lowest, update⟩ := getFreeBlock_spec ordered run
      rcases List.mem_cons.mp member with rfl | later
      · exact ⟨⟨⟨lower, upper⟩, free, lowest, update⟩, free⟩
      · obtain ⟨takes, zero⟩ := ih marked call later
        refine ⟨takes, ?_⟩
        have other : call.blockno ≠ blockno := by
          intro same
          rw [update, same, Function.update_self] at zero
          exact absurd zero (by decide)
        rwa [update, Function.update_of_ne other] at zero

theorem blockCalls_once (ordered : m ≤ n) (calls : Nat) (bitmap : Bytes) :
    ((blockCalls n m calls bitmap).map BlockCall.blockno).Nodup := by
  induction calls generalizing bitmap with
  | zero => exact List.nodup_nil
  | succ calls ih =>
    unfold blockCalls
    split
    · exact List.nodup_nil
    · rename_i blockno marked run
      obtain ⟨_, _, _, _, update⟩ := getFreeBlock_spec ordered run
      refine List.nodup_cons.mpr ⟨fun again => ?_, ih marked⟩
      obtain ⟨call, later, same⟩ := List.mem_map.mp again
      have zero := (blockCalls_free ordered calls marked call later).2
      rw [update, same, Function.update_self] at zero
      exact absurd zero (by decide)

/-- With the data area behind the end of the image the loop is not entered, and its counter is not `n`. -/
theorem getFreeBlock_behind (behind : n < m) (bitmap : Bytes) : getFreeBlock bitmap n m = .ok (m, bitmap) := by
  have none : (n - m).toNat = 0 := by omega
  unfold getFreeBlock
  simp only [none, firstFree, if_neg behind.not_gt, if_neg behind.ne']

/-- The calls stay in the data area if and only if it begins in the image, or no call is made. -/
theorem blockCalls_inArea_iff (n m : Int) (bitmap : Bytes) (calls : Nat) :
    StaysInArea n m (blockCalls n m calls bitmap) ↔ m ≤ n ∨ calls = 0 := by
  constructor
  · intro stays
    by_contra neither
    obtain ⟨behind, made⟩ := not_or.mp neither
    obtain ⟨calls, rfl⟩ := Nat.exists_eq_succ_of_ne_zero made
    have first : ⟨bitmap, m, bitmap⟩ ∈ blockCalls n m (calls + 1) bitmap := by
      unfold blockCalls
      rw [getFreeBlock_behind (not_le.mp behind)]
      exact List.mem_cons_self
    have upper := (stays.each _ first).area.2
    dsimp only at upper
    omega
  · rintro (ordered | rfl)
    · exact ⟨fun call member => (blockCalls_free ordered calls bitmap call member).1,
        blockCalls_once ordered calls bitmap⟩
    · exact ⟨fun call member => absurd member List.not_mem_nil, List.nodup_nil⟩

/-- An image of one block whose first two blocks are to hold inodes: the block returned is number 2. -/
theorem two_reserved_of_one : ¬ StaysInArea 1 2 (blockCalls 1 2 1 fun _ => 0) := by
  intro stays
  have upper := (stays.each ⟨fun _ => 0, 2, fun _ => 0⟩ List.mem_cons_self).area.2
  exact absurd upper (by decide)

end Calls

end OsLabs.Inodes
