import OsLabs.Inodes.Allocation
import OsLabs.Lib.PointerTree

namespace OsLabs.Inodes
open ByteMemory PointerTree

/-- Pointer `i` of block `b`; a block has 256 of them. -/
def entry (rawdata : Bytes) (b : Int) (i : Nat) : Int :=
  if i < 256 then readInt (b * 1024 + 4 * i) rawdata else 0

theorem entry_congr {raw raw' : Bytes} {b : Int} (same : ∀ p, InBlock b p → raw' p = raw p) :
    entry raw b = entry raw' b := by
  funext i
  unfold entry
  split
  · exact readInt_congr fun p lower upper => (same p ⟨by omega, by omega⟩).symm
  · rfl

/-- `s'` follows from `s` by storing the next part of the file in the tree `t`,
whose blocks were free before. -/
structure Grew (file : List UInt8) (n m fileSize : Int) (s s' : Placing) {k : Nat} (t : Tree Int k) : Prop where
  grows : Grows n m s s' (nodes t)
  ready : Ready file n m s'
  held : Held (entry s'.rawdata) t
  ended : Blank n m s → Ended (entry s'.rawdata) 0 256 t
  packed : Packed 256 t
  carries : Carries file s'.rawdata s.fpr (leaves t)
  position : s'.fpr = min file.length (s.fpr + 1024 * (leaves t).length)
  tight : s.nbytes < fileSize → (s.fpr + 1024 * (leaves t).length : Int) < fileSize + 1024

/-- A step that stores one subtree of height `k` and then names it at `position`. -/
def EntrySpec (file : List UInt8) (n m fileSize : Int) (k : Nat)
    (step : Int → Placing → Except Exit Placing) : Prop :=
  ∀ position u v b, step position u = .ok v → Ready file n m u → u.nbytes < fileSize →
    u.bitmap b ≠ 0 → InBlock b position → InBlock b (position + 3) →
    ∃ (w : Placing) (c : Tree Int k), Grew file n m fileSize u w c ∧ (w.nbytes < fileSize → Full 256 c) ∧
      w.ip = u.ip ∧ v = { w with rawdata := writeInt position (root c) w.rawdata }

section Bounds
variable {file : List UInt8} {n m fileSize : Int} (reserved : 0 ≤ m) (ordered : m ≤ n) (small : n * 1024 < 2 ^ 31)
include reserved ordered small

theorem grew_data {u : Placing} {b : Int} {marked : Bytes} (ready : Ready file n m u)
    (run : getFreeBlock u.bitmap n m = .ok (b, marked)) :
    Grew file n m fileSize u (copyBlock b (readChunk file { u with bitmap := marked })) (leaf b) := by
  obtain ⟨lower, upper, free, _, rfl⟩ := getFreeBlock_spec ordered run
  have mark := freeCount_mark lower upper free
  have count := ready.count
  have within := ready.within
  have room := ready.room
  have offset : wrap32 (b * 1024) = b * 1024 := wrap32_of_range (by omega) (by omega)
  have sum : wrap32 (u.nbytes + ↑(min 1024 (file.length - u.fpr))) = u.nbytes + ↑(min 1024 (file.length - u.fpr)) :=
    wrap32_of_range (by omega) (by omega)
  refine ⟨⟨?_, ?_, by simp, ?_, ?_⟩, ⟨?_, ?_, ?_⟩, held_leaf, fun _ => ended_leaf, packed_leaf, ?_, ?_, ?_⟩
  · simpa using ⟨lower, upper⟩
  · simpa using free
  · intro c
    by_cases same : c = b <;> simp [copyBlock, readChunk, same]
  · intro p outside
    simp only [nodes_leaf, List.mem_singleton, forall_eq] at outside
    simp only [copyBlock, readChunk, offset]
    unfold InBlock at outside
    exact memcpy_outside _ _ (by omega)
  · simp only [copyBlock, readChunk, sum]
    push_cast
    omega
  · simp only [copyBlock, readChunk]
    omega
  · simp only [copyBlock, readChunk, sum]
    omega
  · intro k c found j below inside
    rw [leaves_leaf, List.getElem?_singleton] at found
    split at found
    · rename_i first
      cases Option.some.inj found
      subst first
      simp only [copyBlock, readChunk, offset]
      rw [memcpy_inside _ _ (by omega) (by omega)]
      have index : b * 1024 + (j : Int) - b * 1024 = j := by omega
      simp only [index, Int.toNat_natCast, Nat.mul_zero, Nat.add_zero]
      rw [if_pos (by omega)]
    · cases found
  · simp only [copyBlock, readChunk, leaves_leaf, List.length_singleton]
    omega
  · intro started
    simp only [leaves_leaf, List.length_singleton]
    omega

/-- Writing the new pointer before or after the data block it names makes no
difference: the pointer block is not the data block. -/
theorem placeDataEntry_spec : EntrySpec file n m fileSize 0 (placeDataEntry file n m) := by
  intro position u v b run ready started taken start last
  obtain ⟨⟨d, marked⟩, block, run⟩ := except_bind_ok run
  cases run
  have grew : Grew file n m fileSize u (copyBlock d (readChunk file { u with bitmap := marked })) (leaf d) :=
    grew_data reserved ordered small ready block
  obtain ⟨lower, upper, free, _, rfl⟩ := getFreeBlock_spec ordered block
  have different : b ≠ d := fun same => taken (same ▸ free)
  have offset : wrap32 (d * 1024) = d * 1024 := wrap32_of_range (by omega) (by omega)
  refine ⟨_, leaf d, grew, fun _ => full_leaf, rfl, ?_⟩
  simp only [copyBlock, readChunk, root_leaf, Placing.mk.injEq, and_true, offset]
  funext p
  unfold InBlock at start last
  by_cases inside : d * 1024 ≤ p ∧ p < d * 1024 + 1024
  · rw [memcpy_inside _ _ inside.1 inside.2, writeInt_outside _ (by omega), memcpy_inside _ _ inside.1 inside.2]
  · rw [memcpy_outside _ _ (by omega)]
    unfold writeInt
    rw [memcpy_outside _ _ (by omega)]

omit ordered small in
/-- One more child below a pointer block whose earlier children are complete. -/
theorem Grew.append {k : Nat} {s u w : Placing} {b : Int} {cs : List (Tree Int k)} {c : Tree Int k}
    (small : n * 1024 < 2 ^ 31) (grew : Grew file n m fileSize s u (node b cs)) (full : ∀ d ∈ cs, Full 256 d)
    (room : cs.length < 256) (child : Grew file n m fileSize u w c) (started : u.nbytes < fileSize)
    (whole : u.fpr = s.fpr + 1024 * (leaves (node b cs)).length) :
    Grew file n m fileSize s { w with rawdata := writeInt (b * 1024 + 4 * cs.length) (root c) w.rawdata }
      (node b (cs ++ [c])) := by
  have parent : b ∈ nodes (node b cs) := List.mem_cons_self ..
  have taken : u.bitmap b ≠ 0 := by
    rw [grew.grows.bitmap, if_pos parent]
    decide
  have apart : ∀ d ∈ nodes c, d ≠ b := fun d member same => taken (same ▸ child.grows.free d member)
  have both := grew.grows.trans child.grows
  have written : ∀ d, d ≠ b → ∀ p, InBlock d p →
      writeInt (b * 1024 + 4 * cs.length) (root c) w.rawdata p = w.rawdata p := by
    intro d other p inside
    unfold InBlock at inside
    exact writeInt_outside _ (by omega)
  have inArea := child.grows.area _ (root_mem_nodes c)
  have oldEntry : ∀ i, i < 256 → i ≠ cs.length →
      entry (writeInt (b * 1024 + 4 * cs.length) (root c) w.rawdata) b i = entry u.rawdata b i := by
    intro i bound other
    simp only [entry, if_pos bound]
    rw [readInt_writeInt_other _ (by omega)]
    refine readInt_congr fun p lower upper => ?_
    exact grew.grows.untouched child.grows parent ⟨by omega, by omega⟩
  have newEntry : entry (writeInt (b * 1024 + 4 * cs.length) (root c) w.rawdata) b cs.length = root c := by
    simp only [entry, if_pos room, readInt_writeInt_same]
    exact wrap32_of_range (by omega) (by omega)
  have keptChild : ∀ d ∈ nodes c, entry w.rawdata d =
      entry (writeInt (b * 1024 + 4 * cs.length) (root c) w.rawdata) d :=
    fun d member => entry_congr (written d (apart d member))
  have keptOld : ∀ d ∈ cs, ∀ e ∈ nodes d, entry u.rawdata e =
      entry (writeInt (b * 1024 + 4 * cs.length) (root c) w.rawdata) e := by
    intro d member e inside
    have earlier := child_nodes (b := b) member inside
    have other : e ≠ b := child_ne_root grew.grows.nodup member inside
    refine entry_congr fun p at_e => ?_
    rw [written e other p at_e]
    exact grew.grows.untouched child.grows earlier at_e
  have position := child.position
  have count := grew.ready.count
  have tight := child.tight started
  refine ⟨?_, ⟨child.ready.count, child.ready.within, child.ready.room⟩, ⟨fun i d found => ?_, fun d member => ?_⟩,
    fun blank => ⟨fun i lower upper => ?_, fun d member => ?_⟩, Packed.append room full child.packed, ?_, ?_, ?_⟩
  · rw [nodes_append]
    refine both.congr rfl fun p outside => writeInt_outside _ ?_
    have outB := outside b (List.mem_append_left _ parent)
    unfold InBlock at outB
    omega
  · rcases PointerTree.snoc_cases found with old | ⟨rfl, rfl⟩
    · have early := (List.getElem?_eq_some_iff.mp old).1
      rw [oldEntry i (by omega) (by omega)]
      exact grew.held.1 i d old
    · rw [newEntry]
  · rcases List.mem_append.mp member with earlier | latest
    · exact (grew.held.2 d earlier).congr (keptOld d earlier)
    · rw [List.mem_singleton.mp latest]
      exact child.held.congr keptChild
  · simp only [List.length_append, List.length_singleton] at lower
    rw [oldEntry i upper (by omega)]
    exact (grew.ended blank).1 i (by omega) upper
  · rcases List.mem_append.mp member with earlier | latest
    · exact ((grew.ended blank).2 d earlier).congr (keptOld d earlier)
    · rw [List.mem_singleton.mp latest]
      exact (child.ended (blank.grows grew.grows)).congr keptChild
  · rw [leaves_append]
    refine Carries.append ?_ ?_
    · refine grew.carries.congr fun d leaf p inside => ?_
      have earlier := leaves_subset_nodes _ leaf
      have other : d ≠ b := by
        obtain ⟨e, member, below⟩ := List.mem_flatMap.mp leaf
        exact child_ne_root grew.grows.nodup member (leaves_subset_nodes e below)
      exact (written d other p inside).trans (grew.grows.untouched child.grows earlier inside)
    · rw [← whole]
      exact child.carries.congr fun d leaf p inside => written d (apart d (leaves_subset_nodes c leaf)) p inside
  · simp only [leaves_append, List.length_append]
    omega
  · intro _
    rw [leaves_append, List.length_append]
    push_cast
    omega

/-- The fill loop of a pointer block: entered with complete children only, it
leaves a tree that is full unless `file_size` bytes are stored. -/
theorem fillBlock_spec (sized : fileSize ≤ file.length) {k : Nat} {step : Int → Placing → Except Exit Placing}
    (spec : EntrySpec file n m fileSize k step) {s v : Placing} {b : Int} {returned : Bool} (left : Nat) :
    ∀ (u : Placing) (cs : List (Tree Int k)), Grew file n m fileSize s u (node b cs) → (∀ d ∈ cs, Full 256 d) →
      cs.length + left = 256 →
      u.fpr = s.fpr + 1024 * (leaves (node b cs)).length →
      fillBlock step fileSize b left u = .ok (returned, v) →
      ∃ ds : List (Tree Int k), Grew file n m fileSize s v (node b ds) ∧
        (v.nbytes < fileSize → Full 256 (node b ds)) ∧ v.ip = u.ip := by
  induction left with
  | zero =>
    intro u cs grew full length _ run
    cases run
    exact ⟨cs, grew, fun _ => ⟨by omega, full⟩, rfl⟩
  | succ left ih =>
    intro u cs grew full length whole run
    by_cases started : u.nbytes < fileSize
    swap
    · simp only [fillBlock, if_neg started, Except.ok.injEq, Prod.mk.injEq] at run
      obtain ⟨-, rfl⟩ := run
      exact ⟨cs, grew, fun partly => absurd partly started, rfl⟩
    have parent : b ∈ nodes (node b cs) := List.mem_cons_self ..
    obtain ⟨lower, upper⟩ := grew.grows.area b parent
    have taken : u.bitmap b ≠ 0 := by
      rw [grew.grows.bitmap, if_pos parent]
      decide
    have offset : wrap32 (wrap32 (b * 1024) + (256 - ((left : Int) + 1)) * 4) = b * 1024 + 4 * cs.length := by
      rw [wrap32_of_range (x := b * 1024) (by omega) (by omega), wrap32_of_range (by omega) (by omega)]
      omega
    simp only [fillBlock, if_pos started, offset] at run
    obtain ⟨v₁, stepRun, run⟩ := except_bind_ok run
    obtain ⟨w, c, child, childFull, sameIp, rfl⟩ := spec _ u v₁ b stepRun grew.ready started taken
      ⟨by omega, by omega⟩ ⟨by omega, by omega⟩
    have next := grew.append reserved small full (by omega) child started whole
    by_cases done : fileSize ≤ w.nbytes
    · simp only [if_pos done, Except.ok.injEq, Prod.mk.injEq] at run
      obtain ⟨-, rfl⟩ := run
      exact ⟨cs ++ [c], next, fun partly => absurd partly (not_lt.mpr done), sameIp⟩
    · simp only [if_neg done] at run
      have allFull : ∀ d ∈ cs ++ [c], Full 256 d := by
        intro d member
        rcases List.mem_append.mp member with earlier | latest
        · exact full d earlier
        · rw [List.mem_singleton.mp latest]
          exact childFull (by omega)
      have onward : w.fpr = s.fpr + 1024 * (leaves (node b (cs ++ [c]))).length := by
        have position := child.position
        have count := child.ready.count
        simp only [leaves_append, List.length_append]
        omega
      obtain ⟨ds, grown, closed, ip⟩ := ih _ (cs ++ [c]) next allFull
        (by rw [List.length_append, List.length_singleton]; omega) onward run
      exact ⟨ds, grown, closed, ip.trans sameIp⟩

/-- A pointer block of height `k + 1` over a step for height `k`. -/
theorem placePointerBlock_spec (sized : fileSize ≤ file.length) {k : Nat} {name : Int → Inode → Inode}
    {step : Int → Placing → Except Exit Placing} (spec : EntrySpec file n m fileSize k step)
    {s v : Placing} {b : Int} {returned : Bool} (ready : Ready file n m s)
    (run : placePointerBlock n m name step fileSize s = .ok (b, returned, v)) :
    ∃ t : Tree Int (k + 1), root t = b ∧ Grew file n m fileSize s v t ∧ (v.nbytes < fileSize → Full 256 t) ∧
      v.ip = name b s.ip := by
  obtain ⟨⟨d, marked⟩, block, run⟩ := except_bind_ok run
  obtain ⟨⟨exit, w⟩, fill, run⟩ := except_bind_ok run
  cases run
  obtain ⟨lower, upper, free, _, rfl⟩ := getFreeBlock_spec ordered block
  have mark := freeCount_mark lower upper free
  have room := ready.room
  have empty : Grew file n m fileSize s
      { s with bitmap := Function.update s.bitmap b 1, ip := name b s.ip } (node b ([] : List (Tree Int k))) := by
    refine ⟨⟨?_, ?_, by simp, ?_, fun p _ => rfl⟩, ⟨ready.count, ready.within, ?_⟩, ⟨by simp, by simp⟩,
      fun blank => ⟨?_, by simp⟩,
      ⟨by simp, by simp, by simp⟩, ?_, ?_, ?_⟩
    · simpa using ⟨lower, upper⟩
    · simpa using free
    · intro c
      by_cases same : c = b <;> simp [same]
    · simp only
      omega
    · intro i _ bound
      simp only [entry, if_pos bound]
      exact readInt_zero fun p low high => blank b lower upper free p ⟨by omega, by omega⟩
    · intro i c found
      simp at found
    · simpa using ready.within
    · intro _
      have count := ready.count
      simp only [leaves_node, List.flatMap_nil, List.length_nil]
      omega
  obtain ⟨ds, grown, closed, ip⟩ :=
    fillBlock_spec reserved ordered small sized spec 256 _ [] empty (by simp) (by simp)
    (by simp) fill
  exact ⟨node b ds, rfl, grown, closed, ip⟩

theorem placeIndirectEntry_spec (sized : fileSize ≤ file.length) :
    EntrySpec file n m fileSize 1 (placeIndirectEntry file n m fileSize) := by
  intro position u v b run ready _ _ _ _
  obtain ⟨⟨d, w⟩, place, run⟩ := except_bind_ok run
  cases run
  obtain ⟨⟨e, returned, x⟩, pointer, place⟩ := except_bind_ok place
  cases place
  obtain ⟨t, top, grew, closed, ip⟩ := placePointerBlock_spec reserved ordered small sized
    (placeDataEntry_spec reserved ordered small) ready pointer
  exact ⟨_, t, grew, closed, by simpa using ip, by simp [top]⟩

theorem placeDoublyEntry_spec (sized : fileSize ≤ file.length) :
    EntrySpec file n m fileSize 2 (placeDoublyEntry file n m fileSize) := by
  intro position u v b run ready _ _ _ _
  obtain ⟨⟨d, w⟩, place, run⟩ := except_bind_ok run
  cases run
  obtain ⟨⟨e, returned, x⟩, pointer, place⟩ := except_bind_ok place
  cases place
  obtain ⟨t, top, grew, closed, ip⟩ := placePointerBlock_spec reserved ordered small sized
    (placeIndirectEntry_spec reserved ordered small sized) ready pointer
  exact ⟨_, t, grew, closed, by simpa using ip, by simp [top]⟩

end Bounds

end OsLabs.Inodes
