import Mathlib.Data.Finset.Card
import Mathlib.Data.Finset.Range
import OsLabs.Inodes.PlaceFile

namespace OsLabs.Inodes
open ByteMemory

theorem except_bind_ok {α β : Type} {x : Except Exit α} {f : α → Except Exit β} {b : β}
    (run : x.bind f = .ok b) : ∃ a, x = .ok a ∧ f a = .ok b := by
  cases x with
  | error e => cases run
  | ok a => exact ⟨a, rfl, run⟩

theorem firstFree_spec (bitmap : Bytes) (k : Nat) (i : Int) :
    i ≤ firstFree bitmap k i ∧ firstFree bitmap k i ≤ i + k ∧
      (∀ j, i ≤ j → j < firstFree bitmap k i → bitmap j ≠ 0) ∧
      (firstFree bitmap k i < i + k → bitmap (firstFree bitmap k i) = 0) := by
  induction k generalizing i with
  | zero =>
    refine ⟨le_rfl, by simp [firstFree], fun j lower upper => ?_, fun below => ?_⟩
    · exact absurd upper (not_lt.mpr lower)
    · simp [firstFree] at below
  | succ k ih =>
    by_cases zero : bitmap i = 0
    · rw [show firstFree bitmap (k + 1) i = i from if_pos zero]
      exact ⟨le_rfl, by omega, fun j lower upper => absurd upper (not_lt.mpr lower), fun _ => zero⟩
    · obtain ⟨lower, upper, taken, free⟩ := ih (i + 1)
      rw [show firstFree bitmap (k + 1) i = firstFree bitmap k (i + 1) from if_neg zero]
      refine ⟨by omega, by push_cast; omega, fun j above below => ?_,
        fun below => free (by push_cast at below; omega)⟩
      by_cases start : j = i
      · exact start ▸ zero
      · exact taken j (by omega) below

/-- A successful call returns the lowest free block of the data area and marks
that block only. -/
theorem getFreeBlock_spec {bitmap marked : Bytes} {n m b : Int} (ordered : m ≤ n)
    (run : getFreeBlock bitmap n m = .ok (b, marked)) :
    m ≤ b ∧ b < n ∧ bitmap b = 0 ∧ (∀ j, m ≤ j → j < b → bitmap j ≠ 0) ∧ marked = Function.update bitmap b 1 := by
  obtain ⟨lower, upper, taken, free⟩ := firstFree_spec bitmap (n - m).toNat m
  unfold getFreeBlock at run
  by_cases atEnd : firstFree bitmap (n - m).toNat m = n
  · simp [atEnd] at run
  · have below : firstFree bitmap (n - m).toNat m < n := by omega
    simp only [atEnd, if_false, below, if_true, Except.ok.injEq, Prod.mk.injEq] at run
    obtain ⟨rfl, rfl⟩ := run
    exact ⟨lower, below, free (by omega), taken, rfl⟩

/-- How many blocks of the data area `m..n-1` are free. -/
def freeCount (n m : Int) (bitmap : Bytes) : Nat :=
  ((Finset.range (n - m).toNat).filter fun k : Nat => bitmap (m + k) = 0).card

theorem freeCount_le (n m : Int) (bitmap : Bytes) : freeCount n m bitmap ≤ (n - m).toNat := by
  refine (Finset.card_filter_le _ _).trans ?_
  simp

theorem freeCount_mark {n m b : Int} {bitmap : Bytes} (lower : m ≤ b) (upper : b < n) (free : bitmap b = 0) :
    freeCount n m (Function.update bitmap b 1) + 1 = freeCount n m bitmap := by
  obtain ⟨k, rfl⟩ := Int.le.dest lower
  have member : k ∈ (Finset.range (n - m).toNat).filter fun k : Nat => bitmap (m + k) = 0 := by
    simp only [Finset.mem_filter, Finset.mem_range, free, and_true]
    omega
  have erased : ((Finset.range (n - m).toNat).filter fun j : Nat => Function.update bitmap (m + k) 1 (m + j) = 0) =
      ((Finset.range (n - m).toNat).filter fun j : Nat => bitmap (m + j) = 0).erase k := by
    ext j
    by_cases same : j = k
    · subst same; simp
    · simp [same]
  unfold freeCount
  rw [erased, Finset.card_erase_add_one member]

/-- Byte `p` lies in block `b`. -/
def InBlock (b p : Int) : Prop := b * 1024 ≤ p ∧ p < b * 1024 + 1024

instance (b p : Int) : Decidable (InBlock b p) := inferInstanceAs (Decidable (_ ∧ _))

/-- `s'` follows from `s` by taking the free blocks `bs` and writing nowhere else. -/
structure Grows (n m : Int) (s s' : Placing) (bs : List Int) : Prop where
  area : ∀ b ∈ bs, m ≤ b ∧ b < n
  free : ∀ b ∈ bs, s.bitmap b = 0
  nodup : bs.Nodup
  bitmap : ∀ b, s'.bitmap b = if b ∈ bs then 1 else s.bitmap b
  frame : ∀ p, (∀ b ∈ bs, ¬ InBlock b p) → s'.rawdata p = s.rawdata p

theorem Grows.refl (n m : Int) (s : Placing) : Grows n m s s [] :=
  ⟨by simp, by simp, List.nodup_nil, by simp, fun _ _ => rfl⟩

theorem Grows.trans {n m : Int} {s u v : Placing} {bs cs : List Int}
    (first : Grows n m s u bs) (second : Grows n m u v cs) : Grows n m s v (bs ++ cs) := by
  have apart : ∀ b ∈ bs, b ∉ cs := by
    intro b left right
    have free := second.free b right
    rw [first.bitmap b, if_pos left] at free
    exact absurd free (by decide)
  refine ⟨fun b member => ?_, fun b member => ?_, ?_, fun b => ?_, fun p outside => ?_⟩
  · exact (List.mem_append.mp member).elim (first.area b) (second.area b)
  · rcases List.mem_append.mp member with left | right
    · exact first.free b left
    · have free := second.free b right
      rwa [first.bitmap b, if_neg (fun left => apart b left right)] at free
  · exact List.nodup_append.mpr ⟨first.nodup, second.nodup, fun b left c right same => apart b left (same ▸ right)⟩
  · rw [second.bitmap, first.bitmap]
    by_cases left : b ∈ bs <;> by_cases right : b ∈ cs <;> simp [left, right]
  · rw [second.frame p (fun b member => outside b (List.mem_append_right _ member)),
      first.frame p (fun b member => outside b (List.mem_append_left _ member))]

/-- A later stage leaves the blocks of an earlier one alone. -/
theorem Grows.untouched {n m : Int} {s u v : Placing} {bs cs : List Int} (first : Grows n m s u bs)
    (second : Grows n m u v cs) {b p : Int} (member : b ∈ bs) (inside : InBlock b p) : v.rawdata p = u.rawdata p := by
  refine second.frame p fun c right other => ?_
  have same : b = c := by unfold InBlock at inside other; omega
  have free := second.free c right
  rw [← same, first.bitmap b, if_pos member] at free
  exact absurd free (by decide)

/-- Changing only what the frame of `Grows` does not mention keeps it. -/
theorem Grows.congr {n m : Int} {s u v : Placing} {bs : List Int} (grows : Grows n m s u bs)
    (bitmap : v.bitmap = u.bitmap) (raw : ∀ p, (∀ b ∈ bs, ¬ InBlock b p) → v.rawdata p = u.rawdata p) :
    Grows n m s v bs :=
  ⟨grows.area, grows.free, grows.nodup, fun b => by rw [bitmap, grows.bitmap],
    fun p outside => by rw [raw p outside, grows.frame p outside]⟩

/-- Between two allocations: the byte count is the read position, and a block
for every started kilobyte of the file is still available or already taken. -/
structure Ready (file : List UInt8) (n m : Int) (s : Placing) : Prop where
  count : s.nbytes = s.fpr
  within : s.fpr ≤ file.length
  room : s.nbytes + 1024 * freeCount n m s.bitmap ≤ 1024 * n

section Chunk
variable {file : List UInt8} {n m : Int}

/-- Every free block of the data area holds zero bytes only. -/
def Blank (n m : Int) (s : Placing) : Prop :=
  ∀ b, m ≤ b → b < n → s.bitmap b = 0 → ∀ p, InBlock b p → s.rawdata p = 0

theorem Blank.grows {s u : Placing} {bs : List Int} (blank : Blank n m s) (grows : Grows n m s u bs) :
    Blank n m u := by
  intro b lower upper free p inside
  rw [grows.bitmap] at free
  by_cases member : b ∈ bs
  · rw [if_pos member] at free
    exact absurd free (by decide)
  · rw [if_neg member] at free
    rw [grows.frame p fun c taken other => member ?_]
    · exact blank b lower upper free p inside
    · have same : b = c := by unfold InBlock at inside other; omega
      exact same ▸ taken

/-- The blocks `bs`, in order, hold the file from byte `start` on. -/
def Carries (file : List UInt8) (rawdata : Bytes) (start : Nat) (bs : List Int) : Prop :=
  ∀ k b, bs[k]? = some b → ∀ j : Nat, j < 1024 → start + 1024 * k + j < file.length →
    rawdata (b * 1024 + j) = file.getD (start + 1024 * k + j) 0

theorem Carries.congr {raw raw' : Bytes} {start : Nat} {bs : List Int} (carries : Carries file raw start bs)
    (same : ∀ b ∈ bs, ∀ p, InBlock b p → raw' p = raw p) : Carries file raw' start bs := by
  intro k b found j below inside
  rw [same b (List.mem_of_getElem? found) _ ⟨by omega, by omega⟩]
  exact carries k b found j below inside

theorem Carries.append {raw : Bytes} {start : Nat} {bs cs : List Int} (front : Carries file raw start bs)
    (back : Carries file raw (start + 1024 * bs.length) cs) : Carries file raw start (bs ++ cs) := by
  intro k b found j below inside
  by_cases early : k < bs.length
  · exact front k b (by rwa [List.getElem?_append_left early] at found) j below inside
  · rw [List.getElem?_append_right (by omega)] at found
    have place : start + 1024 * bs.length + 1024 * (k - bs.length) + j = start + 1024 * k + j := by omega
    rw [← place]
    exact back (k - bs.length) b found j below (by omega)

theorem Carries.tail {raw : Bytes} {start : Nat} {b : Int} {bs : List Int}
    (carries : Carries file raw start (b :: bs)) :
    Carries file raw (start + 1024) bs := by
  intro k c found j below inside
  have value := carries (k + 1) c (by simpa using found) j below (by omega)
  have place : start + 1024 * (k + 1) + j = start + 1024 + 1024 * k + j := by omega
  rwa [place] at value

end Chunk

end OsLabs.Inodes
