import Mathlib.Algebra.Order.Ring.Int
import Mathlib.Tactic.Ring

namespace ByteMemory

/-- Byte memory seen from one pointer: the value at every signed offset. -/
abbrev Bytes := Int → UInt8

/-- Two's complement reduction of an integer to a C `int`. -/
def wrap32 (x : Int) : Int := Int.bmod x (2 ^ 32)

theorem wrap32_of_range {x : Int} (lower : -2 ^ 31 ≤ x) (upper : x < 2 ^ 31) : wrap32 x = x := by
  unfold wrap32
  rw [Int.bmod_def]
  split <;> omega

theorem wrap32_range (x : Int) : -2 ^ 31 ≤ wrap32 x ∧ wrap32 x < 2 ^ 31 := by
  unfold wrap32
  rw [Int.bmod_def]
  split <;> omega

@[simp] theorem wrap32_wrap32 (x : Int) : wrap32 (wrap32 x) = wrap32 x :=
  wrap32_of_range (wrap32_range x).1 (wrap32_range x).2

@[simp] theorem wrap32_zero : wrap32 0 = 0 := wrap32_of_range (by decide) (by decide)

@[simp] theorem wrap32_one : wrap32 1 = 1 := wrap32_of_range (by decide) (by decide)

/-- Byte `k` of the little-endian representation of `val`. -/
def byteOf (val : Int) (k : Int) : UInt8 := UInt8.ofNat (val / 256 ^ k.toNat % 256).toNat

theorem byteOf_toNat (val k : Int) : ((byteOf val k).toNat : Int) = val / 256 ^ k.toNat % 256 := by
  have nonneg := Int.emod_nonneg (val / 256 ^ k.toNat) (show (256 : Int) ≠ 0 by decide)
  have below := Int.emod_lt_of_pos (val / 256 ^ k.toNat) (show (0 : Int) < 256 by decide)
  simp only [byteOf, UInt8.toNat_ofNat']
  omega

/-- The little-endian `int` stored in the four bytes from `pos`. -/
def readInt (pos : Int) (m : Bytes) : Int :=
  wrap32 ((m pos).toNat + 256 * (m (pos + 1)).toNat + 65536 * (m (pos + 2)).toNat +
    16777216 * (m (pos + 3)).toNat)

def writeInt (pos val : Int) (m : Bytes) : Bytes :=
  fun p => if pos ≤ p ∧ p < pos + 4 then byteOf val (p - pos) else m p

/-- `memcpy` of `len` bytes to `dst`; `src` is indexed from its own start. -/
def memcpy (dst : Int) (src : Bytes) (len : Int) (m : Bytes) : Bytes :=
  fun p => if dst ≤ p ∧ p < dst + len then src (p - dst) else m p

/-- The bytes of consecutive `int` words, as a C structure of `int` fields lays them out. -/
def bytesOfWords (word : Nat → Int) : Bytes := fun p => byteOf (word (p / 4).toNat) (p % 4)

theorem readInt_congr {m q : Bytes} {pos : Int}
    (same : ∀ p, pos ≤ p → p < pos + 4 → m p = q p) : readInt pos m = readInt pos q := by
  simp only [readInt, same pos (by omega) (by omega), same (pos + 1) (by omega) (by omega),
    same (pos + 2) (by omega) (by omega), same (pos + 3) (by omega) (by omega)]

theorem readInt_zero {m : Bytes} {pos : Int} (zero : ∀ p, pos ≤ p → p < pos + 4 → m p = 0) :
    readInt pos m = 0 := by
  rw [readInt_congr (q := fun _ => 0) zero]
  simp only [readInt, UInt8.toNat_zero, Nat.cast_zero, mul_zero, add_zero]
  exact wrap32_of_range (by omega) (by omega)

/-- Four consecutive bytes of `val` read back as `val` reduced to an `int`. -/
theorem readInt_of_bytes {m : Bytes} {pos val : Int}
    (bytes : ∀ k, 0 ≤ k → k < 4 → m (pos + k) = byteOf val k) : readInt pos m = wrap32 val := by
  have b0 := bytes 0 (by omega) (by omega)
  have b1 := bytes 1 (by omega) (by omega)
  have b2 := bytes 2 (by omega) (by omega)
  have b3 := bytes 3 (by omega) (by omega)
  rw [Int.add_zero] at b0
  have total : (val % 256 + 256 * (val / 256 % 256) + 65536 * (val / 65536 % 256) +
      16777216 * (val / 16777216 % 256)) = val % 2 ^ 32 := by omega
  have value : readInt pos m = wrap32 (val % 2 ^ 32) := by
    rw [← total]
    simp only [readInt, b0, b1, b2, b3, byteOf_toNat, show (0 : Int).toNat = 0 from rfl,
      show (1 : Int).toNat = 1 from rfl, show (2 : Int).toNat = 2 from rfl,
      show (3 : Int).toNat = 3 from rfl]
    norm_num
  rw [value]
  exact Int.emod_bmod val (2 ^ 32)

theorem readInt_writeInt_same (pos val : Int) (m : Bytes) :
    readInt pos (writeInt pos val m) = wrap32 val := by
  refine readInt_of_bytes fun k lower upper => ?_
  simp only [writeInt, show pos ≤ pos + k ∧ pos + k < pos + 4 by omega, and_self, if_true]
  congr 1
  omega

theorem writeInt_outside {pos val p : Int} (m : Bytes) (outside : p < pos ∨ pos + 4 ≤ p) :
    writeInt pos val m p = m p := if_neg (by omega)

theorem readInt_writeInt_other {pos other val : Int} (m : Bytes)
    (apart : other + 4 ≤ pos ∨ pos + 4 ≤ other) :
    readInt other (writeInt pos val m) = readInt other m :=
  readInt_congr fun _ _ _ => writeInt_outside m (by omega)

theorem memcpy_inside {dst len p : Int} (src m : Bytes) (lower : dst ≤ p) (upper : p < dst + len) :
    memcpy dst src len m p = src (p - dst) := if_pos ⟨lower, upper⟩

theorem memcpy_outside {dst len p : Int} (src m : Bytes) (outside : p < dst ∨ dst + len ≤ p) :
    memcpy dst src len m p = m p := if_neg (by omega)

theorem readInt_memcpy_words {dst len : Int} (word : Nat → Int) (m : Bytes) (k : Nat)
    (within : 4 * (k : Int) + 4 ≤ len) :
    readInt (dst + 4 * k) (memcpy dst (bytesOfWords word) len m) = wrap32 (word k) := by
  refine readInt_of_bytes fun j lower upper => ?_
  rw [memcpy_inside _ _ (by omega) (by omega)]
  simp only [bytesOfWords, show dst + 4 * k + j - dst = 4 * k + j by omega,
    show (4 * (k : Int) + j) / 4 = k by omega, show (4 * (k : Int) + j) % 4 = j by omega, Int.toNat_natCast]

end ByteMemory
