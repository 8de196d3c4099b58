import Mathlib.Data.List.Range
import OsLabs.Lib.Bytes

namespace OsLabs.Fs
open ByteMemory

def BSIZE : Nat := 512
def MAXOPBLOCKS : Nat := 10
def LOGSIZE : Nat := MAXOPBLOCKS * 3
def FSSIZE : Nat := 2000

/-- The data of one disk block. -/
abbrev Block := Fin BSIZE → UInt8

namespace Block

/-- The bytes of a block as memory read through a pointer to its start. -/
def bytes (b : Block) : Bytes := fun p => if h : 0 ≤ p ∧ p < BSIZE then b ⟨p.toNat, by omega⟩ else 0

def ofBytes (m : Bytes) : Block := fun p => m p

/-- Word `i` of a block seen as an array of `int`. -/
def word (b : Block) (i : Nat) : Int := readInt (4 * i) b.bytes

def setWord (b : Block) (i : Nat) (val : Int) : Block := ofBytes (writeInt (4 * i) val b.bytes)

@[simp] theorem ofBytes_bytes (b : Block) : ofBytes b.bytes = b := by
  funext p
  have bound := p.isLt
  simp only [ofBytes, bytes, show (0 : Int) ≤ (p.val : Int) ∧ (p.val : Int) < (BSIZE : Int) by omega, and_self,
    dite_true, Int.toNat_natCast, Fin.eta]

theorem bytes_ofBytes {m : Bytes} {p : Int} (lower : 0 ≤ p) (upper : p < BSIZE) : (ofBytes m).bytes p = m p := by
  simp only [ofBytes, bytes, lower, upper, and_self, dite_true, Int.toNat_of_nonneg]

theorem readInt_ofBytes {m : Bytes} {pos : Int} (lower : 0 ≤ pos) (upper : pos + 4 ≤ BSIZE) :
    readInt pos (ofBytes m).bytes = readInt pos m :=
  readInt_congr fun _ _ _ => bytes_ofBytes (by omega) (by omega)

theorem word_setWord_self (b : Block) {i : Nat} (val : Int) (bound : i < 128) :
    (b.setWord i val).word i = wrap32 val := by
  unfold word setWord
  rw [readInt_ofBytes (by omega) (by simp only [BSIZE]; omega), readInt_writeInt_same]

theorem word_setWord_other (b : Block) {i j : Nat} (val : Int) (bound : j < 128) (apart : i ≠ j) :
    (b.setWord i val).word j = b.word j := by
  unfold word setWord
  rw [readInt_ofBytes (by omega) (by simp only [BSIZE]; omega), readInt_writeInt_other _ (by omega)]

end Block

/-- The assignments of `write_head` to `hb->block[i]`, `hb->block[i + 1]`, …. -/
def putBlocks : Nat → List Nat → Block → Block
  | _, [], hb => hb
  | i, block :: blocks, hb => putBlocks (i + 1) blocks (hb.setWord (i + 1) block)

/-- `write_head`'s changes to the header block: `n`, then `block[0]` to `block[n - 1]`. -/
def putHeader (blocks : List Nat) (hb : Block) : Block := putBlocks 0 blocks (hb.setWord 0 blocks.length)

/-- `read_head`: the block numbers, as the `uint` that `bread` takes. -/
def getHeader (lh : Block) : List Nat :=
  (List.range (lh.word 0).toNat).map fun i => (lh.word (i + 1) % 2 ^ 32).toNat

theorem putBlocks_before {blocks : List Nat} {i j : Nat} (hb : Block) (before : j ≤ i)
    (room : i + blocks.length < 128) : (putBlocks i blocks hb).word j = hb.word j := by
  induction blocks generalizing i hb with
  | nil => rfl
  | cons block blocks ih =>
    rw [List.length_cons] at room
    rw [putBlocks, ih _ (by omega) (by omega), Block.word_setWord_other _ _ (by omega) (by omega)]

theorem putBlocks_word {blocks : List Nat} {i j : Nat} (hb : Block) (inside : j < blocks.length)
    (room : i + blocks.length < 128) : (putBlocks i blocks hb).word (i + j + 1) = wrap32 blocks[j] := by
  induction blocks generalizing i j hb with
  | nil => exact absurd inside (Nat.not_lt_zero j)
  | cons block blocks ih =>
    rw [List.length_cons] at inside room
    cases j with
    | zero => rw [putBlocks, Nat.add_zero, putBlocks_before _ (by omega) (by omega),
        Block.word_setWord_self _ _ (by omega), List.getElem_cons_zero]
    | succ j =>
      rw [putBlocks, show i + (j + 1) + 1 = i + 1 + j + 1 by omega, ih _ (by omega) (by omega),
        List.getElem_cons_succ]

/-- The header that `read_head` finds is the one that `write_head` wrote. -/
theorem getHeader_putHeader {blocks : List Nat} (hb : Block) (few : blocks.length ≤ LOGSIZE)
    (real : ∀ b ∈ blocks, b < FSSIZE) : getHeader (putHeader blocks hb) = blocks := by
  unfold LOGSIZE MAXOPBLOCKS at few
  have count : (putHeader blocks hb).word 0 = blocks.length := by
    rw [putHeader, putBlocks_before _ (by omega) (by omega), Block.word_setWord_self _ _ (by omega),
      wrap32_of_range (by omega) (by omega)]
  refine List.ext_getElem (by simp [getHeader, count]) fun j _ inside => ?_
  have small := real _ (List.getElem_mem inside)
  unfold FSSIZE at small
  have entry := putBlocks_word (i := 0) (hb.setWord 0 blocks.length) inside (by omega)
  rw [Nat.zero_add, wrap32_of_range (by omega) (by omega)] at entry
  simp only [getHeader, List.getElem_map, List.getElem_range, putHeader, entry]
  omega

theorem getHeader_empty {lh : Block} (empty : lh.word 0 ≤ 0) : getHeader lh = [] := by
  simp [getHeader, Int.toNat_of_nonpos empty]

-- comparing two states must not evaluate a header
attribute [irreducible] getHeader

end OsLabs.Fs
