import OsLabs.Lib.Bytes
import OsLabs.Lib.Cycle
import OsLabs.Lib.Spans

namespace OsLabs.Umalloc
open ByteMemory

/-- `sizeof(Header)`: the pointer `ptr` to the next free block, then `size`. -/
def headerSize : Nat := 8

/-- The memory of a process, the static `freep` and the end of the memory that `sbrk` has given it. -/
structure Heap where
  mem : Bytes
  freep : Nat
  brk : Nat

namespace Heap

/-- The `uint` at address `p`. -/
def word (h : Heap) (p : Nat) : Nat := (readInt p h.mem % 2 ^ 32).toNat

/-- `p->s.ptr` -/
def ptr (h : Heap) (p : Nat) : Nat := h.word p

/-- `p->s.size`, in units of a header -/
def size (h : Heap) (p : Nat) : Nat := h.word (p + 4)

def setPtr (h : Heap) (p val : Nat) : Heap := { h with mem := writeInt p val h.mem }

def setSize (h : Heap) (p val : Nat) : Heap := { h with mem := writeInt (p + 4 : Nat) val h.mem }

/-- `p + p->s.size` -/
def after (h : Heap) (p : Nat) : Nat := (p + h.size p * headerSize) % 2 ^ 32

/-- Where the loop of `free` stops: `p` is the free block before `bp`, or the last one when `bp` lies beyond
either end. -/
def freeStop (h : Heap) (bp p : Nat) : Bool :=
  (p < bp && bp < h.ptr p) || (h.ptr p ≤ p && (p < bp || bp < h.ptr p))

/-- `bp` is joined with the block that follows `p`, or linked to it. -/
def joinNext (h : Heap) (bp p : Nat) : Heap :=
  if h.after bp = h.ptr p then
    let h := h.setSize bp (h.size bp + h.size (h.ptr p))
    h.setPtr bp (h.ptr (h.ptr p))
  else h.setPtr bp (h.ptr p)

/-- `p` is joined with `bp`, or linked to it. -/
def joinPrev (h : Heap) (bp p : Nat) : Heap :=
  if h.after p = bp then
    let h := h.setSize p (h.size p + h.size bp)
    h.setPtr p (h.ptr bp)
  else h.setPtr p bp

/-- `free`; `none` when its loop takes `fuel` turns or more. -/
def free (h : Heap) (fuel ap : Nat) : Option Heap := do
  let bp := (ap + 2 ^ 32 - headerSize) % 2 ^ 32
  let p ← Ring.walk h.ptr (h.freeStop bp) fuel h.freep
  some { (h.joinNext bp p).joinPrev bp p with freep := p }

/-- What the kernel answers to `sbrk(n)`: the old end of the memory, or -1. -/
def sbrk (h : Heap) (granted : Bool) (n : Nat) : Nat × Heap :=
  if granted then (h.brk, { h with brk := (h.brk + n) % 2 ^ 32 }) else (2 ^ 32 - 1, h)

/-- `morecore`: 0 when the kernel refuses. -/
def morecore (h : Heap) (fuel : Nat) (granted : Bool) (nu : Nat) : Option (Nat × Heap) := do
  let nu := if nu < 4096 then 4096 else nu
  let (p, h) := h.sbrk granted (nu * headerSize % 2 ^ 32)
  if p = 2 ^ 32 - 1 then some (0, h)
  else
    let h ← (h.setSize p nu).free fuel (p + headerSize)
    some (h.freep, h)

/-- The branch of `malloc` for a block `p` that is large enough: all of it, or its last `nunits` units. -/
def carve (h : Heap) (nunits prevp p : Nat) : Nat × Heap :=
  if h.size p = nunits then
    (p + headerSize, { h.setPtr prevp (h.ptr p) with freep := prevp })
  else
    let h := h.setSize p (h.size p - nunits)
    let p := h.after p
    let h := h.setSize p nunits
    (p + headerSize, { h with freep := prevp })

/-- The loop of `malloc`. -/
def mallocLoop (fuel : Nat) (granted : Bool) (nunits : Nat) : Nat → Nat → Nat → Heap → Option (Nat × Heap)
  | 0, _, _, _ => none
  | turns + 1, prevp, p, h =>
    if nunits ≤ h.size p then some (h.carve nunits prevp p)
    else if p = h.freep then do
      let (p, h) ← h.morecore fuel granted nunits
      if p = 0 then some (0, h) else mallocLoop fuel granted nunits turns p (h.ptr p) h
    else mallocLoop fuel granted nunits turns p (h.ptr p) h

/-- The first call makes a ring of the static header alone. -/
def start (h : Heap) (base : Nat) : Heap :=
  if h.freep = 0 then { (h.setPtr base base).setSize base 0 with freep := base } else h

end Heap

/-- The units of a block with room for `nbytes`, its header included. -/
def nunits (nbytes : Nat) : Nat := (nbytes + headerSize - 1) % 2 ^ 32 / headerSize + 1

/-- `malloc`, where `base` is the address of the static header; `none` when a loop takes `fuel` turns or more.
`granted` is the kernel's answer to an `sbrk` in this call. -/
def malloc (base : Nat) (h : Heap) (fuel : Nat) (granted : Bool) (nbytes : Nat) : Option (Nat × Heap) :=
  let h := h.start base
  Heap.mallocLoop fuel granted (nunits nbytes) fuel h.freep (h.ptr h.freep) h

/-- The blocks met from the static header on along the ring, up to it again. -/
def ringFrom (base : Nat) (h : Heap) : Nat → Nat → Option (List Spans.Span)
  | 0, _ => none
  | fuel + 1, p => if p = base then some [] else (ringFrom base h fuel (h.ptr p)).map (⟨p, h.size p * headerSize⟩ :: ·)

section Headers
variable {h : Heap} {p q val x : Nat}

/-- Two headers do not overlap. -/
def Clear (p q : Nat) : Prop := p + 8 ≤ q ∨ q + 8 ≤ p

theorem Clear.symm (clear : Clear p q) : Clear q p := Or.symm clear

namespace Heap

theorem word_writeInt_self (small : val < 2 ^ 32) :
    ({ h with mem := writeInt p val h.mem } : Heap).word p = val := by
  simp only [word, readInt_writeInt_same, wrap32, Int.bmod_def]
  split <;> omega

theorem word_writeInt_other (apart : q + 4 ≤ p ∨ p + 4 ≤ q) :
    ({ h with mem := writeInt p val h.mem } : Heap).word q = h.word q := by
  simp only [word]
  rw [readInt_writeInt_other _ (by omega)]

@[simp] theorem ptr_setPtr_self (small : val < 2 ^ 32) : (h.setPtr p val).ptr p = val := word_writeInt_self small
@[simp] theorem size_setPtr_self : (h.setPtr p val).size p = h.size p := word_writeInt_other (.inr (Nat.le_refl _))
@[simp] theorem ptr_setSize_self : (h.setSize p val).ptr p = h.ptr p := word_writeInt_other (.inl (Nat.le_refl _))
@[simp] theorem size_setSize_self (small : val < 2 ^ 32) : (h.setSize p val).size p = val := word_writeInt_self small

theorem ptr_lt (h : Heap) (p : Nat) : h.ptr p < 2 ^ 32 := by
  unfold ptr word
  omega

theorem size_lt (h : Heap) (p : Nat) : h.size p < 2 ^ 32 := by
  unfold size word
  omega

end Heap

/-- All but the header at `p` is as before. -/
structure Alike (h h' : Heap) (p : Nat) : Prop where
  ptr : ∀ q, Clear p q → h'.ptr q = h.ptr q
  size : ∀ q, Clear p q → h'.size q = h.size q
  mem : ∀ x : Nat, x < p ∨ p + 8 ≤ x → h'.mem x = h.mem x
  freep : h'.freep = h.freep
  brk : h'.brk = h.brk

theorem alike_setPtr : Alike h (h.setPtr p val) p where
  ptr _ clear := Heap.word_writeInt_other (by unfold Clear at clear; omega)
  size _ clear := Heap.word_writeInt_other (by unfold Clear at clear; omega)
  mem _ outside := writeInt_outside _ (by omega)
  freep := rfl
  brk := rfl

theorem alike_setSize : Alike h (h.setSize p val) p where
  ptr _ clear := Heap.word_writeInt_other (by unfold Clear at clear; omega)
  size _ clear := Heap.word_writeInt_other (by unfold Clear at clear; omega)
  mem _ outside := writeInt_outside _ (by omega)
  freep := rfl
  brk := rfl

theorem Alike.trans {h' h'' : Heap} (first : Alike h h' p) (second : Alike h' h'' p) : Alike h h'' p where
  ptr q clear := (second.ptr q clear).trans (first.ptr q clear)
  size q clear := (second.size q clear).trans (first.size q clear)
  mem x outside := (second.mem x outside).trans (first.mem x outside)
  freep := second.freep.trans first.freep
  brk := second.brk.trans first.brk

end Headers

end OsLabs.Umalloc
