import Mathlib.Algebra.Order.Group.Int
import Mathlib.Algebra.Order.Group.Nat
import Mathlib.Data.List.Basic

namespace TextInput

/-- An input stream of characters with the two flags a read can set. -/
structure IStream where
  text : List Char
  eof : Bool
  fail : Bool
  deriving DecidableEq, Repr

/-- A stream in good state that reads `text`. -/
def IStream.ofText (text : List Char) : IStream := ⟨text, false, false⟩

def IStream.good (s : IStream) : Bool := !s.eof && !s.fail

/-- `std::isspace` in the C locale. -/
def isSpace (c : Char) : Bool := c = ' ' || ('\t' ≤ c && c ≤ '\r')

/-- `out << v` for an `int`. -/
def showInt (v : Int) : List Char := if v < 0 then '-' :: Nat.toDigits 10 v.natAbs else Nat.toDigits 10 v.natAbs

/-- The sign in front of a number. -/
def readSign : List Char → Bool × List Char
  | '-' :: rest => (true, rest)
  | '+' :: rest => (false, rest)
  | text => (false, text)

/-- The number a text without white space in front begins with; without a digit it is 0, and a number
that is no `int` becomes the nearest one. -/
def readNumber (text : List Char) : Int × IStream :=
  let (negative, body) := readSign text
  let digits := body.takeWhile Char.isDigit
  let rest := body.dropWhile Char.isDigit
  let magnitude : Int := Nat.ofDigitChars 10 digits 0
  let value := if negative then -magnitude else magnitude
  if digits = [] then (0, ⟨rest, rest.isEmpty, true⟩)
  else if value < -2 ^ 31 then (-2 ^ 31, ⟨rest, rest.isEmpty, true⟩)
  else if 2 ^ 31 ≤ value then (2 ^ 31 - 1, ⟨rest, rest.isEmpty, true⟩)
  else (value, ⟨rest, rest.isEmpty, false⟩)

/-- `in >> v` for an `int` that held `old`, which is kept if the stream is not good or holds nothing
but white space. -/
def readInt (old : Int) (s : IStream) : Int × IStream :=
  if s.good then
    let text := s.text.dropWhile isSpace
    if text.isEmpty then (old, ⟨[], true, true⟩) else readNumber text
  else (old, { s with fail := true })

/-- `in.get()`; none is the value `EOF`. -/
def get (s : IStream) : Option Char × IStream :=
  if s.good then
    match s.text with
    | [] => (none, ⟨[], true, true⟩)
    | c :: rest => (some c, { s with text := rest })
  else (none, { s with fail := true })

/-- `in.ignore(n, delim)` for the `n` that stands for no limit. -/
def ignore (delim : Char) (s : IStream) : IStream :=
  if s.good then
    match s.text.dropWhile (· != delim) with
    | [] => ⟨[], true, false⟩
    | _ :: rest => { s with text := rest }
  else { s with fail := true }

section Reads
variable {c delim : Char} {text rest : List Char}

@[simp] theorem good_ofText : (IStream.ofText text).good = true := rfl

theorem get_cons : get (.ofText (c :: rest)) = (some c, .ofText rest) := rfl

theorem ignore_cons : ignore delim (.ofText (delim :: rest)) = .ofText rest := by
  unfold ignore IStream.ofText
  simp [IStream.good]

theorem showInt_natCast (n : Nat) : showInt n = Nat.toDigits 10 n := if_neg (by omega)

/-- A digit is neither white space nor a sign. -/
theorem readSign_digit (digit : c.isDigit) : isSpace c = false ∧ readSign (c :: rest) = (false, c :: rest) := by
  have bounds : 48 ≤ c.toNat ∧ c.toNat ≤ 57 := by
    simpa [Char.isDigit, UInt32.le_iff_toNat_le] using digit
  have small : ∀ d : Char, d.toNat < 48 → c ≠ d := by
    rintro d below rfl
    omega
  constructor
  · unfold isSpace
    have upper : ¬ c ≤ '\r' := by
      intro below
      have small : c.toNat ≤ 13 := UInt32.le_iff_toNat_le.mp below
      omega
    simp [small ' ' (by decide), upper]
  · unfold readSign
    split
    · rename_i same
      exact absurd (List.cons.inj same).1 (small '-' (by decide))
    · rename_i same
      exact absurd (List.cons.inj same).1 (small '+' (by decide))
    · rfl

/-- The digits of a number in front of a character that is none. -/
theorem span_digits (n : Nat) (stop : ∀ c, rest.head? = some c → c.isDigit = false) :
    (Nat.toDigits 10 n ++ rest).takeWhile Char.isDigit = Nat.toDigits 10 n ∧
      (Nat.toDigits 10 n ++ rest).dropWhile Char.isDigit = rest := by
  have digits : ∀ d ∈ Nat.toDigits 10 n, d.isDigit := fun d member =>
    Nat.isDigit_of_mem_toDigits (by decide) (by decide) member
  rw [List.takeWhile_append_of_pos digits, List.dropWhile_append_of_pos digits]
  cases rest with
  | nil => simp
  | cons c rest => simp [stop c rfl]

theorem readInt_ofText (old : Int) (some : text.dropWhile isSpace ≠ []) :
    readInt old (.ofText text) = readNumber (text.dropWhile isSpace) := by
  unfold readInt
  rw [good_ofText, if_pos rfl]
  exact if_neg (by simpa [IStream.ofText] using some)

/-- A number is read back, up to the first character that is no digit. -/
theorem readNumber_digits {n : Nat} (isInt : n < 2 ^ 31) (stop : c.isDigit = false) :
    readNumber (Nat.toDigits 10 n ++ c :: rest) = ((n : Int), .ofText (c :: rest)) := by
  obtain ⟨front, back⟩ := @span_digits (c :: rest) n fun d first => Option.some.inj first ▸ stop
  obtain ⟨d, ds, split⟩ := List.exists_cons_of_ne_nil (@Nat.toDigits_ne_nil n 10)
  have digit : d.isDigit := Nat.isDigit_of_mem_toDigits (by decide) (by decide) (split ▸ List.mem_cons_self)
  have sign : readSign (Nat.toDigits 10 n ++ c :: rest) = (false, Nat.toDigits 10 n ++ c :: rest) := by
    rw [split]
    exact (readSign_digit digit).2
  have lower : ¬ (n : Int) < -2 ^ 31 := by omega
  have upper : ¬ 2 ^ 31 ≤ (n : Int) := by omega
  unfold readNumber
  simp only [sign, front, back, if_neg Nat.toDigits_ne_nil, Nat.ofDigitChars_ten_toDigits,
    Bool.false_eq_true, if_false,
    if_neg lower, if_neg upper, List.isEmpty_cons]
  rfl

/-- A number behind white space is read back. -/
theorem readInt_showInt (old : Int) {space : List Char} {n : Nat} (blank : ∀ d ∈ space, isSpace d)
    (isInt : n < 2 ^ 31) (stop : c.isDigit = false) :
    readInt old (.ofText (space ++ (showInt n ++ c :: rest))) = ((n : Int), .ofText (c :: rest)) := by
  obtain ⟨d, ds, split⟩ := List.exists_cons_of_ne_nil (@Nat.toDigits_ne_nil n 10)
  have digit : d.isDigit := Nat.isDigit_of_mem_toDigits (by decide) (by decide) (split ▸ List.mem_cons_self)
  have solid : isSpace d = false := (@readSign_digit d [] digit).1
  have start : (space ++ (showInt n ++ c :: rest)).dropWhile isSpace = Nat.toDigits 10 n ++ c :: rest := by
    rw [showInt_natCast, List.dropWhile_append_of_pos blank, split, List.cons_append,
      List.dropWhile_cons_of_neg (by simp [solid])]
  rw [readInt_ofText old (by simp [start]), start, readNumber_digits isInt stop]

end Reads

end TextInput
