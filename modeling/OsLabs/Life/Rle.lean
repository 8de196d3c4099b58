import Mathlib.Data.List.Basic
import Mathlib.Data.List.Infix

namespace OsLabs.Life

/-- What Python raises where `read_rle` uses the result of a match that failed, and where `make_input`
takes the first line of none. -/
inductive PyError
  | attributeError | indexError
  deriving DecidableEq, Repr

/-- The lines of a text file, as `readline` returns them one after the other. -/
def linesOf : List Char → List (List Char)
  | [] => []
  | c :: rest =>
    if c = '\n' then [c] :: linesOf rest
    else match linesOf rest with
      | [] => [[c]]
      | line :: lines => (c :: line) :: lines

/-- The two numbers of `re.match(r'x = (?P<x>\d+), y = (?P<y>\d+)', line)`, with `\d` for ASCII digits. -/
def matchHeader (line : List Char) : Option (Nat × Nat) := do
  let rest ← "x = ".toList.isPrefixOf? line
  let x := rest.takeWhile Char.isDigit
  let rest ← ", y = ".toList.isPrefixOf? (rest.dropWhile Char.isDigit)
  let y := rest.takeWhile Char.isDigit
  if x = [] ∨ y = [] then none else some (Nat.ofDigitChars 10 x 0, Nat.ofDigitChars 10 y 0)

/-- The loop over the first lines: `x`, `y`, and the text `fh.read()` returns behind it. At the end of
the file `readline` returns an empty line, which does not match. -/
def readHeader : List (List Char) → Except PyError (Nat × Nat × List Char)
  | [] => .error .attributeError
  | line :: lines =>
    if line.head? = some '#' then readHeader lines
    else match matchHeader line with
      | none => .error .attributeError
      | some (x, y) => .ok (x, y, lines.flatten)

/-- `cur_count`, `cur_line` and `lines`. -/
structure Rle where
  curCount : Nat
  curLine : List Char
  lines : List (List Char)
  deriving DecidableEq, Repr

/-- `cur_line += '.' * (x - len(cur_line))` -/
def pad (x : Nat) (line : List Char) : List Char := line ++ List.replicate (x - line.length) '.'

/-- What the loop does with a character other than `!`. -/
def rleStep (x : Nat) (s : Rle) (c : Char) : Rle :=
  if c.isDigit then { s with curCount := s.curCount * 10 + (c.toNat - '0'.toNat) }
  else if c = 'b' then ⟨0, s.curLine ++ List.replicate (max s.curCount 1) '.', s.lines⟩
  else if c = 'o' then ⟨0, s.curLine ++ List.replicate (max s.curCount 1) 'o', s.lines⟩
  else if c = '$' then ⟨0, [], s.lines ++ pad x s.curLine ::
    if 1 < s.curCount then List.replicate (s.curCount - 1) (List.replicate x '.') else []⟩
  else s

/-- The loop over the rest of the file. -/
def rleLoop (x : Nat) : Rle → List Char → List (List Char)
  | s, [] => s.lines
  | s, c :: rest => if c = '!' then s.lines ++ [pad x s.curLine] else rleLoop x (rleStep x s c) rest

/-- `read_rle` -/
def readRle (text : List Char) : Except PyError (List (List Char)) := do
  let (x, _, remaining) ← readHeader (linesOf text)
  return rleLoop x ⟨0, [], []⟩ remaining

/-- The three kinds of runs: dead cells, live cells, ends of rows. -/
inductive Tag
  | b | o | endOfRow
  deriving DecidableEq, Repr

def Tag.char : Tag → Char
  | .b => 'b'
  | .o => 'o'
  | .endOfRow => '$'

/-- A run of a pattern: its count, if it is written, is a positive decimal number. -/
structure Run where
  digits : List Char
  tag : Tag
  decimal : ∀ c ∈ digits, c.isDigit
  positive : digits = [] ∨ 0 < Nat.ofDigitChars 10 digits 0

/-- A count that is not written is 1. -/
def Run.count (run : Run) : Nat := if run.digits = [] then 1 else Nat.ofDigitChars 10 run.digits 0

def Run.text (run : Run) : List Char := run.digits ++ [run.tag.char]

/-- The row and the column behind a run that begins at the given ones. -/
def Run.advance (place : Nat × Nat) (run : Run) : Nat × Nat :=
  if run.tag = .endOfRow then (place.1 + run.count, 0) else (place.1, place.2 + run.count)

/-- The row and the column behind some runs. -/
def cursor (runs : List Run) : Nat × Nat := runs.foldl Run.advance (0, 0)

/-- The pattern has a live cell in row `r`, column `c`: one of its live runs lies over it. -/
def Live (runs : List Run) (r c : Nat) : Prop :=
  ∃ before run after, runs = before ++ run :: after ∧ run.tag = .o ∧
    (cursor before).1 = r ∧ (cursor before).2 ≤ c ∧ c < (cursor before).2 + run.count

/-- How many rows are written: a `$` ends a row, and the last row needs none. -/
def rowCount (runs : List Run) : Nat := (cursor runs).1 + if (cursor runs).2 = 0 then 0 else 1

/-- A pattern file: comment lines, the header with what else may stand in its line, the runs with
newlines among them, and whatever follows the `!`. No row has more cells than the header says, and
there are no more rows. -/
structure Document where
  comments : List (List Char)
  width : Nat
  height : Nat
  rule : List Char
  runs : List Run
  body : List Char
  trailer : List Char
  commentLine : ∀ comment ∈ comments, '\n' ∉ comment
  wide : 1 ≤ width
  high : 1 ≤ height
  ruleLine : '\n' ∉ rule
  ruleStart : ∀ c, rule.head? = some c → c.isDigit = false
  laidOut : body.filter (· != '\n') = runs.flatMap Run.text
  columns : ∀ before, before <+: runs → (cursor before).2 ≤ width
  rows : rowCount runs ≤ height

def Document.header (doc : Document) : List Char :=
  "x = ".toList ++ (Nat.toDigits 10 doc.width ++ (", y = ".toList ++ (Nat.toDigits 10 doc.height ++ doc.rule)))

def Document.text (doc : Document) : List Char :=
  doc.comments.flatMap (fun comment => '#' :: (comment ++ ['\n'])) ++
    (doc.header ++ '\n' :: (doc.body ++ '!' :: doc.trailer))

/-- What the strings of a pattern show at row `r`, column `c`. -/
def cellAt (lines : List (List Char)) (r c : Nat) : Option Char := lines[r]?.bind (·[c]?)

/-- The strings show the whole pattern. -/
structure Document.Decoded (doc : Document) (lines : List (List Char)) : Prop where
  height : lines.length = doc.height
  width : ∀ line ∈ lines, line.length = doc.width
  cells : ∀ r c, r < doc.height → c < doc.width → (cellAt lines r c = some 'o' ↔ Live doc.runs r c)

end OsLabs.Life
