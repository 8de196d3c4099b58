import OsLabs.Life.BoardText
import OsLabs.Life.RleDecode

namespace OsLabs.Life
open TextInput

/-- `'.' * n` -/
def dots (n : Int) : List Char := List.replicate n.toNat '.'

/-- `make_input`: what it writes for the pattern in `text`. -/
def makeInput (text : List Char) (left right above below : Int) : Except PyError (List Char) := do
  let lines ← readRle text
  match lines with
  | [] => .error .indexError
  | first :: _ =>
    let blankLine := dots (first.length + left + right)
    let lines := lines.map fun x => dots left ++ x ++ dots right
    let lines := List.replicate above.toNat blankLine ++ lines ++ List.replicate below.toNat blankLine
    .ok (Nat.toDigits 10 (lines.headD []).length ++ ' ' :: (Nat.toDigits 10 lines.length ++ '\n' ::
      lines.flatMap fun line => line ++ ['\n']))

section Plain
variable {x : Nat}

/-- The rows read so far show nothing but dead and live cells. -/
def Rle.Plain (s : Rle) : Prop := ∀ row ∈ s.lines ++ [s.curLine], ∀ c ∈ row, c = '.' ∨ c = 'o'

theorem plain_append {row : List Char} (plain : ∀ c ∈ row, c = '.' ∨ c = 'o') (n : Nat) {d : Char}
    (cell : d = '.' ∨ d = 'o') :
    ∀ c ∈ row ++ List.replicate n d, c = '.' ∨ c = 'o' := by
  intro c member
  rcases List.mem_append.mp member with old | new
  · exact plain c old
  · exact List.eq_of_mem_replicate new ▸ cell

theorem Rle.Plain.rleStep {s : Rle} (plain : s.Plain) (c : Char) : (rleStep x s c).Plain := by
  have current := plain s.curLine (List.mem_append_right _ List.mem_cons_self)
  have extended : ∀ n d, (d = '.' ∨ d = 'o') → Rle.Plain ⟨0, s.curLine ++ List.replicate n d, s.lines⟩ := by
    intro n d cell row member
    rcases List.mem_append.mp member with earlier | last
    · exact plain row (List.mem_append_left _ earlier)
    · exact List.mem_singleton.mp last ▸ plain_append current n cell
  unfold Life.rleStep
  split
  · exact plain
  split
  · exact extended _ '.' (Or.inl rfl)
  split
  · exact extended _ 'o' (Or.inr rfl)
  split
  · intro row member
    simp only [List.mem_append, List.mem_cons, List.not_mem_nil, or_false] at member
    rcases member with (earlier | rfl | blank) | rfl
    · exact plain row (List.mem_append_left _ earlier)
    · exact plain_append current _ (Or.inl rfl)
    · split at blank
      · rw [List.eq_of_mem_replicate blank]
        exact fun c inside => Or.inl (List.eq_of_mem_replicate inside)
      · cases blank
    · exact fun c inside => absurd inside List.not_mem_nil
  · exact plain

theorem Rle.Plain.rleLoop {s : Rle} (plain : s.Plain) (rest : List Char) :
    ∀ row ∈ rleLoop x s rest, ∀ c ∈ row, c = '.' ∨ c = 'o' := by
  induction rest generalizing s with
  | nil => exact fun row member => plain row (List.mem_append_left _ member)
  | cons c rest ih =>
    unfold Life.rleLoop
    split
    · intro row member
      rcases List.mem_append.mp member with earlier | last
      · exact plain row (List.mem_append_left _ earlier)
      · rw [List.mem_singleton.mp last]
        exact plain_append (plain s.curLine (List.mem_append_right _ List.mem_cons_self)) _ (Or.inl rfl)
    · exact ih (plain.rleStep c)

/-- Whatever the text is, the strings that `read_rle` returns show dead and live cells. -/
theorem readRle_plain {text : List Char} {lines : List (List Char)} (run : readRle text = .ok lines) :
    ∀ row ∈ lines, ∀ c ∈ row, c = '.' ∨ c = 'o' := by
  unfold readRle at run
  cases header : readHeader (linesOf text) with
  | error e =>
    rw [header] at run
    cases run
  | ok found =>
    rw [header] at run
    cases run
    refine Rle.Plain.rleLoop (fun row member => ?_) _
    rw [List.nil_append, List.mem_singleton] at member
    exact fun c inside => absurd (member ▸ inside) List.not_mem_nil

end Plain

section Frame
variable {g lines : List (List Char)} {row blank : List Char} {w r c n : Nat}

/-- In rows of one width behind each other a cell is found by its number. -/
theorem getElem?_flatten (wide : ∀ row ∈ lines, row.length = w) (r : Nat) (inside : c < w) :
    lines.flatten[r * w + c]? = cellAt lines r c := by
  induction lines generalizing r with
  | nil => rfl
  | cons row lines ih =>
    have full : row.length = w := wide row List.mem_cons_self
    rw [List.flatten_cons]
    cases r with
    | zero =>
      rw [Nat.zero_mul, Nat.zero_add, List.getElem?_append_left (by omega)]
      rfl
    | succ r =>
      have behind : (r + 1) * w + c - row.length = r * w + c := by
        rw [Nat.succ_mul, full]
        omega
      rw [List.getElem?_append_right (by rw [full, Nat.succ_mul]; omega), behind]
      exact ih (fun other member => wide other (List.mem_cons_of_mem row member)) r

/-- Dead cells in front of a row. -/
theorem getElem?_dots_append : (List.replicate n '.' ++ row)[c]? = some 'o' ↔ n ≤ c ∧ row[c - n]? = some 'o' := by
  by_cases front : c < n
  · rw [List.getElem?_append_left (by rwa [List.length_replicate]), List.getElem?_replicate_of_lt front]
    exact ⟨fun cell => absurd (Option.some.inj cell) (by decide), fun cell => absurd cell.1 (not_le.mpr front)⟩
  · rw [List.getElem?_append_right (by rw [List.length_replicate]; exact not_lt.mp front), List.length_replicate]
    exact ⟨fun cell => ⟨not_lt.mp front, cell⟩, And.right⟩

/-- Rows without a live cell in front of the others. -/
theorem cellAt_behind (dead : 'o' ∉ blank) :
    cellAt (List.replicate n blank ++ g) r c = some 'o' ↔ n ≤ r ∧ cellAt g (r - n) c = some 'o' := by
  unfold cellAt
  by_cases front : r < n
  · rw [List.getElem?_append_left (by rwa [List.length_replicate]), List.getElem?_replicate_of_lt front]
    exact ⟨fun cell => absurd (List.mem_of_getElem? cell) dead, fun cell => absurd cell.1 (not_le.mpr front)⟩
  · rw [List.getElem?_append_right (by rw [List.length_replicate]; exact not_lt.mp front), List.length_replicate]
    exact ⟨fun cell => ⟨not_lt.mp front, cell⟩, And.right⟩

/-- The strings with dead cells on both sides. -/
theorem cellAt_widen {left right : Nat} :
    cellAt (lines.map fun x => List.replicate left '.' ++ x ++ List.replicate right '.') r c = some 'o' ↔
      left ≤ c ∧ cellAt lines r (c - left) = some 'o' := by
  unfold cellAt
  rw [List.getElem?_map]
  cases lines[r]? with
  | none => simp
  | some row =>
    rw [Option.map_some, Option.bind_some, Option.bind_some, getElem?_dots, getElem?_dots_append]

end Frame

/-- The lines of a board: the strings, with dead cells on all four sides. -/
def margins (w left right above below : Nat) (lines : List (List Char)) : List (List Char) :=
  List.replicate above (List.replicate w '.') ++
    (lines.map fun x => List.replicate left '.' ++ x ++ List.replicate right '.') ++
    List.replicate below (List.replicate w '.')

section Margins
variable {lines : List (List Char)} {w x left right above below r c : Nat}

theorem length_margins : (margins w left right above below lines).length = above + lines.length + below := by
  simp [margins, Nat.add_assoc]

theorem mem_margins (wide : ∀ row ∈ lines, row.length = x) (full : w = x + left + right) :
    ∀ row ∈ margins w left right above below lines, row.length = w := by
  intro row member
  unfold margins at member
  rw [List.mem_append, List.mem_append, List.mem_map] at member
  rcases member with (blank | ⟨string, inside, rfl⟩) | blank
  · rw [List.eq_of_mem_replicate blank, List.length_replicate]
  · rw [List.length_append, List.length_append, List.length_replicate, List.length_replicate,
      wide string inside, full]
    omega
  · rw [List.eq_of_mem_replicate blank, List.length_replicate]

theorem cellAt_margins : cellAt (margins w left right above below lines) r c = some 'o' ↔
    above ≤ r ∧ left ≤ c ∧ cellAt lines (r - above) (c - left) = some 'o' := by
  have dead : 'o' ∉ List.replicate w '.' := fun member => absurd (List.eq_of_mem_replicate member) (by decide)
  unfold margins
  rw [cellAt_dead fun row member => List.eq_of_mem_replicate member ▸ dead, cellAt_behind dead, cellAt_widen]

theorem margins_plain (plain : ∀ row ∈ lines, ∀ c ∈ row, c = '.' ∨ c = 'o') :
    ∀ row ∈ margins w left right above below lines, ∀ c ∈ row, c = '.' ∨ c = 'o' := by
  have none : ∀ c ∈ ([] : List Char), c = '.' ∨ c = 'o' := fun c member => absurd member List.not_mem_nil
  have blank : ∀ n, ∀ c ∈ List.replicate n '.', c = '.' ∨ c = 'o' := fun n => plain_append none n (Or.inl rfl)
  intro row member
  unfold margins at member
  rw [List.mem_append, List.mem_append, List.mem_map] at member
  rcases member with (before | ⟨string, inside, rfl⟩) | behind
  · exact List.eq_of_mem_replicate before ▸ blank w
  · rw [List.append_assoc]
    intro c found
    rcases List.mem_append.mp found with front | rest
    · exact blank left c front
    · exact plain_append (plain string inside) right (Or.inl rfl) c rest
  · exact List.eq_of_mem_replicate behind ▸ blank w

/-- `make_input` writes the two numbers and the lines. -/
theorem makeInput_eq {text : List Char} (run : readRle text = .ok lines) (nonempty : lines ≠ [])
    (wide : ∀ row ∈ lines, row.length = x) (full : w = x + left + right) :
    makeInput text left right above below =
      .ok (showInt w ++ ' ' :: (showInt (above + lines.length + below : Nat) ++ '\n' ::
        (margins w left right above below lines).flatMap fun line => line ++ ['\n'])) := by
  obtain ⟨first, more, rfl⟩ := List.exists_cons_of_ne_nil nonempty
  have blankLine : dots (first.length + left + right) = List.replicate w '.' := by
    rw [dots, wide first List.mem_cons_self, full]
    rfl
  have framed : List.replicate (above : Int).toNat (List.replicate w '.') ++
      ((first :: more).map fun x => dots left ++ x ++ dots right) ++
      List.replicate (below : Int).toNat (List.replicate w '.') = margins w left right above below
        (first :: more) := rfl
  have head : ((margins w left right above below (first :: more)).headD []).length = w := by
    cases lines : margins w left right above below (first :: more) with
    | nil =>
      have length := @length_margins (first :: more) w left right above below
      rw [lines, List.length_cons] at length
      exact absurd length (by rw [List.length_nil]; omega)
    | cons row rows => exact mem_margins wide full row (lines ▸ List.mem_cons_self)
  unfold makeInput
  rw [run]
  simp only [bind, Except.bind, blankLine, framed, head, length_margins, showInt_natCast]

end Margins

section Cells
variable {text : List Char} (plain : ∀ c ∈ text, c = '.' ∨ c = 'o')
include plain

theorem cells_binary : ∀ cell ∈ text.map fun c => cellOf (some c), cell = 0 ∨ cell = 1 := by
  intro cell member
  obtain ⟨c, inside, rfl⟩ := List.mem_map.mp member
  rcases plain c inside with rfl | rfl
  · exact Or.inl (by decide)
  · exact Or.inr (by decide)

/-- The live cells are the characters `o`. -/
theorem cells_live (k : Nat) : (text.map fun c => cellOf (some c)).getD k 0 = 1 ↔ text[k]? = some 'o' := by
  rw [List.getD_eq_getElem?_getD, List.getElem?_map]
  cases found : text[k]? with
  | none => simp
  | some c =>
    rcases plain c (List.mem_of_getElem? found) with rfl | rfl
    · decide
    · decide

end Cells

/-- A board shows a pattern that begins at column `left`, row `above`. -/
structure Document.ShownOn (doc : Document) (left above : Nat) (board : BoardFields) : Prop where
  valid : board.Valid
  cells : ∀ x y : Nat, (x : Int) < board.width → (y : Int) < board.height →
    (board.cells.getD (y * board.width.toNat + x) 0 = 1 ↔ above ≤ y ∧ left ≤ x ∧ Live doc.runs (y - above) (x - left))

/-- What `make_input` writes for a pattern is read as a board that shows it, `left` and `above` cells away
from the corner, with a margin behind it. -/
theorem readBoard_makeInput (doc : Document) {left right above below w h : Nat} (wide : w = doc.width + left + right)
    (high : h = above + ((cursor doc.runs).1 + 1) + below) (wideInt : w < 2 ^ 31) (highInt : h < 2 ^ 31)
    (fits : w * h < 2 ^ 31) (target : BoardFields) :
    ∃ text board, makeInput doc.text left right above below = .ok text ∧
      readBoard (.ofText text) target = .ok (.ofText [], board) ∧
      board.width = w ∧ board.height = h ∧ doc.ShownOn left above board := by
  obtain ⟨lines, run, length, widths, live⟩ := readRle_rows doc
  have nonempty : lines ≠ [] := by
    rintro rfl
    cases length
  have full := @mem_margins lines w doc.width left right above below widths wide
  have count : (margins w left right above below lines).length = h := by rw [length_margins, length, high]
  have plain : ∀ c ∈ (margins w left right above below lines).flatten, c = '.' ∨ c = 'o' := by
    intro c member
    obtain ⟨row, inside, found⟩ := List.mem_flatten.mp member
    exact margins_plain (readRle_plain run) row inside c found
  have read := readBoard_lines full count wideInt highInt fits target []
  rw [List.append_nil] at read
  have cellCount : ((margins w left right above below lines).flatten.map fun c => cellOf (some c)).length =
      w * h := by
    rw [List.length_map, length_flatten full, count, Nat.mul_comm]
  refine ⟨_, ⟨w, h, (margins w left right above below lines).flatten.map fun c => cellOf (some c)⟩,
    makeInput_eq run nonempty widths wide, ?_, rfl, rfl,
      valid_natCast wideInt highInt fits cellCount (cells_binary plain), ?_⟩
  · rw [length, ← high]
    exact read
  · intro x y column _
    rw [cells_live plain, Int.toNat_natCast, getElem?_flatten full y (Int.ofNat_lt.mp column), cellAt_margins, live]

theorem uncounted_decimal : ∀ c ∈ ([] : List Char), c.isDigit := nofun

theorem uncounted_positive : ([] : List Char) = [] ∨ 0 < Nat.ofDigitChars 10 [] 0 := .inl rfl

/-- A run without a count. -/
def uncounted (tag : Tag) : Run := ⟨[], tag, uncounted_decimal, uncounted_positive⟩

def gliderRuns : List Run :=
  [uncounted .b, uncounted .o, uncounted .endOfRow, ⟨['2'], .b, List.all_eq_true.mp rfl, .inr (by decide)⟩,
   uncounted .o, uncounted .endOfRow, ⟨['3'], .o, List.all_eq_true.mp rfl, .inr (by decide)⟩]

/-- The pattern file of a glider. -/
def glider : Document where
  comments := []
  width := 3
  height := 3
  rule := ", rule = B3/S23".toList
  runs := gliderRuns
  body := "bo$2bo$3o".toList
  trailer := ['\n']
  commentLine := nofun
  wide := by decide
  high := by decide
  ruleLine := by decide
  ruleStart := fun c first => by
    cases (first : some ',' = some c)
    rfl
  laidOut := by decide
  columns before initial := (show ∀ before ∈ gliderRuns.inits, (cursor before).2 ≤ 3 by decide) before
    ((List.mem_inits ..).mpr initial)
  rows := by decide

theorem readBoard_makeInput_glider :
    ∃ text board, makeInput glider.text 1 1 1 1 = .ok text ∧
      readBoard (.ofText text) ⟨0, 0, []⟩ = .ok (.ofText [], board) ∧
      board.width = 5 ∧ board.height = 5 ∧ glider.ShownOn 1 1 board :=
  @readBoard_makeInput glider 1 1 1 1 5 5 (by decide) (by decide) (by decide) (by decide) (by decide) ⟨0, 0, []⟩

end OsLabs.Life
