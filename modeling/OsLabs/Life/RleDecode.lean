import Mathlib.Data.List.TakeDrop
import OsLabs.Lib.TextInput
import OsLabs.Life.Rle

namespace OsLabs.Life
open TextInput

section Header
variable {line rest : List Char}

theorem linesOf_line (oneLine : '\n' ∉ line) : linesOf (line ++ '\n' :: rest) = (line ++ ['\n']) :: linesOf rest := by
  induction line with
  | nil => rfl
  | cons c line ih =>
    have other : c ≠ '\n' := fun same => oneLine (same ▸ List.mem_cons_self)
    rw [List.cons_append, linesOf, if_neg other, ih fun member => oneLine (List.mem_cons_of_mem c member)]
    rfl

theorem flatten_linesOf (text : List Char) : (linesOf text).flatten = text := by
  induction text with
  | nil => rfl
  | cons c rest ih =>
    unfold linesOf
    by_cases newline : c = '\n'
    · rw [if_pos newline, List.flatten_cons, ih]
      rfl
    · rw [if_neg newline]
      cases lines : linesOf rest with
      | nil =>
        rw [lines] at ih
        rw [← ih]
        rfl
      | cons line lines' =>
        rw [lines] at ih
        rw [← ih]
        rfl

theorem isPrefixOf?_append (front : List Char) : front.isPrefixOf? (front ++ rest) = some rest := by
  induction front with
  | nil => rfl
  | cons c front ih => simp [List.isPrefixOf?, ih]

theorem matchHeader_text {x y : Nat} (stop : ∀ c, rest.head? = some c → c.isDigit = false) :
    matchHeader ("x = ".toList ++ (Nat.toDigits 10 x ++ (", y = ".toList ++ (Nat.toDigits 10 y ++ rest)))) =
      some (x, y) := by
  obtain ⟨xDigits, xRest⟩ := @span_digits (", y = ".toList ++ (Nat.toDigits 10 y ++ rest)) x (by
    intro c first
    obtain rfl : ',' = c := Option.some.inj first
    decide)
  obtain ⟨yDigits, _⟩ := span_digits y stop
  unfold matchHeader
  simp only [isPrefixOf?_append, xDigits, xRest, yDigits, Option.bind_eq_bind, Option.bind_some]
  rw [if_neg (not_or.mpr ⟨Nat.toDigits_ne_nil, Nat.toDigits_ne_nil⟩), Nat.ofDigitChars_ten_toDigits,
    Nat.ofDigitChars_ten_toDigits]

/-- Comment lines are skipped. -/
theorem readHeader_comments {comments : List (List Char)} (oneLine : ∀ comment ∈ comments, '\n' ∉ comment) :
    readHeader (linesOf (comments.flatMap (fun comment => '#' :: (comment ++ ['\n'])) ++ rest)) =
      readHeader (linesOf rest) := by
  induction comments with
  | nil => rfl
  | cons comment comments ih =>
    have first : '\n' ∉ '#' :: comment := by
      rw [List.mem_cons, not_or]
      exact ⟨by decide, oneLine comment List.mem_cons_self⟩
    rw [List.flatMap_cons, ← List.cons_append, List.append_assoc, List.append_assoc, List.singleton_append,
      linesOf_line first]
    exact ih fun other member => oneLine other (List.mem_cons_of_mem comment member)

theorem readHeader_text (doc : Document) :
    readHeader (linesOf doc.text) = .ok (doc.width, doc.height, doc.body ++ '!' :: doc.trailer) := by
  have matched : matchHeader (doc.header ++ ['\n']) = some (doc.width, doc.height) := by
    unfold Document.header
    simp only [List.append_assoc]
    refine matchHeader_text fun c first => ?_
    cases rule : doc.rule with
    | nil =>
      rw [rule] at first
      obtain rfl : '\n' = c := Option.some.inj first
      decide
    | cons d ds =>
      rw [rule] at first
      exact doc.ruleStart c (by rw [rule]; exact first)
  have oneLine : '\n' ∉ doc.header := by
    have digits : ∀ n, '\n' ∉ Nat.toDigits 10 n := fun n member =>
      absurd (Nat.isDigit_of_mem_toDigits (by decide) (by decide) member) (by decide)
    unfold Document.header
    simp only [List.mem_append, not_or]
    exact ⟨by decide, digits _, by decide, digits _, doc.ruleLine⟩
  have start : (doc.header ++ ['\n']).head? = some 'x' := rfl
  unfold Document.text
  rw [readHeader_comments doc.commentLine, linesOf_line oneLine]
  unfold readHeader
  rw [start, if_neg (by decide), matched, flatten_linesOf]

end Header

section Runs
variable {runs : List Run} {run : Run} {r c : Nat}

theorem cursor_snoc (runs : List Run) (run : Run) : cursor (runs ++ [run]) = run.advance (cursor runs) := by
  unfold cursor
  rw [List.foldl_append]
  rfl

/-- A live cell lies in an earlier run or in the last one. -/
theorem live_snoc : Live (runs ++ [run]) r c ↔ Live runs r c ∨
    run.tag = .o ∧ (cursor runs).1 = r ∧ (cursor runs).2 ≤ c ∧ c < (cursor runs).2 + run.count := by
  constructor
  · rintro ⟨before, found, after, split, live⟩
    rcases List.eq_nil_or_concat after with rfl | ⟨after, last, rfl⟩
    · obtain ⟨rfl, same⟩ := List.append_inj' split rfl
      obtain rfl : run = found := (List.cons.inj same).1
      exact Or.inr live
    · rw [List.concat_eq_append, ← List.cons_append, ← List.append_assoc] at split
      exact Or.inl ⟨before, found, after, (List.append_inj' split rfl).1, live⟩
  · rintro (⟨before, found, after, rfl, live⟩ | live)
    · exact ⟨before, found, after ++ [run], by rw [List.append_assoc, List.cons_append], live⟩
    · exact ⟨runs, run, [], rfl, live⟩

theorem not_live_nil : ¬ Live [] r c := by
  rintro ⟨before, found, after, split, _⟩
  cases before <;> cases split

end Runs

section Cells
variable {g h : List (List Char)} {row : List Char} {r c : Nat}

theorem cellAt_line : cellAt (g ++ [row]) r c = some 'o' ↔
    cellAt g r c = some 'o' ∨ r = g.length ∧ row[c]? = some 'o' := by
  unfold cellAt
  rw [List.getElem?_append]
  by_cases earlier : r < g.length
  · rw [if_pos earlier]
    exact ⟨Or.inl, fun cell => cell.elim id fun last => absurd last.1 earlier.ne⟩
  · rw [if_neg earlier, List.getElem?_eq_none (not_lt.mp earlier)]
    by_cases last : r = g.length
    · subst last
      simp
    · have behind : r - g.length ≠ 0 := by omega
      simp [behind, last]

/-- Rows without a live cell can be appended. -/
theorem cellAt_dead (dead : ∀ row ∈ h, 'o' ∉ row) : cellAt (g ++ h) r c = some 'o' ↔ cellAt g r c = some 'o' := by
  induction h using List.reverseRecOn with
  | nil => rw [List.append_nil]
  | append_singleton h row ih =>
    rw [← List.append_assoc, cellAt_line, ih fun other member => dead other (List.mem_append_left _ member)]
    refine ⟨fun cell => cell.elim id fun last => ?_, Or.inl⟩
    exact absurd (List.mem_of_getElem? last.2) (dead row (List.mem_append_right _ List.mem_cons_self))

/-- Dead cells can be appended to a row. -/
theorem getElem?_dots (row : List Char) (n c : Nat) :
    (row ++ List.replicate n '.')[c]? = some 'o' ↔ row[c]? = some 'o' := by
  rw [List.getElem?_append]
  by_cases earlier : c < row.length
  · rw [if_pos earlier]
  · rw [if_neg earlier, List.getElem?_eq_none (not_lt.mp earlier)]
    refine ⟨fun cell => ?_, nofun⟩
    exact absurd (List.eq_of_mem_replicate (List.mem_of_getElem? cell)) (by decide)

/-- Live cells appended to a row. -/
theorem getElem?_live (row : List Char) (n c : Nat) :
    (row ++ List.replicate n 'o')[c]? = some 'o' ↔ row[c]? = some 'o' ∨ row.length ≤ c ∧ c < row.length + n := by
  rw [List.getElem?_append]
  by_cases earlier : c < row.length
  · rw [if_pos earlier]
    exact ⟨Or.inl, fun cell => cell.elim id fun last => absurd last.1 (by omega)⟩
  · rw [if_neg earlier, List.getElem?_eq_none (not_lt.mp earlier), List.getElem?_replicate]
    simp
    omega

theorem length_pad {x : Nat} (short : row.length ≤ x) : (pad x row).length = x := by
  rw [pad, List.length_append, List.length_replicate]
  omega

end Cells

section Loop
variable {x : Nat} {runs : List Run}

theorem foldl_digits {digits : List Char} (decimal : ∀ c ∈ digits, c.isDigit) (s : Rle) :
    digits.foldl (rleStep x) s = { s with curCount := Nat.ofDigitChars 10 digits s.curCount } := by
  induction digits generalizing s with
  | nil => rw [Nat.ofDigitChars_nil]; rfl
  | cons c digits ih =>
    have digit := decimal c List.mem_cons_self
    rw [List.foldl_cons, ih fun d member => decimal d (List.mem_cons_of_mem c member), Nat.ofDigitChars_cons, rleStep,
      if_pos digit, Nat.mul_comm 10]

/-- What a run does to the row that is being built and to the rows that are finished. -/
def Run.apply (x : Nat) (run : Run) (s : Rle) : Rle :=
  match run.tag with
  | .b => ⟨0, s.curLine ++ List.replicate run.count '.', s.lines⟩
  | .o => ⟨0, s.curLine ++ List.replicate run.count 'o', s.lines⟩
  | .endOfRow => ⟨0, [], s.lines ++ [pad x s.curLine] ++ List.replicate (run.count - 1) (List.replicate x '.')⟩

theorem foldl_run {s : Rle} (fresh : s.curCount = 0) (run : Run) : run.text.foldl (rleStep x) s = run.apply x s := by
  have count : max (Nat.ofDigitChars 10 run.digits 0) 1 = run.count := by
    unfold Run.count
    rcases run.positive with omitted | positive
    · rw [if_pos omitted, omitted, Nat.ofDigitChars_nil]
      rfl
    · rw [if_neg, max_eq_left positive]
      rintro omitted
      rw [omitted, Nat.ofDigitChars_nil] at positive
      exact absurd positive (lt_irrefl 0)
  rw [Run.text, List.foldl_append, foldl_digits run.decimal, fresh]
  unfold Run.apply
  cases tag : run.tag with
  | b => simp [rleStep, Tag.char, count]
  | o => simp [rleStep, Tag.char, count]
  | endOfRow =>
    have more : (if 1 < Nat.ofDigitChars 10 run.digits 0 then
        List.replicate (Nat.ofDigitChars 10 run.digits 0 - 1) (List.replicate x '.') else []) =
        List.replicate (run.count - 1) (List.replicate x '.') := by
      rw [← count]
      by_cases several : 1 < Nat.ofDigitChars 10 run.digits 0
      · rw [if_pos several, max_eq_left several.le]
      · rw [if_neg several, max_eq_right (not_lt.mp several)]
        rfl
    simp [rleStep, Tag.char, more]

/-- After some runs of a pattern whose rows have at most `x` cells. -/
structure Reads (x : Nat) (runs : List Run) (s : Rle) : Prop where
  fresh : s.curCount = 0
  row : s.lines.length = (cursor runs).1
  column : s.curLine.length = (cursor runs).2
  wide : ∀ line ∈ s.lines, line.length = x
  cells : ∀ r c, cellAt (s.lines ++ [s.curLine]) r c = some 'o' ↔ Live runs r c

theorem Reads.run {s : Rle} (reads : Reads x runs s) (short : (cursor runs).2 ≤ x) (run : Run) :
    Reads x (runs ++ [run]) (run.apply x s) := by
  have row := reads.row
  have column := reads.column
  have positive : 1 ≤ run.count := by
    unfold Run.count
    split
    · exact le_rfl
    · rename_i written
      exact run.positive.resolve_left written
  have cells : ∀ r c, Live (runs ++ [run]) r c ↔ (cellAt s.lines r c = some 'o' ∨
      r = s.lines.length ∧ s.curLine[c]? = some 'o') ∨
      run.tag = .o ∧ (cursor runs).1 = r ∧ (cursor runs).2 ≤ c ∧ c < (cursor runs).2 + run.count := by
    intro r c
    rw [live_snoc, ← reads.cells, cellAt_line]
  cases tag : run.tag with
  | b =>
    have applied : run.apply x s = ⟨0, s.curLine ++ List.replicate run.count '.', s.lines⟩ := by simp [Run.apply, tag]
    have place : cursor (runs ++ [run]) = ((cursor runs).1, (cursor runs).2 + run.count) := by
      simp [cursor_snoc, Run.advance, tag]
    rw [applied]
    refine ⟨rfl, by rw [place]; exact row, by simp [place, column], reads.wide, fun r c => ?_⟩
    rw [cells, cellAt_line, getElem?_dots, tag]
    simp
  | o =>
    have applied : run.apply x s = ⟨0, s.curLine ++ List.replicate run.count 'o', s.lines⟩ := by simp [Run.apply, tag]
    have place : cursor (runs ++ [run]) = ((cursor runs).1, (cursor runs).2 + run.count) := by
      simp [cursor_snoc, Run.advance, tag]
    rw [applied]
    refine ⟨rfl, by rw [place]; exact row, by simp [place, column], reads.wide, fun r c => ?_⟩
    rw [cells, cellAt_line, getElem?_live, column, tag, ← row, eq_comm (a := r)]
    tauto
  | endOfRow =>
    have applied : run.apply x s =
        ⟨0, [], s.lines ++ [pad x s.curLine] ++ List.replicate (run.count - 1) (List.replicate x '.')⟩ := by
      simp [Run.apply, tag]
    have place : cursor (runs ++ [run]) = ((cursor runs).1 + run.count, 0) := by simp [cursor_snoc, Run.advance, tag]
    rw [applied]
    refine ⟨rfl, ?_, by rw [place]; rfl, fun line member => ?_, fun r c => ?_⟩
    · rw [place]
      simp only [List.length_append, List.length_replicate, List.length_singleton]
      omega
    · dsimp only at member
      rw [List.mem_append, List.mem_append, List.mem_singleton] at member
      rcases member with (earlier | rfl) | blank
      · exact reads.wide line earlier
      · exact length_pad (by omega)
      · rw [List.eq_of_mem_replicate blank, List.length_replicate]
    · dsimp only
      rw [List.append_assoc, cellAt_dead, cellAt_line, pad, getElem?_dots, cells, tag]
      · simp
      · intro line member live
        rcases List.mem_append.mp member with blank | empty
        · rw [List.eq_of_mem_replicate blank] at live
          exact absurd (List.eq_of_mem_replicate live) (by decide)
        · rw [List.mem_singleton.mp empty] at live
          exact absurd live List.not_mem_nil

/-- The runs of a pattern, one after the other. -/
theorem foldl_runs (columns : ∀ before, before <+: runs → (cursor before).2 ≤ x) :
    Reads x runs ((runs.flatMap Run.text).foldl (rleStep x) ⟨0, [], []⟩) := by
  induction runs using List.reverseRecOn with
  | nil =>
    refine ⟨rfl, rfl, rfl, fun line member => absurd member List.not_mem_nil, fun r c => ?_⟩
    refine ⟨fun cell => ?_, fun live => absurd live not_live_nil⟩
    rcases cellAt_line.mp cell with none | ⟨_, none⟩ <;> simp [cellAt] at none
  | append_singleton runs run ih =>
    have reads := ih fun before front => columns before (front.trans (List.prefix_append runs [run]))
    rw [List.flatMap_append, List.foldl_append, List.flatMap_singleton, foldl_run reads.fresh]
    exact reads.run (columns runs (List.prefix_append runs [run])) run

end Loop

section Document
variable {x : Nat} {body rest : List Char}

/-- Newlines are not looked at. -/
theorem foldl_filter (x : Nat) (body : List Char) (s : Rle) :
    body.foldl (rleStep x) s = (body.filter (· != '\n')).foldl (rleStep x) s := by
  induction body generalizing s with
  | nil => rfl
  | cons c body ih =>
    by_cases newline : c = '\n'
    · subst newline
      exact ih s
    · rw [List.filter_cons_of_pos (by simpa using newline)]
      exact ih _

theorem rleLoop_append (unended : '!' ∉ body) (s : Rle) :
    rleLoop x s (body ++ '!' :: rest) =
      (body.foldl (rleStep x) s).lines ++ [pad x (body.foldl (rleStep x) s).curLine] := by
  induction body generalizing s with
  | nil => rfl
  | cons c body ih =>
    have other : c ≠ '!' := fun same => unended (same ▸ List.mem_cons_self)
    rw [List.cons_append, rleLoop, if_neg other, ih fun member => unended (List.mem_cons_of_mem c member)]
    rfl

theorem Document.body_open (doc : Document) : '!' ∉ doc.body := by
  intro member
  have kept : '!' ∈ doc.runs.flatMap Run.text := doc.laidOut ▸ List.mem_filter.mpr ⟨member, by decide⟩
  obtain ⟨run, _, inText⟩ := List.mem_flatMap.mp kept
  rcases List.mem_append.mp inText with digit | tag
  · exact absurd (run.decimal '!' digit) (by decide)
  · have same := List.mem_singleton.mp tag
    cases kind : run.tag <;> rw [kind] at same <;> exact absurd same (by decide)

/-- What `read_rle` returns: a row for each row that has been ended, and the row before the `!`. -/
theorem readRle_text (doc : Document) : ∃ s, Reads doc.width doc.runs s ∧
    readRle doc.text = .ok (s.lines ++ [pad doc.width s.curLine]) := by
  refine ⟨_, foldl_runs doc.columns, ?_⟩
  unfold readRle
  rw [readHeader_text, ← doc.laidOut, ← foldl_filter]
  exact congrArg Except.ok (rleLoop_append doc.body_open _)

/-- These strings have the width of the pattern, and show its live cells. -/
theorem readRle_rows (doc : Document) :
    ∃ lines, readRle doc.text = .ok lines ∧ lines.length = (cursor doc.runs).1 + 1 ∧
    (∀ line ∈ lines, line.length = doc.width) ∧ ∀ r c, cellAt lines r c = some 'o' ↔ Live doc.runs r c := by
  obtain ⟨s, reads, run⟩ := readRle_text doc
  refine ⟨_, run, ?_, fun line member => ?_, fun r c => ?_⟩
  · rw [List.length_append, reads.row, List.length_singleton]
  · rcases List.mem_append.mp member with earlier | final
    · exact reads.wide line earlier
    · rw [List.mem_singleton.mp final]
      exact length_pad (reads.column ▸ doc.columns doc.runs (List.prefix_refl _))
  · rw [← reads.cells, cellAt_line, cellAt_line, pad, getElem?_dots]

/-- The strings show the whole pattern if and only if the `!` stands in its last row: the counts of
the `$` add up to one less than the height. -/
theorem readRle_decoded_iff (doc : Document) :
    (∃ lines, readRle doc.text = .ok lines ∧ doc.Decoded lines) ↔ (cursor doc.runs).1 + 1 = doc.height := by
  obtain ⟨lines, run, length, wide, cells⟩ := readRle_rows doc
  rw [run]
  constructor
  · rintro ⟨lines, same, decoded⟩
    obtain rfl := Except.ok.inj same
    rw [← length, decoded.height]
  · intro last
    exact ⟨lines, rfl, length.trans last, wide, fun r c _ _ => cells r c⟩

/-- A pattern of one live cell in the first of two rows. -/
def oneOfTwo : Document where
  comments := []
  width := 1
  height := 2
  rule := []
  runs := [⟨[], .o, fun _ member => absurd member List.not_mem_nil, Or.inl rfl⟩]
  body := ['o']
  trailer := []
  commentLine := by decide
  wide := by decide
  high := by decide
  ruleLine := by decide
  ruleStart := nofun
  laidOut := rfl
  columns before front := by
    rcases List.prefix_cons_iff.mp front with rfl | ⟨more, rfl, rest⟩
    · decide
    · rw [List.prefix_nil.mp rest]
      decide
  rows := by decide

/-- Its dead row has been left out, and is not given back. -/
theorem oneOfTwo_short : ¬ ∃ lines, readRle oneOfTwo.text = .ok lines ∧ oneOfTwo.Decoded lines := by
  rintro ⟨lines, run, decoded⟩
  have one : readRle oneOfTwo.text = .ok [['o']] := rfl
  rw [one] at run
  obtain rfl := Except.ok.inj run
  exact absurd decoded.height (by decide)

end Document

end OsLabs.Life
