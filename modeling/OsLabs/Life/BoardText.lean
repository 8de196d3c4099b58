import Mathlib.Data.List.GetD
import OsLabs.Lib.CheckedInt
import OsLabs.Lib.TextInput
import OsLabs.Life.Board

namespace OsLabs.Life
open TextInput

/-- The fields of a `LifeBoard` object: `width_`, `height_` and the vector `cells_`. -/
structure BoardFields where
  width : Int
  height : Int
  cells : List LifeCell
  deriving DecidableEq, Repr

/-- What `operator<<` writes for a cell. -/
def glyph (cell : LifeCell) : Char := if cell ≠ 0 then '*' else '.'

def rowText (width : Nat) (cells : List LifeCell) (y : Nat) : List Char :=
  (List.range width).map fun x => glyph (cells.getD (y * width + x) 0)

/-- `out << state` -/
def writeBoard (state : BoardFields) : List Char :=
  showInt state.width ++ ' ' :: (showInt state.height ++ '\n' ::
    (List.range state.height.toNat).flatMap fun y => rowText state.width.toNat state.cells y ++ ['\n'])

/-- What is stored for a character; the value `EOF` becomes a `char` that is none of the two. -/
def cellOf (c : Option Char) : LifeCell := if c = some ' ' ∨ c = some '.' then 0 else 1

/-- Row `y` after its first cells have been read. -/
def readRow (width y : Nat) : Nat → IStream × List LifeCell → IStream × List LifeCell
  | 0, s => s
  | x + 1, s =>
    let (stream, cells) := readRow width y x s
    let (c, stream) := get stream
    (stream, cells.set (y * width + x) (cellOf c))

/-- The stream and the cells after the first rows have been read. -/
def readRows (width : Nat) : Nat → IStream × List LifeCell → IStream × List LifeCell
  | 0, s => s
  | y + 1, s =>
    let (stream, cells) := readRow width y width (readRows width y s)
    (ignore '\n' stream, cells)

/-- `cells.resize(size)` -/
def resize (cells : List LifeCell) (size : Nat) : List LifeCell :=
  cells.take size ++ List.replicate (size - cells.length) 0

/-- Why `operator>>` does not return: the product of the two numbers is no `int`, or `resize` throws
because it is negative. -/
inductive ReadError
  | overflow | lengthError
  deriving DecidableEq, Repr

/-- `in >> state`; the result is the stream and the object behind the call. -/
def readBoard (stream : IStream) (state : BoardFields) : Except ReadError (IStream × BoardFields) :=
  let (width, stream) := readInt state.width stream
  let (height, stream) := readInt state.height stream
  let stream := ignore '\n' stream
  match CheckedInt.mul width height with
  | none => .error .overflow
  | some size =>
    if size < 0 then .error .lengthError
    else
      let (stream, cells) := readRows width.toNat height.toNat (stream, resize state.cells size.toNat)
      .ok (stream, ⟨width, height, cells⟩)

/-- An object that holds a board of zeros and ones. -/
structure BoardFields.Valid (state : BoardFields) : Prop where
  wide : 0 ≤ state.width ∧ state.width < 2 ^ 31
  high : 0 ≤ state.height ∧ state.height < 2 ^ 31
  fits : state.width * state.height < 2 ^ 31
  full : state.cells.length = state.width.toNat * state.height.toNat
  binary : ∀ cell ∈ state.cells, cell = 0 ∨ cell = 1

theorem valid_natCast {w h : Nat} {cells : List LifeCell} (wide : w < 2 ^ 31) (high : h < 2 ^ 31)
    (fits : w * h < 2 ^ 31)
    (full : cells.length = w * h) (binary : ∀ cell ∈ cells, cell = 0 ∨ cell = 1) :
      BoardFields.Valid ⟨w, h, cells⟩ := by
  refine ⟨⟨Int.natCast_nonneg w, ?_⟩, ⟨Int.natCast_nonneg h, ?_⟩, ?_, by simpa using full, binary⟩
  · dsimp only
    exact_mod_cast wide
  · dsimp only
    exact_mod_cast high
  · dsimp only
    exact_mod_cast fits

/-- The object of a board. -/
def LifeBoard.fields {width height : Nat} (board : LifeBoard width height) : BoardFields :=
  ⟨width, height, List.ofFn fun k : Fin (width * height) => board k⟩

section Rows
variable {width y : Nat} {row rest : List Char} {lines : List (List Char)} {done old : List LifeCell}

/-- After `x` cells of the row the rest of the row is still to be read, and what has been read stands
in front of the old cells. -/
theorem readRow_line (wide : row.length = width) (above : done.length = y * width) (room : width ≤ old.length)
    (x : Nat) (bound : x ≤ width) :
    readRow width y x (.ofText (row ++ rest), done ++ old) =
      (.ofText (row.drop x ++ rest), done ++ ((row.take x).map (fun c => cellOf (some c)) ++ old.drop x)) := by
  induction x with
  | zero => rfl
  | succ x ih =>
    have more : x < row.length := by omega
    have held : x < old.length := by omega
    have taken : ((row.take x).map fun c => cellOf (some c)).length = x := by
      rw [List.length_map, List.length_take_of_le more.le]
    have store : (done ++ ((row.take x).map (fun c => cellOf (some c)) ++ old.drop x)).set (y * width + x)
        (cellOf (some row[x])) =
        done ++ ((row.take (x + 1)).map (fun c => cellOf (some c)) ++ old.drop (x + 1)) := by
      rw [List.set_append_right _ _ (by omega), above, Nat.add_sub_cancel_left,
        List.set_append_right _ _ taken.le, taken,
        Nat.sub_self, List.drop_eq_getElem_cons held, List.set_cons_zero, List.take_add_one,
          List.getElem?_eq_getElem more,
        Option.toList_some, List.map_append, List.map_singleton, List.append_assoc, List.singleton_append]
    unfold readRow
    simp only [ih (by omega), List.drop_eq_getElem_cons more, List.cons_append, get_cons, store]

theorem length_flatten (wide : ∀ line ∈ lines, line.length = width) :
    lines.flatten.length = lines.length * width := by
  rw [List.length_flatten, List.map_congr_left wide, List.map_const', List.sum_replicate_nat]

/-- After `y` lines of the right width the stream is at the beginning of the next one. -/
theorem readRows_lines (wide : ∀ line ∈ lines, line.length = width) (same : old.length = lines.length * width)
    (y : Nat) (bound : y ≤ lines.length) :
    readRows width y (.ofText (lines.flatMap (fun line => line ++ ['\n']) ++ rest), old) =
      (.ofText ((lines.drop y).flatMap (fun line => line ++ ['\n']) ++ rest),
        (lines.take y).flatten.map (fun c => cellOf (some c)) ++ old.drop (y * width)) := by
  induction y with
  | zero => simp [readRows]
  | succ y ih =>
    have more : y < lines.length := bound
    have full : (lines[y]).length = width := wide _ (List.getElem_mem more)
    have above : ((lines.take y).flatten.map fun c => cellOf (some c)).length = y * width := by
      rw [List.length_map, length_flatten fun line member => wide line (List.mem_of_mem_take member),
        List.length_take_of_le more.le]
    have room : width ≤ (old.drop (y * width)).length := by
      rw [List.length_drop, same]
      exact Nat.le_sub_of_add_le (by rw [Nat.add_comm, ← Nat.succ_mul]; exact Nat.mul_le_mul_right width bound)
    unfold readRows
    simp only [ih more.le, List.drop_eq_getElem_cons more, List.flatMap_cons, List.append_assoc,
      readRow_line full above room width le_rfl, List.drop_of_length_le full.le, List.take_of_length_le full.le,
      List.nil_append, List.cons_append, ignore_cons, List.drop_drop, Nat.succ_mul]
    rw [List.take_add_one, List.getElem?_eq_getElem more, Option.toList_some, List.flatten_append, List.map_append,
      List.flatten_singleton, List.append_assoc]

end Rows

theorem length_resize (cells : List LifeCell) (size : Nat) : (resize cells size).length = size := by
  unfold resize
  rw [List.length_append, List.length_take, List.length_replicate]
  omega

/-- The numbers of columns and rows and lines of that many characters are read as a board: whatever the
object held before, there is a cell for each character, and the stream is behind the last line. -/
theorem readBoard_lines {w h : Nat} {lines : List (List Char)} (wide : ∀ line ∈ lines, line.length = w)
    (high : lines.length = h) (wideInt : w < 2 ^ 31) (highInt : h < 2 ^ 31) (fits : w * h < 2 ^ 31)
    (target : BoardFields)
    (rest : List Char) :
    readBoard (.ofText (showInt w ++ ' ' ::
      (showInt h ++ '\n' :: (lines.flatMap (fun line => line ++ ['\n']) ++ rest))))
      target = .ok (.ofText rest, ⟨w, h, lines.flatten.map fun c => cellOf (some c)⟩) := by
  have nonneg : (0 : Int) ≤ w * h := Int.mul_nonneg (Int.natCast_nonneg w) (Int.natCast_nonneg h)
  have product : CheckedInt.mul w h = some (w * h : Int) := CheckedInt.mul_eq ⟨by omega, by exact_mod_cast fits⟩
  have size : ((w : Int) * h).toNat = w * h := by rw [← Int.natCast_mul, Int.toNat_natCast]
  have first : ∀ more, readInt target.width (.ofText (showInt w ++ ' ' :: more)) =
      ((w : Int), .ofText (' ' :: more)) :=
    fun more => @readInt_showInt _ _ target.width [] _ (by simp) wideInt (by decide)
  have second : ∀ more,
      readInt target.height (.ofText (' ' :: (showInt h ++ '\n' :: more))) = ((h : Int), .ofText ('\n' :: more)) :=
    fun more => @readInt_showInt _ _ target.height [' '] _ (by simp [isSpace]) highInt (by decide)
  have room : (resize target.cells (w * h)).length = lines.length * w := by
    rw [length_resize, high, Nat.mul_comm]
  have rows := @readRows_lines w rest lines (resize target.cells (w * h)) wide room h high.ge
  have nothing : (resize target.cells (w * h)).drop (h * w) = [] :=
    List.drop_of_length_le (by rw [length_resize, Nat.mul_comm])
  rw [List.drop_of_length_le high.le, List.take_of_length_le high.le, nothing, List.flatMap_nil, List.nil_append,
    List.append_nil] at rows
  unfold readBoard
  simp only [first, second, ignore_cons, product, if_neg nonneg.not_gt, size, Int.toNat_natCast, rows]

section Written
variable {width height : Nat} {cells : List LifeCell}

theorem cellOf_glyph {cell : LifeCell} (binary : cell = 0 ∨ cell = 1) : cellOf (some (glyph cell)) = cell := by
  rcases binary with rfl | rfl <;> decide

theorem length_rowText (y : Nat) : (rowText width cells y).length = width := by
  rw [rowText, List.length_map, List.length_range]

/-- A row of the text shows a row of the cells. -/
theorem cells_rowText (binary : ∀ cell ∈ cells, cell = 0 ∨ cell = 1) {y : Nat}
    (row : y * width + width ≤ cells.length) :
    (rowText width cells y).map (fun c => cellOf (some c)) = (cells.drop (y * width)).take width := by
  have length : ((cells.drop (y * width)).take width).length = width := by
    rw [List.length_take_of_le]
    rw [List.length_drop]
    omega
  refine List.ext_getElem (by rw [List.length_map, length_rowText, length]) fun x _ bound => ?_
  have inside : y * width + x < cells.length := by omega
  simp only [rowText, List.getElem_map, List.getElem_range, List.getElem_take, List.getElem_drop]
  rw [List.getD_eq_getElem cells 0 inside, cellOf_glyph (binary _ (List.getElem_mem inside))]

/-- The first rows of the text show the cells in front of the next row. -/
theorem cells_rows (binary : ∀ cell ∈ cells, cell = 0 ∨ cell = 1) (y : Nat) (bound : y * width ≤ cells.length) :
    (((List.range y).map (rowText width cells)).flatten.map fun c => cellOf (some c)) = cells.take (y * width) := by
  induction y with
  | zero => rw [Nat.zero_mul]; rfl
  | succ y ih =>
    rw [Nat.succ_mul] at bound ⊢
    rw [List.range_succ, List.map_append, List.flatten_append, List.map_append, ih (by omega), List.map_singleton,
      List.flatten_singleton, cells_rowText binary bound, List.take_add]

end Written

/-- Reading what has been written gives the board back and leaves what stood behind it, whatever
the object held before. -/
theorem readBoard_writeBoard {state : BoardFields} (valid : state.Valid) (target : BoardFields) (rest : List Char) :
    readBoard (.ofText (writeBoard state ++ rest)) target = .ok (.ofText rest, state) := by
  obtain ⟨width, height, cells⟩ := state
  obtain ⟨⟨wide, wideInt⟩, ⟨high, highInt⟩, fits, full, binary⟩ := valid
  dsimp only at *
  obtain ⟨w, rfl⟩ := Int.eq_ofNat_of_zero_le wide
  obtain ⟨h, rfl⟩ := Int.eq_ofNat_of_zero_le high
  rw [Int.toNat_natCast, Int.toNat_natCast] at full
  have widths : ∀ line ∈ (List.range h).map (rowText w cells), line.length = w := by
    intro line member
    obtain ⟨y, _, rfl⟩ := List.mem_map.mp member
    exact length_rowText y
  have shown := cells_rows binary h (full.symm ▸ (Nat.mul_comm h w).le)
  rw [List.take_of_length_le (by rw [full, Nat.mul_comm])] at shown
  have read := readBoard_lines widths (by rw [List.length_map, List.length_range]) (by exact_mod_cast wideInt)
    (by exact_mod_cast highInt) (by exact_mod_cast fits) target rest
  rw [shown, List.flatMap_map] at read
  unfold writeBoard
  simp only [List.append_assoc, List.cons_append, Int.toNat_natCast]
  exact read

/-- A board of two rows is read into an object that held a board of one cell. -/
theorem readBoard_writeBoard_two_rows :
    readBoard (.ofText (writeBoard ⟨3, 2, [0, 1, 0, 1, 1, 0]⟩ ++ ['1'])) ⟨1, 1, [1]⟩ =
      .ok (.ofText ['1'], ⟨3, 2, [0, 1, 0, 1, 1, 0]⟩) :=
  readBoard_writeBoard ⟨by decide, by decide, by decide, rfl, by simp⟩ ⟨1, 1, [1]⟩ ['1']

section Objects
variable {width height : Nat} (board : LifeBoard width height)

theorem LifeBoard.fields_valid (wide : width < 2 ^ 31) (high : height < 2 ^ 31) (fits : width * height < 2 ^ 31)
    (binary : ∀ k, board k = 0 ∨ board k = 1) : board.fields.Valid := by
  refine valid_natCast wide high fits List.length_ofFn fun cell member => ?_
  obtain ⟨k, rfl⟩ := List.mem_ofFn.mp member
  exact binary k

/-- The text shows the cells that the simulators see. -/
theorem LifeBoard.fields_at (x y : Nat) : board.fields.cells.getD (y * width + x) 0 = board.at x y := by
  unfold LifeBoard.at LifeBoard.fields
  dsimp only
  by_cases inside : y * width + x < width * height
  · rw [dif_pos inside, List.getD_eq_getElem _ 0 (by rwa [List.length_ofFn]), List.getElem_ofFn]
  · rw [dif_neg inside, List.getD_eq_default _ 0 (by rw [List.length_ofFn]; exact not_lt.mp inside)]

end Objects

end OsLabs.Life
