import Mathlib.Data.List.Basic

namespace OsLabs.Shell

abbrev Word := List Char

/-- The characters that separate words: space, tab and vertical tab. -/
def isWhite (c : Char) : Bool := c = ' ' || c = '\t' || c = '\x0b'

/-- The loop over the characters of the line; the last character ends the word it belongs to. -/
def wordLoop : List Char → Word → List Word → List Word
  | [], _, strings => strings
  | c :: rest, curWord, strings =>
    if isWhite c then wordLoop rest [] (if curWord ≠ [] then strings ++ [curWord] else strings)
    else if rest = [] then wordLoop rest (curWord ++ [c]) (strings ++ [curWord ++ [c]])
    else wordLoop rest (curWord ++ [c]) strings

/-- The vector `strings` of `parse_and_run_command`. -/
def strings (command : List Char) : List Word := wordLoop command [] []

/-- The words of a line: what stands between the separators, as far as it is not empty. -/
def tokens (command : List Char) : List Word := (command.splitOnP isWhite).filter (· ≠ [])

theorem wordLoop_eq (cs : List Char) (curWord : Word) (found : List Word) (last : cs = [] → curWord = []) :
    wordLoop cs curWord found =
      found ++ ((cs.splitOnP isWhite).modifyHead (curWord ++ ·)).filter (· ≠ []) := by
  induction cs generalizing curWord found with
  | nil => simp [wordLoop, last rfl]
  | cons c rest ih =>
    by_cases white : isWhite c = true
    · rw [wordLoop, if_pos white, ih _ _ fun _ => rfl]
      have whole : ∀ parts : List Word, parts.modifyHead ([] ++ ·) = parts := by
        intro parts
        cases parts <;> rfl
      simp only [List.splitOnP_cons_eq_if_modifyHead, if_pos white, whole, List.modifyHead_cons, List.append_nil,
        List.filter_cons]
      by_cases empty : curWord = []
      · simp [empty]
      · simp [empty]
    · rw [wordLoop, if_neg white]
      have head : ∀ parts : List Word, (parts.modifyHead (List.cons c)).modifyHead (curWord ++ ·) =
          parts.modifyHead (curWord ++ [c] ++ ·) := by
        intro parts
        cases parts with
        | nil => rfl
        | cons part parts => simp
      simp only [List.splitOnP_cons_eq_if_modifyHead, if_neg white, head]
      by_cases final : rest = []
      · subst final
        simp [wordLoop]
      · rw [if_neg final, ih _ _ fun none => absurd none final]

theorem strings_eq_tokens (command : List Char) : strings command = tokens command := by
  rw [strings, wordLoop_eq _ _ _ fun _ => rfl, tokens]
  cases parts : command.splitOnP isWhite with
  | nil => rfl
  | cons part parts => simp

theorem tokens_ne_nil {command : List Char} {word : Word} (found : word ∈ tokens command) : word ≠ [] := by
  simpa using (List.mem_filter.mp found).2

end OsLabs.Shell
