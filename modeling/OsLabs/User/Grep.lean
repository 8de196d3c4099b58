import Mathlib.Computability.Language

namespace OsLabs.Grep

/-- The bytes of a C string before its `'\0'`. -/
abbrev Text := List UInt8

abbrev star : UInt8 := 42
abbrev dot : UInt8 := 46
abbrev dollar : UInt8 := 36
abbrev caret : UInt8 := 94
abbrev newline : UInt8 := 10

section Match

/-- `matchstar`, with `matchhere(re, ·)` as its argument. -/
def matchstar (here : Text → Bool) (c : UInt8) : Text → Bool
  | [] => here []
  | t :: text => here (t :: text) || (t == c || c == dot) && matchstar here c text

/-- The last test of `matchhere`: one character, then the rest of the pattern. -/
def matchone (here : Text → Bool) (c : UInt8) : Text → Bool
  | [] => false
  | t :: text => (c == dot || c == t) && here text

def matchhere : Text → Text → Bool
  | [], _ => true
  | [c], text => if c = dollar then text.isEmpty else matchone (fun _ => true) c text
  | c :: d :: re, text => if d = star then matchstar (matchhere re) c text else matchone (matchhere (d :: re)) c text

/-- The loop of `match`. -/
def matchFrom (re : Text) : Text → Bool
  | [] => matchhere re []
  | t :: text => matchhere re (t :: text) || matchFrom re text

/-- `match`. -/
def matchRe (re text : Text) : Bool :=
  match re with
  | [] => matchFrom [] text
  | c :: re => if c = caret then matchhere re text else matchFrom (c :: re) text

end Match

section Meaning
open Computability

/-- The texts of one character of a pattern. -/
def atom (c : UInt8) : Language UInt8 := {text | ∃ x, (c = dot ∨ c = x) ∧ text = [x]}

/-- The texts of a pattern without its anchors. -/
def body : Text → Language UInt8
  | [] => 1
  | [c] => if c = dollar then 1 else atom c
  | c :: d :: re => if d = star then (atom c)∗ * body re else atom c * body (d :: re)

/-- The pattern is anchored at the end of the text. -/
def anchored : Text → Bool
  | [] => false
  | [c] => c = dollar
  | _ :: d :: re => if d = star then anchored re else anchored (d :: re)

theorem mem_kstar_atom {c : UInt8} {text : Text} : text ∈ (atom c)∗ ↔ ∀ x ∈ text, c = dot ∨ c = x := by
  rw [Language.mem_kstar]
  constructor
  · rintro ⟨pieces, rfl, each⟩ x inside
    obtain ⟨piece, member, here⟩ := List.mem_flatten.mp inside
    obtain ⟨y, fits, rfl⟩ := each piece member
    rwa [List.mem_singleton.mp here]
  · intro fits
    refine ⟨text.map fun x => [x], (List.flatMap_singleton' text).symm, fun piece member => ?_⟩
    obtain ⟨x, inside, rfl⟩ := List.mem_map.mp member
    exact ⟨x, fits x inside, rfl⟩

theorem matchstar_iff {here : Text → Bool} {c : UInt8} {text : Text} :
    matchstar here c text = true ↔ ∃ u v, text = u ++ v ∧ u ∈ (atom c)∗ ∧ here v = true := by
  simp only [mem_kstar_atom]
  induction text with
  | nil =>
    constructor
    · exact fun found => ⟨[], [], rfl, nofun, found⟩
    · rintro ⟨u, v, split, -, found⟩
      obtain ⟨-, rfl⟩ := List.append_eq_nil_iff.mp split.symm
      exact found
  | cons t text ih =>
    simp only [matchstar, Bool.or_eq_true, Bool.and_eq_true, beq_iff_eq, ih]
    constructor
    · rintro (found | ⟨fits, u, v, rfl, all, found⟩)
      · exact ⟨[], t :: text, rfl, nofun, found⟩
      · refine ⟨t :: u, v, rfl, fun x inside => ?_, found⟩
        rcases List.mem_cons.mp inside with rfl | inside
        · exact fits.symm.imp id Eq.symm
        · exact all x inside
    · rintro ⟨u, v, split, all, found⟩
      cases u with
      | nil =>
        rw [List.nil_append] at split
        exact .inl (split ▸ found)
      | cons x u =>
        obtain ⟨rfl, rfl⟩ := List.cons.inj split
        exact .inr ⟨(all t List.mem_cons_self).symm.imp Eq.symm id, u, v, rfl,
          fun x inside => all x (List.mem_cons_of_mem t inside), found⟩

theorem matchone_iff {here : Text → Bool} {c : UInt8} {text : Text} :
    matchone here c text = true ↔ ∃ u v, text = u ++ v ∧ u ∈ atom c ∧ here v = true := by
  cases text with
  | nil =>
    refine ⟨nofun, ?_⟩
    rintro ⟨u, v, split, ⟨x, -, rfl⟩, -⟩
    cases split
  | cons t text =>
    simp only [matchone, Bool.and_eq_true, Bool.or_eq_true, beq_iff_eq]
    constructor
    · exact fun ⟨fits, found⟩ => ⟨[t], text, rfl, ⟨t, fits, rfl⟩, found⟩
    · rintro ⟨u, v, split, ⟨x, fits, rfl⟩, found⟩
      obtain ⟨rfl, rfl⟩ := List.cons.inj split
      exact ⟨fits, found⟩

/-- Matching one piece of the pattern and then the rest of it. -/
theorem product_iff {first rest : Language UInt8} {last : Bool} {text : Text} :
    (∃ u v, text = u ++ v ∧ u ∈ first ∧ ∃ w x, v = w ++ x ∧ w ∈ rest ∧ (last = true → x = [])) ↔
      ∃ u v, text = u ++ v ∧ u ∈ first * rest ∧ (last = true → v = []) := by
  constructor
  · rintro ⟨u, _, rfl, inFirst, w, x, rfl, inRest, done⟩
    exact ⟨u ++ w, x, (List.append_assoc ..).symm, Language.mem_mul.mpr ⟨u, inFirst, w, inRest, rfl⟩, done⟩
  · rintro ⟨_, x, rfl, inBoth, done⟩
    obtain ⟨u, inFirst, w, inRest, rfl⟩ := Language.mem_mul.mp inBoth
    exact ⟨u, w ++ x, List.append_assoc .., inFirst, w, x, rfl, inRest, done⟩

/-- `matchhere` finds whether the text starts with a text of the pattern, or is one when the pattern ends in `$`. -/
theorem matchhere_iff (re text : Text) : matchhere re text = true ↔
    ∃ u v, text = u ++ v ∧ u ∈ body re ∧ (anchored re = true → v = []) := by
  induction re using body.induct generalizing text with
  | case1 => exact ⟨fun _ => ⟨[], text, rfl, rfl, nofun⟩, fun _ => rfl⟩
  | case2 =>
    simp only [matchhere, body, anchored, if_true, decide_true, List.isEmpty_iff, Language.mem_one]
    constructor
    · rintro rfl
      exact ⟨[], [], rfl, rfl, fun _ => rfl⟩
    · rintro ⟨u, v, rfl, rfl, done⟩
      rw [done trivial]
      rfl
  | case3 c other =>
    simp only [matchhere, body, anchored, other, if_false, decide_false, matchone_iff]
    exact ⟨fun ⟨u, v, split, one, _⟩ => ⟨u, v, split, one, nofun⟩, fun ⟨u, v, split, one, _⟩ => ⟨u, v, split, one, trivial⟩⟩
  | case4 c re ih =>
    simp only [matchhere, body, anchored, if_true, matchstar_iff, ih, product_iff]
  | case5 c d re other ih =>
    simp only [matchhere, body, anchored, other, if_false, matchone_iff, ih, product_iff]

/-- The texts that `match` is to find. -/
def Matched (re text : Text) : Prop :=
  match re with
  | [] => True
  | c :: re =>
    if c = caret then ∃ u v, text = u ++ v ∧ u ∈ body re ∧ (anchored re = true → v = [])
    else ∃ w u v, text = w ++ u ++ v ∧ u ∈ body (c :: re) ∧ (anchored (c :: re) = true → v = [])

theorem matchFrom_iff (re text : Text) : matchFrom re text = true ↔ ∃ w v, text = w ++ v ∧ matchhere re v = true := by
  induction text with
  | nil =>
    refine ⟨fun found => ⟨[], [], rfl, found⟩, ?_⟩
    rintro ⟨w, v, split, found⟩
    obtain ⟨-, rfl⟩ := List.append_eq_nil_iff.mp split.symm
    exact found
  | cons t text ih =>
    simp only [matchFrom, Bool.or_eq_true, ih]
    constructor
    · rintro (found | ⟨w, v, rfl, found⟩)
      · exact ⟨[], t :: text, rfl, found⟩
      · exact ⟨t :: w, v, rfl, found⟩
    · rintro ⟨w, v, split, found⟩
      cases w with
      | nil => exact .inl (split ▸ found)
      | cons x w =>
        obtain ⟨rfl, rfl⟩ := List.cons.inj split
        exact .inr ⟨w, v, rfl, found⟩

theorem matchRe_iff_matched (re text : Text) : matchRe re text = true ↔ Matched re text := by
  cases re with
  | nil =>
    refine iff_of_true ?_ trivial
    show matchFrom [] text = true
    cases text <;> rfl
  | cons c re =>
    by_cases start : c = caret
    · simp only [matchRe, Matched, start, if_true, matchhere_iff]
    · simp only [matchRe, Matched, start, if_false, matchFrom_iff, matchhere_iff]
      constructor
      · rintro ⟨w, _, rfl, u, v, rfl, found, done⟩
        exact ⟨w, u, v, (List.append_assoc ..).symm, found, done⟩
      · rintro ⟨w, u, v, rfl, found, done⟩
        exact ⟨w, u ++ v, List.append_assoc .., u, v, rfl, found, done⟩

end Meaning

end OsLabs.Grep
