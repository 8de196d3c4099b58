import Mathlib.Order.Basic
import Mathlib.Algebra.Order.Group.Nat
import OsLabs.Shell.Words

namespace OsLabs.Shell

/-- The characters `i..j-1` of the line are a run of characters other than separators that cannot be
made longer on either side. -/
structure MaximalRun (text : List Char) (i j : Nat) : Prop where
  nonempty : i < j
  within : j ≤ text.length
  plain : ∀ k c, i ≤ k → k < j → text[k]? = some c → isWhite c = false
  before : ∀ c, 0 < i → text[i - 1]? = some c → isWhite c = true
  after : ∀ c, text[j]? = some c → isWhite c = true

def slice (text : List Char) (r : Nat × Nat) : Word := (text.drop r.1).take (r.2 - r.1)

/-- What the loop knows at character `p`, where the current word has begun at `s`: `runs` are the
maximal runs before `s`. -/
structure Reading (text : List Char) (s p : Nat) (runs : List (Nat × Nat)) : Prop where
  order : s ≤ p
  within : p ≤ text.length
  plain : ∀ k c, s ≤ k → k < p → text[k]? = some c → isWhite c = false
  before : ∀ c, 0 < s → text[s - 1]? = some c → isWhite c = true
  listed : ∀ i j, (i, j) ∈ runs ↔ MaximalRun text i j ∧ i < s
  sorted : runs.Pairwise fun r r' => r.2 < r'.1
  closed : ∀ r ∈ runs, r.2 < s

section Runs
variable {text : List Char} {s p : Nat} {runs : List (Nat × Nat)}

theorem getElem?_of_lt {k : Nat} (below : k < text.length) : ∃ c, text[k]? = some c :=
  ⟨_, List.getElem?_eq_getElem below⟩

/-- A word that cannot go on is the next maximal run. -/
theorem Reading.close (reading : Reading text s p runs) (started : s < p)
    (ended : ∀ c, text[p]? = some c → isWhite c = true) :
    (∀ i j, (i, j) ∈ runs ++ [(s, p)] ↔ MaximalRun text i j ∧ i ≤ p) ∧
      (runs ++ [(s, p)]).Pairwise fun r r' => r.2 < r'.1 := by
  have this : MaximalRun text s p := ⟨started, reading.within, reading.plain, reading.before, ended⟩
  constructor
  · intro i j
    rw [List.mem_append, List.mem_singleton, Prod.mk.injEq, reading.listed]
    constructor
    · rintro (⟨run, early⟩ | ⟨rfl, rfl⟩)
      · exact ⟨run, by omega⟩
      · exact ⟨this, started.le⟩
    · rintro ⟨run, early⟩
      rcases Nat.lt_or_ge i s with old | new
      · exact .inl ⟨run, old⟩
      have within := reading.within
      have first : i = s := by
        by_contra other
        obtain ⟨c, found⟩ := getElem?_of_lt (show i - 1 < text.length by omega)
        have white := run.before c (by omega) found
        rw [reading.plain (i - 1) c (by omega) (by omega) found] at white
        cases white
      subst first
      have noEarlier : ¬ j < p := by
        intro early
        obtain ⟨c, found⟩ := getElem?_of_lt (show j < text.length by omega)
        have white := run.after c found
        rw [reading.plain j c run.nonempty.le early found] at white
        cases white
      have noLater : ¬ p < j := by
        intro late
        obtain ⟨c, found⟩ := getElem?_of_lt (show p < text.length from lt_of_lt_of_le late run.within)
        have white := ended c found
        rw [run.plain p c reading.order late found] at white
        cases white
      exact .inr ⟨rfl, by omega⟩
  · refine List.pairwise_append.mpr ⟨reading.sorted, List.pairwise_singleton _ _, fun r member r' last => ?_⟩
    rw [List.mem_singleton.mp last]
    exact reading.closed r member

/-- After a separator the next word may begin. -/
theorem Reading.white (reading : Reading text s p runs) {c : Char} (found : text[p]? = some c)
    (white : isWhite c = true) :
    Reading text (p + 1) (p + 1) (if s < p then runs ++ [(s, p)] else runs) := by
  have within := (List.getElem?_eq_some_iff.mp found).1
  have order := reading.order
  have before : ∀ d, 0 < p + 1 → text[p + 1 - 1]? = some d → isWhite d = true := by
    intro d _ same
    rw [Nat.add_sub_cancel, found] at same
    rwa [← Option.some.inj same]
  split
  · rename_i started
    obtain ⟨listed, sorted⟩ := reading.close started fun d same => by rwa [← Option.some.inj (found.symm.trans same)]
    refine ⟨le_rfl, within, fun k d late early => by omega, before, fun i j => ?_, sorted, fun r member => ?_⟩
    · rw [listed, Nat.lt_succ_iff]
    · rcases List.mem_append.mp member with old | last
      · have := reading.closed r old
        omega
      · rw [List.mem_singleton.mp last]
        exact Nat.lt_succ_self p
  · rename_i none
    refine ⟨le_rfl, within, fun k d late early => by omega, before, fun i j => ?_, reading.sorted, fun r member => ?_⟩
    · rw [reading.listed]
      refine and_congr_right fun run => ⟨fun early => by omega, fun early => ?_⟩
      by_contra late
      have here : i = p := by omega
      subst here
      rw [run.plain i c le_rfl run.nonempty found] at white
      cases white
    · have := reading.closed r member
      omega

theorem Reading.push (reading : Reading text s p runs) {c : Char} (found : text[p]? = some c)
    (plain : ¬ isWhite c = true) :
    Reading text s (p + 1) runs := by
  have within := (List.getElem?_eq_some_iff.mp found).1
  refine { reading with order := Nat.le_succ_of_le reading.order, within := within, plain := fun k d late early same => ?_ }
  rcases Nat.lt_succ_iff_lt_or_eq.mp early with old | rfl
  · exact reading.plain k d late old same
  · rw [← Option.some.inj (found.symm.trans same)]
    exact Bool.not_eq_true _ ▸ plain

theorem slice_push (order : s ≤ p) {c : Char} (found : text[p]? = some c) :
    slice text (s, p + 1) = slice text (s, p) ++ [c] := by
  obtain ⟨within, rfl⟩ := List.getElem?_eq_some_iff.mp found
  unfold slice
  rw [Nat.succ_sub order, List.take_add_one, List.getElem?_drop, Nat.add_sub_cancel' order, found]
  rfl

theorem slice_eq_nil (order : s ≤ p) (within : p ≤ text.length) : slice text (s, p) = [] ↔ ¬ s < p := by
  rw [← List.length_eq_zero_iff, slice, List.length_take, List.length_drop]
  omega

/-- The loop over the characters finds the maximal runs. -/
theorem wordLoop_runs (cs : List Char) :
    ∀ (s p : Nat) (runs : List (Nat × Nat)), cs = text.drop p → Reading text s p runs →
    (cs = [] → s = p) → ∃ all : List (Nat × Nat), wordLoop cs (slice text (s, p)) (runs.map (slice text)) =
      all.map (slice text) ∧
      (all.Pairwise fun r r' => r.2 < r'.1) ∧ ∀ i j, (i, j) ∈ all ↔ MaximalRun text i j := by
  induction cs with
  | nil =>
    intro s p runs rest reading last
    refine ⟨runs, rfl, reading.sorted, fun i j => ?_⟩
    rw [reading.listed, last rfl]
    have length : text.length ≤ p := List.drop_eq_nil_iff.mp rest.symm
    exact ⟨fun run => run.1, fun run => ⟨run, lt_of_lt_of_le run.nonempty (run.within.trans length)⟩⟩
  | cons c rest ih =>
    intro s p runs cut reading _
    have found : text[p]? = some c := by
      rw [← List.head?_drop, ← cut, List.head?_cons]
    have next : rest = text.drop (p + 1) := by
      rw [← List.tail_drop, ← cut, List.tail_cons]
    have order := reading.order
    by_cases white : isWhite c = true
    · obtain ⟨all, value, sorted, listed⟩ := ih (p + 1) (p + 1) _ next (reading.white found white) fun _ => rfl
      refine ⟨all, ?_, sorted, listed⟩
      rw [wordLoop, if_pos white, ← value]
      have fresh : slice text (p + 1, p + 1) = [] := by simp [slice]
      rw [fresh]
      by_cases started : s < p
      · rw [if_pos ((slice_eq_nil order reading.within).not.mpr (not_not.mpr started)), if_pos started,
          List.map_append,
          List.map_singleton]
      · rw [if_neg (not_not.mpr ((slice_eq_nil order reading.within).mpr started)), if_neg started]
    · rw [wordLoop, if_neg white, ← slice_push order found]
      by_cases final : rest = []
      · rw [if_pos final, final, wordLoop]
        have length : text.length ≤ p + 1 := List.drop_eq_nil_iff.mp (next.symm.trans final)
        have more := reading.push found white
        obtain ⟨listed, sorted⟩ := more.close (Nat.lt_succ_of_le order) fun d same => by
          rw [List.getElem?_eq_none length] at same
          cases same
        refine ⟨runs ++ [(s, p + 1)], by rw [List.map_append, List.map_singleton], sorted, fun i j => ?_⟩
        rw [listed]
        exact ⟨fun run => run.1, fun run => ⟨run, (run.nonempty.trans_le (run.within.trans length)).le⟩⟩
      · rw [if_neg final]
        exact ih s (p + 1) runs next (reading.push found white) fun none => absurd none final

/-- The tokens of a line are its maximal runs, from left to right. -/
theorem strings_runs (text : List Char) : ∃ runs : List (Nat × Nat), strings text = runs.map (slice text) ∧
    (runs.Pairwise fun r r' => r.2 < r'.1) ∧ ∀ i j, (i, j) ∈ runs ↔ MaximalRun text i j := by
  have begun : Reading text 0 0 [] := ⟨le_rfl, Nat.zero_le _, by omega, by omega, by simp, .nil, by simp⟩
  have read := wordLoop_runs text 0 0 [] rfl begun fun _ => rfl
  have fresh : slice text (0, 0) = [] := rfl
  rwa [fresh] at read

end Runs

end OsLabs.Shell
