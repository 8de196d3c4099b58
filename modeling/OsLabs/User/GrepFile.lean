import OsLabs.User.Grep

namespace OsLabs.Grep

/-- `strchr`: the text before the character and the text behind it. -/
def strchr (c : UInt8) : Text → Option (Text × Text)
  | [] => none
  | b :: rest =>
    if b = c then some ([], rest)
    else if b = 0 then none
    else (strchr c rest).map fun (front, back) => (b :: front, back)

theorem strchr_some {c : UInt8} {buf front back : Text} (found : strchr c buf = some (front, back)) :
    buf = front ++ c :: back ∧ c ∉ front := by
  induction buf generalizing front with
  | nil => cases found
  | cons b rest ih =>
    unfold strchr at found
    split at found
    · cases found
      exact ⟨by rw [‹b = c›]; rfl, List.not_mem_nil⟩
    split at found
    · cases found
    · obtain ⟨⟨front', back'⟩, inner, same⟩ := Option.map_eq_some_iff.mp found
      cases same
      obtain ⟨split, absent⟩ := ih inner
      exact ⟨by rw [split]; rfl, fun member => (List.mem_cons.mp member).elim (fun is => ‹¬ b = c› is.symm) absent⟩

theorem strchr_none {c : UInt8} {buf : Text} (nonul : 0 ∉ buf) (missing : strchr c buf = none) : c ∉ buf := by
  induction buf with
  | nil => exact List.not_mem_nil
  | cons b rest ih =>
    obtain ⟨some, later⟩ := not_or.mp (mt List.mem_cons.mpr nonul)
    unfold strchr at missing
    rw [if_neg (Ne.symm some)] at missing
    split at missing
    · cases missing
    · exact fun member => (List.mem_cons.mp member).elim (fun is => ‹¬ b = c› is.symm)
        (ih later (Option.map_eq_none_iff.mp missing))

/-- The inner loop of `grep`: what it writes and what is left at `p`. -/
def printLines (pattern buf : Text) : Text × Text :=
  match _found : strchr newline buf with
  | none => ([], buf)
  | some (front, back) =>
    let (out, left) := printLines pattern back
    ((if matchRe pattern front then front ++ [newline] else []) ++ out, left)
termination_by buf.length
decreasing_by
  rw [(strchr_some _found).1, List.length_append, List.length_cons]
  omega

/-- One turn of `grep`'s outer loop: what it writes and what it keeps in `buf`. -/
def turn (pattern carry chunk : Text) : Text × Text :=
  let buf := carry ++ chunk
  let (out, left) := printLines pattern buf
  (out, if left.length = buf.length then [] else left)

/-- The room in `buf` behind the bytes kept. -/
def room (carry : Text) : Nat := 1024 - carry.length - 1

/-- `grep` of a file, whose `read` returns as many bytes as there are and fit. -/
def grepFile (pattern carry data : Text) : Text :=
  if (data.take (room carry)).isEmpty then []
  else
    let written := turn pattern carry (data.take (room carry))
    written.1 ++ grepFile pattern written.2 (data.drop (room carry))
termination_by data.length
decreasing_by
  rename_i some
  rw [List.length_drop]
  cases data with
  | nil => simp at some
  | cons b data =>
    have fits : room carry ≠ 0 := fun none => some (by rw [none]; rfl)
    rw [List.length_cons]
    omega

section Lines

/-- The lines of a text that a newline ends. -/
def lines (data : Text) : List Text := (data.splitOn newline).dropLast

/-- The matching lines, each with its newline. -/
def shown (pattern data : Text) : Text := ((lines data).filter (matchRe pattern)).flatMap (· ++ [newline])

theorem lines_cons {front : Text} (absent : newline ∉ front) (back : Text) :
    lines (front ++ newline :: back) = front :: lines back := by
  unfold lines
  rw [List.splitOn_append_cons_self, List.splitOn_eq_singleton absent, List.singleton_append,
    List.dropLast_cons_of_ne_nil (List.splitOn_ne_nil _ _)]

theorem lines_none {data : Text} (absent : newline ∉ data) : lines data = [] := by
  rw [lines, List.splitOn_eq_singleton absent]
  rfl

theorem shown_none {pattern data : Text} (absent : newline ∉ data) : shown pattern data = [] := by
  rw [shown, lines_none absent]
  rfl

theorem shown_cons {pattern front : Text} (absent : newline ∉ front) (back : Text) :
    shown pattern (front ++ newline :: back) =
      (if matchRe pattern front then front ++ [newline] else []) ++ shown pattern back := by
  unfold shown
  rw [lines_cons absent, List.filter_cons]
  by_cases matches_ : matchRe pattern front = true
  · rw [if_pos matches_, if_pos matches_, List.flatMap_cons]
  · rw [if_neg matches_, if_neg matches_]
    rfl

end Lines

theorem printLines_none {pattern buf : Text} (absent : newline ∉ buf) : printLines pattern buf = ([], buf) := by
  rw [printLines]
  split
  · rfl
  · rename_i found
    rw [(strchr_some found).1] at absent
    exact absurd (by simp) absent

/-- The inner loop writes the matching lines and leaves what follows the last newline. -/
theorem printLines_spec {pattern buf : Text} (nonul : 0 ∉ buf) :
    ∃ before : List Text, newline ∉ (printLines pattern buf).2 ∧
      (∀ more, lines (buf ++ more) = before ++ lines ((printLines pattern buf).2 ++ more) ∧
        shown pattern (buf ++ more) = (printLines pattern buf).1 ++ shown pattern ((printLines pattern buf).2 ++ more)) ∧
      (printLines pattern buf).2 <:+ buf ∧
      (newline ∈ buf → (printLines pattern buf).2.length < buf.length) := by
  induction buf using printLines.induct pattern with
  | case1 buf missing =>
    have absent := strchr_none nonul missing
    rw [printLines_none absent]
    exact ⟨[], absent, fun more => ⟨rfl, rfl⟩, List.suffix_rfl, fun member => absurd member absent⟩
  | case2 buf front back found _ _ _ ih =>
    obtain ⟨rfl, absent⟩ := strchr_some found
    have same : printLines pattern (front ++ newline :: back) =
        ((if matchRe pattern front then front ++ [newline] else []) ++ (printLines pattern back).1,
          (printLines pattern back).2) := by
      rw [printLines]
      split
      · rename_i missing
        rw [missing] at found
        cases found
      · rename_i found'
        rw [found] at found'
        cases found'
        rfl
    obtain ⟨before, ended, parts, suffix_, -⟩ := ih fun member => nonul (by simp [member])
    have shorter : (printLines pattern back).2.length < (front ++ newline :: back).length := by
      have less := suffix_.length_le
      simp only [List.length_append, List.length_cons]
      omega
    have behind : back <:+ front ++ newline :: back := ⟨front ++ [newline], by simp⟩
    rw [same]
    refine ⟨front :: before, ended, fun more => ?_, suffix_.trans behind, fun _ => shorter⟩
    obtain ⟨names, writes⟩ := parts more
    rw [List.append_assoc, List.cons_append, lines_cons absent, shown_cons absent, names, writes]
    exact ⟨rfl, (List.append_assoc ..).symm⟩

/-- A turn keeps what follows the last newline, and drops everything when there is none. -/
theorem turn_spec {pattern carry chunk : Text} (nonul : 0 ∉ carry ++ chunk) :
    (newline ∉ carry ++ chunk ∧ turn pattern carry chunk = ([], [])) ∨
      newline ∉ (turn pattern carry chunk).2 ∧ (turn pattern carry chunk).2 <:+ carry ++ chunk ∧
        (turn pattern carry chunk).2.length < (carry ++ chunk).length ∧
        ∃ before, ∀ more, lines (carry ++ chunk ++ more) = before ++ lines ((turn pattern carry chunk).2 ++ more) ∧
          shown pattern (carry ++ chunk ++ more) =
            (turn pattern carry chunk).1 ++ shown pattern ((turn pattern carry chunk).2 ++ more) := by
  obtain ⟨before, ended, parts, suffix_, shorter⟩ := @printLines_spec pattern _ nonul
  by_cases absent : newline ∈ carry ++ chunk
  · have less := shorter absent
    have same : turn pattern carry chunk = printLines pattern (carry ++ chunk) := by
      unfold turn
      dsimp only
      rw [if_neg less.ne]
    rw [same]
    exact .inr ⟨ended, suffix_, less, before, parts⟩
  · refine .inl ⟨absent, ?_⟩
    unfold turn
    dsimp only
    rw [printLines_none absent, if_pos rfl]

/-- The turns over a file, from a kept part without a newline. -/
theorem grepFile_eq {pattern carry data : Text} (nonul : 0 ∉ carry ++ data) (partial_ : newline ∉ carry)
    (fits : carry.length ≤ 1022) (short : ∀ front ∈ lines (carry ++ data), front.length ≤ 1022) :
    grepFile pattern carry data = shown pattern (carry ++ data) := by
  induction h : data.length using Nat.strong_induction_on generalizing carry data with
  | _ n ih =>
    subst h
    have space : room carry = 1023 - carry.length := by unfold room; omega
    rw [grepFile]
    by_cases ended : (data.take (room carry)).isEmpty = true
    · -- the end of the file: what is left is no line
      have nothing : data = [] := by
        rw [List.isEmpty_iff, List.take_eq_nil_iff] at ended
        exact ended.resolve_left (by omega)
      rw [if_pos ended, nothing, List.append_nil, shown_none partial_]
    · rw [if_neg ended]
      dsimp only
      have some : data ≠ [] := fun none => ended (by rw [none]; simp)
      have size := List.length_pos_iff.mpr some
      have rest : (data.drop (room carry)).length < data.length := by
        rw [List.length_drop]
        omega
      have whole : carry ++ data = carry ++ data.take (room carry) ++ data.drop (room carry) := by
        rw [List.append_assoc, List.take_append_drop]
      have cut : data.drop (room carry) = [] ∨ (carry ++ data.take (room carry)).length = 1023 := by
        rw [List.drop_eq_nil_iff, List.length_append, List.length_take]
        omega
      have most : (carry ++ data.take (room carry)).length ≤ 1023 := by
        rw [List.length_append, List.length_take]
        omega
      rw [whole] at nonul short ⊢
      generalize data.take (room carry) = chunk at nonul short cut most ⊢
      generalize data.drop (room carry) = more at nonul short cut rest ⊢
      rw [List.mem_append, not_or] at nonul
      rcases @turn_spec pattern carry chunk nonul.1 with ⟨absent, dropped⟩ | ⟨ended, suffix_, less, before, parts⟩
      · -- no line ends in the full buffer, and then none in the rest of the file
        have quiet : newline ∉ more := by
          intro member
          rcases cut with none | full
          · rw [none] at member
            cases member
          · obtain ⟨front, back, rfl, first⟩ := List.eq_append_cons_of_mem member
            have long := short (carry ++ chunk ++ front) (by
              rw [← List.append_assoc, lines_cons (by rw [List.mem_append, not_or]; exact ⟨absent, first⟩)]
              exact List.mem_cons_self)
            rw [List.length_append, full] at long
            omega
        have later := @ih more.length rest [] more nonul.2 List.not_mem_nil (Nat.zero_le _)
          (by rw [List.nil_append, lines_none quiet]; nofun) rfl
        rw [dropped, later, List.nil_append, List.nil_append, shown_none quiet,
          shown_none (by rw [List.mem_append, not_or]; exact ⟨absent, quiet⟩)]
      · obtain ⟨names, writes⟩ := parts more
        have later := @ih more.length rest (turn pattern carry chunk).2 more
          (by rw [List.mem_append, not_or]; exact ⟨fun member => nonul.1 (suffix_.subset member), nonul.2⟩) ended
          (by omega) (fun front member => short front (by rw [names]; exact List.mem_append_right _ member)) rfl
        rw [writes, later]

/-- A file without NULs whose lines fit into `buf` with their newlines: `grep` writes the matching lines that a newline
ends, wherever the reads cut the file. -/
theorem grep_file {pattern data : Text} (nonul : 0 ∉ data) (short : ∀ front ∈ lines data, front.length ≤ 1022) :
    grepFile pattern [] data = shown pattern data :=
  grepFile_eq nonul List.not_mem_nil (Nat.zero_le _) short

theorem grep_file_three : grepFile [98, 42, 99] [] [97, 10, 98, 98, 99, 10, 99] = [98, 98, 99, 10] := by
  have found := @grep_file [98, 42, 99] [97, 10, 98, 98, 99, 10, 99] (by decide) (by decide)
  exact found.trans (by decide)

end OsLabs.Grep
