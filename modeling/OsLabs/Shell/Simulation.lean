import OsLabs.Shell.ParsedLine

namespace OsLabs.Shell

/-- The arrays stand for the lists: the current command holds `words`, and the stored commands hold `earlier`. -/
structure Stands (b : Buffers) (p : Parse) (words : List Word) (earlier : List (List Word)) : Prop where
  filled : b.argv.take b.countLength = words.map .word
  length : b.countLength = words.length
  argv : p.argv = words.map cStr
  input : p.input = b.inputFilename
  output : p.output = b.outputFilename
  countInput : p.countInput = b.countInput
  countOutput : p.countOutput = b.countOutput
  cerr : p.cerr = b.cerr
  copies : b.commands = earlier.map fun words => .copy (words.map .word ++ [.unset])
  lengths : b.countLengthVec = earlier.map List.length
  commands : p.commands.map Command.argv = earlier.map (·.map cStr)
  inputs : p.commands.map Command.input = b.inputFiles
  outputs : p.commands.map Command.output = b.outputFiles

/-- The correspondence behind the loop, where the last command is stored too. -/
structure Stood (r : Buffers) (q : Parse) (all : List (List Word)) : Prop where
  held : Held r all
  commands : q.commands.map Command.argv = all.map (·.map cStr)
  inputs : q.commands.map Command.input = r.inputFiles
  outputs : q.commands.map Command.output = r.outputFiles
  cerr : q.cerr = r.cerr

/-- The two loops agree behind a pass, which leaves room for the tokens that come. -/
structure Matched (b : Buffers) (x : Buffers × Bool) (y : Parse × Bool) : Prop where
  stands : ∃ words earlier, Stands x.1 y.1 words earlier
  skips : x.2 = y.2
  length : x.1.argv.length = b.argv.length
  count : x.1.countLength ≤ b.countLength + 1

section Steps
variable {b : Buffers} {p : Parse} {words : List Word} {earlier : List (List Word)}
    (stands : Stands b p words earlier)
include stands

theorem Stands.stored : (p.commands ++ [(⟨p.argv, p.input, p.output⟩ : Command)]).map Command.argv =
      (earlier ++ [words]).map (·.map cStr) ∧
    (p.commands ++ [(⟨p.argv, p.input, p.output⟩ : Command)]).map Command.input = b.inputFiles ++ [b.inputFilename] ∧
    (p.commands ++ [(⟨p.argv, p.input, p.output⟩ : Command)]).map Command.output = b.outputFiles ++
      [b.outputFilename] ∧
    b.countLengthVec ++ [b.countLength] = (earlier ++ [words]).map List.length := by
  simp only [List.map_append, List.map_cons, List.map_nil]
  rw [stands.commands, stands.inputs, stands.outputs, stands.lengths, stands.argv, stands.input,
    stands.output, stands.length]
  exact ⟨rfl, rfl, rfl, rfl⟩

theorem Stands.pipe (room : b.countLength < b.argv.length) :
    Stands b.pipe p.pipe [] (earlier ++ [words]) ∧ b.pipe.argv.length = b.argv.length := by
  obtain ⟨copied, kept⟩ := Buffers.pipe_copies stands.filled room
  obtain ⟨commands, inputs, outputs, lengths⟩ := stands.stored
  refine ⟨⟨rfl, rfl, rfl, rfl, rfl, rfl, rfl, stands.cerr, ?_, lengths, commands, inputs, outputs⟩, kept⟩
  rw [copied, stands.copies, List.map_append, List.map_singleton]

theorem Stands.word (room : b.countLength < b.argv.length) (word : Word) :
    Stands (b.addWord word) (p.addWord word) (words ++ [word]) earlier := by
  refine { stands with filled := ?_, length := ?_, argv := ?_ }
  · change (b.argv.set b.countLength (.word word)).take (b.countLength + 1) = _
    rw [take_set_self room, stands.filled, List.map_append, List.map_singleton]
  · change b.countLength + 1 = _
    rw [stands.length, List.length_append, List.length_singleton]
  · change p.argv ++ [cStr word] = _
    rw [stands.argv, List.map_append, List.map_singleton]

theorem Stands.report (text : String) : Stands (b.report text) (p.report text) words earlier := by
  refine { stands with cerr := ?_ }
  change p.cerr ++ [text] = b.cerr ++ [text]
  rw [stands.cerr]

theorem Stands.takeInput (file : Word) : Matched b (b.takeInput file) (p.takeInput file) := by
  have counted : p.countInput + 1 = b.countInput + 1 := congrArg (· + 1) stands.countInput
  have once : Stands { b with countInput := b.countInput + 1 } { p with countInput := b.countInput + 1 }
      words earlier :=
    { stands with countInput := rfl }
  unfold Buffers.takeInput Parse.takeInput
  rw [counted]
  split
  · exact ⟨⟨_, _, once.report _⟩, rfl, rfl, Nat.le_succ _⟩
  · exact ⟨⟨_, _, { once with input := rfl }⟩, rfl, rfl, Nat.le_succ _⟩

theorem Stands.takeOutput (file : Word) : Matched b (b.takeOutput file) (p.takeOutput file) := by
  have counted : p.countOutput + 1 = b.countOutput + 1 := congrArg (· + 1) stands.countOutput
  have once : Stands { b with countOutput := b.countOutput + 1 } { p with countOutput := b.countOutput + 1 }
      words earlier :=
    { stands with countOutput := rfl }
  unfold Buffers.takeOutput Parse.takeOutput
  rw [counted]
  split
  · exact ⟨⟨_, _, once.report _⟩, rfl, rfl, Nat.le_succ _⟩
  · exact ⟨⟨_, _, { once with output := rfl }⟩, rfl, rfl, Nat.le_succ _⟩

/-- A pass keeps the correspondence, and both loops advance `i` in the same passes. -/
theorem Stands.pass (room : b.countLength < b.argv.length) (token : Word) (following : Option Word) :
    Matched b (b.pass token following) (p.pass token following) := by
  have invalid := stands.report "invalid command. (Input token followed by non-word)\n"
  unfold Buffers.pass Parse.pass
  by_cases piped : token = bar
  · obtain ⟨kept, length⟩ := stands.pipe room
    rw [if_pos piped, if_pos piped]
    exact ⟨⟨_, _, kept⟩, rfl, length, Nat.zero_le _⟩
  rw [if_neg piped, if_neg piped]
  by_cases operator : Redirects token
  · rw [if_pos operator, if_pos operator]
    cases following with
    | none => exact ⟨⟨_, _, invalid⟩, rfl, rfl, Nat.le_succ _⟩
    | some file =>
      by_cases target : file ≠ less ∧ file ≠ greater ∧ file ≠ []
      · simp only [if_pos target]
        split
        · exact stands.takeInput file
        · exact stands.takeOutput file
      · simp only [if_neg target]
        exact ⟨⟨_, _, invalid⟩, rfl, rfl, Nat.le_succ _⟩
  · rw [if_neg operator, if_neg operator]
    exact ⟨⟨_, _, stands.word room token⟩, rfl, List.length_set, le_rfl⟩

/-- The end of the line stores the last command in both. -/
theorem Stands.store (room : b.countLength < b.argv.length) :
    Stood (b.push .shared) p.store (earlier ++ [words]) := by
  obtain ⟨commands, inputs, outputs, lengths⟩ := stands.stored
  refine ⟨⟨?_, fun last found => ?_, lengths⟩, commands, inputs, outputs, stands.cerr⟩
  · change b.commands ++ [.shared] = _
    rw [stands.copies, List.dropLast_concat]
  · rw [List.getLast?_concat] at found
    obtain rfl := Option.some.inj found
    change b.argv.take _ = _ ∧ _ < b.argv.length
    rw [← stands.length]
    exact ⟨stands.filled, room⟩

end Steps

/-- Both loops over the tokens do the same: there is room for every word of the line. -/
theorem Stands.loop {ts : List Word} {b : Buffers} {p : Parse} {words : List Word} {earlier : List (List Word)}
    (stands : Stands b p words earlier) (room : b.countLength + ts.length < b.argv.length) :
    ∃ all, all ≠ [] ∧ Stood (Buffers.loop ts (b.finish ts)) (tokenLoop ts (p.finish ts)) all := by
  induction hn : ts.length using Nat.strongRecOn generalizing ts b p words earlier with
  | _ n ih =>
    cases ts with
    | nil => exact ⟨earlier ++ [words], by simp, stands.store room⟩
    | cons token rest =>
      rw [List.length_cons] at hn room
      have matched := stands.pass (by omega) token rest.head?
      change ∃ all, all ≠ [] ∧ Stood (Buffers.loop (token :: rest) b) (tokenLoop (token :: rest) p) all
      rw [Buffers.loop, tokenLoop]
      cases passed : b.pass token rest.head? with
      | mk a skip =>
        cases passed' : p.pass token rest.head? with
        | mk q skip' =>
          rw [passed, passed'] at matched
          obtain ⟨⟨words', earlier', after⟩, rfl, length, count⟩ := matched
          change a.argv.length = _ at length
          change a.countLength ≤ _ at count
          cases skip with
          | false => exact ih rest.length (by omega) after (by omega) rfl
          | true =>
            cases rest with
            | nil =>
              have none := @pass_none p token
              rw [List.head?_nil] at passed'
              rw [passed'] at none
              cases none
            | cons _ later =>
              rw [List.length_cons] at hn room
              exact ih later.length (by omega) after (by omega) rfl

/-- Every line, well formed or not: what the arrays hold for its commands is what `parse` says. -/
theorem parseBuffers_parse (command : List Char) : ∃ all : List (List Word),
    (parse command).commands.map Command.argv = all.map (·.map cStr) ∧
      (∀ k j, k < j → (((parseBuffers command).terminated j).vector k).bind readArgv = all[k]?) ∧
      (parse command).commands.map Command.input = (parseBuffers command).inputFiles ∧
      (parse command).commands.map Command.output = (parseBuffers command).outputFiles ∧
      (parse command).cerr = (parseBuffers command).cerr := by
  by_cases none : strings command = []
  · have arrays : parseBuffers command = .start 0 := by
      rw [parseBuffers, none, Buffers.loop, List.length_nil]
    have lists : parse command = .start := by
      rw [parse, none, tokenLoop]
    have alone : (Buffers.start 0).Alone := by
      intro i k shared
      cases shared
    rw [arrays, lists]
    refine ⟨[], rfl, fun k j later => ?_, rfl, rfl, rfl⟩
    rw [(Buffers.vector_terminated alone j).1, if_pos later]
    rfl
  · have start : Stands (.start (strings command).length) .start [] [] :=
      ⟨rfl, rfl, rfl, rfl, rfl, rfl, rfl, rfl, rfl, rfl, rfl, rfl, rfl⟩
    obtain ⟨all, some, stood⟩ := @Stands.loop (strings command) _ _ _ _ start (by simp [Buffers.start])
    obtain ⟨first, rest, line⟩ := List.exists_cons_of_ne_nil none
    have whole : Stood (parseBuffers command) (parse command) all := by
      rw [parseBuffers, parse]
      rw [line] at stood ⊢
      exact stood
    exact ⟨all, whole.commands, fun k j later => whole.held.reads some later, whole.inputs, whole.outputs, whole.cerr⟩

end OsLabs.Shell
