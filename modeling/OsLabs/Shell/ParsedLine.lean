import OsLabs.Shell.Buffers

namespace OsLabs.Shell

/-- What `execv` takes an argument array for: the words before the first null pointer. -/
def readArgv : List Slot → Option (List Word)
  | [] => none
  | .null :: _ => some []
  | .unset :: _ => none
  | .word word :: slots => (readArgv slots).map (word :: ·)

theorem readArgv_words (words : List Word) (behind : List Slot) :
    readArgv (words.map .word ++ .null :: behind) = some words := by
  induction words with
  | nil => rfl
  | cons word words ih => simp only [List.map_cons, List.cons_append, readArgv, ih, Option.map_some]

theorem readArgv_set {slots : List Slot} {words : List Word} (filled : slots.take words.length = words.map .word)
    (room : words.length < slots.length) : readArgv (slots.set words.length .null) = some words := by
  have split := List.take_append_drop (words.length + 1) (slots.set words.length .null)
  rw [take_set_self room, filled, List.append_assoc, List.singleton_append] at split
  rw [← split]
  exact readArgv_words _ _

namespace Buffers
variable {b : Buffers}

/-- At most one entry of `commands` points to the array of the line. -/
def Alone (b : Buffers) : Prop := ∀ i k : Nat, b.commands[i]? = some Entry.shared → b.commands[k]? = some Entry.shared → i = k

/-- Ending the argument vector of one command leaves the others as they are. -/
theorem vector_terminate (alone : b.Alone) (i k : Nat) : (b.terminate i).vector k =
    if k = i then (b.vector k).map (·.set (b.countLengthVec.getD k 0) .null) else b.vector k := by
  unfold terminate
  cases target : b.commands[i]? with
  | none =>
    by_cases same : k = i
    · subst same
      simp only [vector, target, if_true, Option.map_none]
    · rw [if_neg same]
  | some entry =>
    cases entry with
    | shared =>
      by_cases same : k = i
      · subst same
        simp only [vector, target, if_true, Option.map_some]
      · rw [if_neg same]
        unfold vector
        cases other : b.commands[k]? with
        | none => rfl
        | some entry =>
          cases entry with
          | shared => exact absurd (alone k i other target) same
          | copy _ => rfl
    | copy slots =>
      have bound := (List.getElem?_eq_some_iff.mp target).1
      by_cases same : k = i
      · subst same
        simp only [vector, target, if_true, Option.map_some, List.getElem?_set_self bound]
      · simp only [vector, if_neg same, List.getElem?_set_ne (Ne.symm same)]

theorem alone_terminate (alone : b.Alone) (i : Nat) :
    (b.terminate i).Alone ∧ (b.terminate i).countLengthVec = b.countLengthVec := by
  unfold terminate
  cases target : b.commands[i]? with
  | none => exact ⟨alone, rfl⟩
  | some entry =>
    cases entry with
    | shared => exact ⟨alone, rfl⟩
    | copy slots =>
      refine ⟨fun j k first second => ?_, rfl⟩
      change (b.commands.set i _)[j]? = _ at first
      change (b.commands.set i _)[k]? = _ at second
      simp only [List.getElem?_set] at first second
      split at first
      · split at first
        · cases first
        · cases first
      · split at second
        · split at second
          · cases second
          · cases second
        · exact alone j k first second

/-- The commands up to the one that is started have ended argument vectors. -/
theorem vector_terminated (alone : b.Alone) (count : Nat) : (∀ k, (b.terminated count).vector k =
    if k < count then (b.vector k).map (·.set (b.countLengthVec.getD k 0) .null) else b.vector k) ∧
    (b.terminated count).Alone ∧ (b.terminated count).countLengthVec = b.countLengthVec := by
  induction count with
  | zero => exact ⟨fun k => rfl, alone, rfl⟩
  | succ count ih =>
    obtain ⟨vectors, alone, lengths⟩ := ih
    have last : b.terminated (count + 1) = (b.terminated count).terminate count := by
      rw [terminated, List.range_succ, List.foldl_append]
      rfl
    obtain ⟨alone', lengths'⟩ := alone_terminate alone count
    rw [last]
    refine ⟨fun k => ?_, alone', lengths'.trans lengths⟩
    rw [vector_terminate alone, vectors, lengths]
    by_cases same : k = count
    · subst same
      rw [if_pos rfl, if_neg (Nat.lt_irrefl k), if_pos (Nat.lt_succ_self k)]
    · rw [if_neg same]
      by_cases early : k < count
      · rw [if_pos early, if_pos (by omega)]
      · rw [if_neg early, if_neg (by omega)]

end Buffers

theorem length_remaining_le (c : List Word) : (remaining c).length ≤ c.length := by
  induction c using remaining.induct with
  | case1 => exact le_rfl
  | case2 word operator => simp [remaining, operator]
  | case3 word harmless => simp [remaining, harmless]
  | case4 word following rest operator ih =>
    simp only [remaining, if_pos operator, List.length_cons]
    omega
  | case5 word following rest harmless ih =>
    simp only [remaining, if_neg harmless, List.length_cons] at ih ⊢
    omega

/-- A line has one command more than it has `|`, and the other tokens are in the commands. -/
theorem stages_sizes (ts : List Word) : (stages ts).length = ts.count bar + 1 ∧
    (stages ts).flatten.length + ts.count bar = ts.length := by
  unfold stages
  induction ts with
  | nil => exact ⟨rfl, rfl⟩
  | cons token ts ih =>
    rw [List.splitOn_cons_eq_if_modifyHead, List.count_cons, List.length_cons]
    split
    · rw [List.length_cons, List.flatten_cons, List.nil_append]
      omega
    · rw [List.length_modifyHead]
      cases parts : ts.splitOn bar with
      | nil => exact absurd parts (List.splitOn_ne_nil _ _)
      | cons first more =>
        rw [parts] at ih
        simp only [List.modifyHead_cons, List.flatten_cons, List.cons_append, List.length_cons,
          List.length_append] at ih ⊢
        omega

/-- The entries of the commands of a well-formed line. From the time that the vector of command `k` has
been ended, it is the vector of its words. -/
structure ParsedAs (b : Buffers) (parts : List (List Word)) : Prop where
  count : b.commands.length = parts.length
  argv : ∀ k c, parts[k]? = some c → ∀ j, k < j → ((b.terminated j).vector k).bind readArgv = some (remaining c)
  input : b.inputFiles = parts.map (fileAfter less)
  output : b.outputFiles = parts.map (fileAfter greater)

/-- The stored commands hold the words of `all`: the last one in the array of the line, the others in copies
of their own with one slot more. -/
structure Held (r : Buffers) (all : List (List Word)) : Prop where
  copies : r.commands = all.dropLast.map (fun words => .copy (words.map .word ++ [.unset])) ++ [.shared]
  last : ∀ words, all.getLast? = some words → r.argv.take words.length = words.map .word ∧ words.length < r.argv.length
  lengths : r.countLengthVec = all.map List.length

section Line
variable {r : Buffers} {all : List (List Word)} (held : Held r all) (some : all ≠ [])
include held some

theorem Held.command {k : Nat} {words : List Word} (found : all[k]? = .some words) :
    (r.commands[k]? = .some (.copy (words.map .word ++ [.unset])) ∧ k + 1 < all.length) ∨
      (r.commands[k]? = .some .shared ∧ k + 1 = all.length ∧ all.getLast? = .some words) := by
  obtain ⟨init, last, rfl⟩ := (List.eq_nil_or_concat all).resolve_left some
  have copies := held.copies
  simp only [List.concat_eq_append, List.dropLast_concat, List.getLast?_concat, List.length_append,
    List.length_singleton] at found copies ⊢
  rw [copies]
  have bound := (List.getElem?_eq_some_iff.mp found).1
  rw [List.length_append, List.length_singleton] at bound
  by_cases early : k < init.length
  · rw [List.getElem?_append_left early] at found
    refine .inl ⟨?_, by omega⟩
    rw [List.getElem?_append_left (by rwa [List.length_map]), List.getElem?_map, found]
    rfl
  · obtain rfl : k = init.length := by omega
    refine .inr ⟨?_, rfl, ?_⟩
    · rw [List.getElem?_append_right (by rw [List.length_map]), List.length_map, Nat.sub_self]
      rfl
    · rw [List.getElem?_append_right le_rfl, Nat.sub_self] at found
      exact found

theorem Held.count : r.commands.length = all.length := by
  obtain ⟨init, last, rfl⟩ := (List.eq_nil_or_concat all).resolve_left some
  rw [held.copies]
  simp

theorem Held.alone : r.Alone := by
  have last : ∀ i, r.commands[i]? = .some Entry.shared → i + 1 = all.length := by
    intro i found
    have bound := (List.getElem?_eq_some_iff.mp found).1
    rw [held.count some] at bound
    rcases held.command some (List.getElem?_eq_getElem bound) with ⟨copy, _⟩ | ⟨_, atEnd, _⟩
    · rw [found] at copy
      cases copy
    · exact atEnd
  intro i k first second
  have := last i first
  have := last k second
  omega

/-- A command whose vector has been ended is started with its own words. -/
theorem Held.reads {k j : Nat} (later : k < j) : ((r.terminated j).vector k).bind readArgv = all[k]? := by
  rw [(Buffers.vector_terminated (held.alone some) j).1, if_pos later]
  cases found : all[k]? with
  | none =>
    have outside := List.getElem?_eq_none_iff.mp found
    rw [← held.count some] at outside
    simp only [Buffers.vector, List.getElem?_eq_none outside, Option.map_none, Option.bind_none]
  | some words =>
    obtain ⟨slots, vector, filled, room⟩ : ∃ slots, r.vector k = .some slots ∧
        slots.take words.length = words.map .word ∧ words.length < slots.length := by
      unfold Buffers.vector
      rcases held.command some found with ⟨copy, _⟩ | ⟨shared, _, last⟩
      · rw [copy]
        exact ⟨_, rfl, by simp, by simp⟩
      · rw [shared]
        exact ⟨_, rfl, held.last words last⟩
    have length : r.countLengthVec.getD k 0 = words.length := by
      rw [held.lengths, List.getD_eq_getElem?_getD, List.getElem?_map, found, Option.map_some, Option.getD_some]
    rw [vector, length, Option.map_some, Option.bind_some, readArgv_set filled room]

end Line

theorem Buffers.Built.held {r : Buffers} {size : Nat} {parts : List (List Word)}
    (built : Built (.start size) r parts) :
    Held r (parts.map remaining) := by
  refine ⟨?_, fun words last => ?_, by rw [built.lengths, List.map_map]; rfl⟩
  · rw [built.copies, ← List.map_dropLast, List.map_map]
    rfl
  · rw [List.getLast?_map] at last
    obtain ⟨c, atEnd, rfl⟩ := Option.map_eq_some_iff.mp last
    exact built.last c atEnd

theorem Buffers.Built.parsedAs {r : Buffers} {size : Nat} {parts : List (List Word)}
    (built : Built (.start size) r parts)
    (some : parts ≠ []) : ParsedAs r parts := by
  have held := built.held
  have words : parts.map remaining ≠ [] := by rwa [ne_eq, List.map_eq_nil_iff]
  refine ⟨by rw [held.count words, List.length_map], fun k c found j later => ?_, by simpa [start] using built.inputs,
    by simpa [start] using built.outputs⟩
  rw [held.reads words later, List.getElem?_map, found, Option.map_some]

/-- Lines are parsed exactly. -/
theorem parse_exact (command : List Char) :
    (∃ runs : List (Nat × Nat), strings command = runs.map (slice command) ∧ (runs.Pairwise fun r r' => r.2 < r'.1) ∧
      ∀ i j, (i, j) ∈ runs ↔ MaximalRun command i j) ∧
    (WellFormedLine command → ParsedAs (parseBuffers command) (stages (strings command)) ∧
      (parseBuffers command).numPipes = (strings command).count bar) := by
  refine ⟨strings_runs command, fun formed => ?_⟩
  unfold WellFormedLine at formed
  rw [← strings_eq_tokens] at formed
  have some : stages (strings command) ≠ [] := List.splitOn_ne_nil _ _
  have words : ∀ c ∈ stages (strings command), ∀ word ∈ c, word ≠ [] ∧ word ≠ bar := fun c part word member =>
    ⟨tokens_ne_nil (strings_eq_tokens command ▸ (mem_stages part word member).1), (mem_stages part word member).2⟩
  have sizes := stages_sizes (strings command)
  have built := Buffers.applyLine_built some formed (.start (strings command).length) ⟨rfl, rfl, rfl⟩ fun c part => by
    have inside := (List.sublist_flatten_of_mem part).length_le
    have fewer := length_remaining_le c
    simp only [Buffers.start, List.length_replicate]
    omega
  have whole : [bar].intercalate (stages (strings command)) = strings command := List.intercalate_splitOn bar
  have read := @Reader.line Buffers Buffers.reader (.start (strings command).length) _ some formed words rfl rfl
  rw [whole] at read
  change parseBuffers command = _ at read
  rw [← read] at built
  refine ⟨built.parsedAs some, ?_⟩
  rw [Buffers.numPipes, (built.parsedAs some).count, sizes.1]
  push_cast
  omega

theorem parse_exact_triple : ParsedAs (parseBuffers "a < f | b | c > g".toList) (stages (strings "a < f | b | c > g".toList)) ∧
    (parseBuffers "a < f | b | c > g".toList).numPipes = (strings "a < f | b | c > g".toList).count bar :=
  (parse_exact "a < f | b | c > g".toList).2 wellFormedLine_triple

end OsLabs.Shell
