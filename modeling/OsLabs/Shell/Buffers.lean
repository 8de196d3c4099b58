import OsLabs.Shell.Parse
import OsLabs.Shell.Runs

namespace OsLabs.Shell

/-- What a slot of an argument array points to; `word w` is what `c_str` returns for the string `w`.
`new` leaves the slots unset. -/
inductive Slot
  | unset | null | word (w : Word)
  deriving DecidableEq

/-- What an entry of `commands` points to: an `argv_copy` of its own or the array `argv` of the line. -/
inductive Entry
  | shared | copy (slots : List Slot)
  deriving DecidableEq

/-- The variables of the loop over the tokens as the code has them. The keys of `commands` are the
numbers below `num_commands`. -/
structure Buffers where
  argv : List Slot
  commands : List Entry
  countLengthVec : List Nat
  inputFiles : List Word
  outputFiles : List Word
  countInput : Nat
  countOutput : Nat
  countLength : Nat
  inputFilename : Word
  outputFilename : Word
  cerr : List String

/-- The loop over `j` that moves the words of a command to `argv_copy`; `left` passes are left. -/
def moveWords : Nat → Nat → List Slot → List Slot → List Slot × List Slot
  | 0, _, argv, argvCopy => (argv, argvCopy)
  | left + 1, j, argv, argvCopy => moveWords left (j + 1) (argv.set j (.word [])) (argvCopy.set j (argv.getD j .unset))

namespace Buffers

def start (size : Nat) : Buffers := ⟨List.replicate (size + 1) .unset, [], [], [], [], 0, 0, 0, [], [], []⟩

/-- What a `|` and the end of the line both store. -/
def push (b : Buffers) (entry : Entry) : Buffers := { b with
  commands := b.commands ++ [entry]
  countLengthVec := b.countLengthVec ++ [b.countLength]
  inputFiles := b.inputFiles ++ [b.inputFilename]
  outputFiles := b.outputFiles ++ [b.outputFilename] }

/-- The branch of a `|`. -/
def pipe (b : Buffers) : Buffers :=
  let (argv, argvCopy) := moveWords b.countLength 0 b.argv (List.replicate (b.countLength + 1) .unset)
  { b.push (.copy argvCopy) with
    argv := argv, countInput := 0, countOutput := 0, countLength := 0, inputFilename := [], outputFilename := [] }

def report (b : Buffers) (text : String) : Buffers := { b with cerr := b.cerr ++ [text] }

def addWord (b : Buffers) (word : Word) : Buffers :=
  { b with argv := b.argv.set b.countLength (.word word), countLength := b.countLength + 1 }

def finish (rest : List Word) (b : Buffers) : Buffers := if rest = [] then b.push .shared else b

def takeInput (b : Buffers) (file : Word) : Buffers × Bool :=
  if b.countInput + 1 > 1 then ({ b with countInput := b.countInput + 1 }.report "invalid command.\n", false)
  else ({ b with countInput := b.countInput + 1, inputFilename := file }, true)

def takeOutput (b : Buffers) (file : Word) : Buffers × Bool :=
  if b.countOutput + 1 > 1 then ({ b with countOutput := b.countOutput + 1 }.report "invalid command.\n", false)
  else ({ b with countOutput := b.countOutput + 1, outputFilename := file }, true)

/-- As `Parse.pass`. -/
def pass (b : Buffers) (token : Word) (following : Option Word) : Buffers × Bool :=
  if token = bar then (b.pipe, false)
  else if Redirects token then
    match following with
    | some file =>
      if file ≠ less ∧ file ≠ greater ∧ file ≠ [] then
        if token = less then b.takeInput file else b.takeOutput file
      else (b.report "invalid command. (Input token followed by non-word)\n", false)
    | none => (b.report "invalid command. (Input token followed by non-word)\n", false)
  else (b.addWord token, false)

/-- The loop over the tokens. -/
def loop : List Word → Buffers → Buffers
  | [], b => b
  | token :: rest, b =>
    match b.pass token rest.head? with
    | (a, false) => loop rest (a.finish rest)
    | (a, true) =>
      match rest with
      | [] => a
      | _ :: later => loop later (a.finish later)

/-- `commands[k][count_length_vec[k]] = NULL` -/
def terminate (b : Buffers) (k : Nat) : Buffers :=
  match b.commands[k]? with
  | none => b
  | some .shared => { b with argv := b.argv.set (b.countLengthVec.getD k 0) .null }
  | some (.copy slots) => { b with commands := b.commands.set k (.copy (slots.set (b.countLengthVec.getD k 0) .null)) }

/-- Before a command is started the first `count` argument vectors have been ended. -/
def terminated (b : Buffers) (count : Nat) : Buffers := (List.range count).foldl terminate b

/-- The array that `commands[k]` points to. -/
def vector (b : Buffers) (k : Nat) : Option (List Slot) :=
  match b.commands[k]? with
  | none => none
  | some .shared => some b.argv
  | some (.copy slots) => some slots

def numPipes (b : Buffers) : Int := b.commands.length - 1

end Buffers

/-- The variables after the line has been parsed. -/
def parseBuffers (command : List Char) : Buffers := Buffers.loop (strings command) (.start (strings command).length)

section Slots

/-- The words placed in consecutive slots. -/
def write : List Slot → Nat → List Word → List Slot
  | slots, _, [] => slots
  | slots, n, word :: words => write (slots.set n (.word word)) (n + 1) words

theorem take_set_self {slots : List Slot} {n : Nat} (room : n < slots.length) (slot : Slot) :
    (slots.set n slot).take (n + 1) = slots.take n ++ [slot] := by
  rw [List.take_add_one, List.getElem?_set_self room, List.take_set_of_le le_rfl]
  rfl

@[simp] theorem length_write (slots : List Slot) (n : Nat) (words : List Word) :
  (write slots n words).length = slots.length := by
  induction words generalizing slots n with
  | nil => rfl
  | cons word words ih => rw [write, ih, List.length_set]

theorem take_write {slots : List Slot} {n : Nat} (words : List Word) (room : n + words.length ≤ slots.length) :
    (write slots n words).take (n + words.length) = slots.take n ++ words.map .word := by
  induction words generalizing slots n with
  | nil => simp [write]
  | cons word words ih =>
    rw [List.length_cons] at room
    have rest := @ih (slots.set n (.word word)) (n + 1) (by rw [List.length_set]; omega)
    rw [take_set_self (by omega), List.append_assoc, List.singleton_append, ← List.map_cons] at rest
    rw [write, List.length_cons, Nat.add_comm words.length, ← Nat.add_assoc, rest]

theorem moveWords_spec (left : Nat) : ∀ (j : Nat) (argv argvCopy : List Slot),
    j + left ≤ argv.length → j + left ≤ argvCopy.length →
    (moveWords left j argv argvCopy).1.length = argv.length ∧
      (moveWords left j argv argvCopy).2 = argvCopy.take j ++ (argv.drop j).take left ++ argvCopy.drop
        (j + left) := by
  induction left with
  | zero => exact fun j argv argvCopy _ _ => ⟨rfl, by simp [moveWords]⟩
  | succ left ih =>
    intro j argv argvCopy room room'
    obtain ⟨length, moved⟩ := ih (j + 1) (argv.set j (.word [])) (argvCopy.set j (argv.getD j .unset))
      (by rw [List.length_set]; omega) (by rw [List.length_set]; omega)
    refine ⟨by rw [moveWords, length, List.length_set], ?_⟩
    have first : (argv.drop j).take (left + 1) = argv.getD j .unset :: (argv.drop (j + 1)).take left := by
      rw [List.drop_eq_getElem_cons (by omega), List.take_succ_cons, List.getD_eq_getElem?_getD,
        List.getElem?_eq_getElem (by omega), Option.getD_some]
    rw [moveWords, moved, take_set_self (by omega), List.drop_set_of_lt (by omega),
      List.drop_set_of_lt (by omega), first,
      show j + 1 + left = j + (left + 1) by omega]
    simp

end Slots

section Stage
variable {c rest : List Word} {b : Buffers}

namespace Buffers

/-- What a well-formed command does to the variables of the loop. -/
def take (b : Buffers) (c : List Word) : Buffers := { b with
  argv := write b.argv b.countLength (remaining c)
  countLength := b.countLength + (remaining c).length
  inputFilename := nameAfter less c b.inputFilename
  outputFilename := nameAfter greater c b.outputFilename
  countInput := b.countInput + c.count less
  countOutput := b.countOutput + c.count greater }

theorem loop_word {word : Word} (plain : word ≠ bar) (harmless : ¬ Redirects word) :
    loop (word :: rest) b = loop rest ((b.addWord word).finish rest) := by
  simp only [loop, pass, if_neg plain, if_neg harmless]

theorem loop_bar : loop (bar :: rest) b = loop rest (b.pipe.finish rest) := by
  simp only [loop, pass, if_pos]

/-- A redirection operator takes the word after it. -/
theorem pass_redirect {op file : Word} (operator : Redirects op) (named : file ≠ [] ∧ ¬ Redirects file) :
    b.pass op (some file) = if op = less then b.takeInput file else b.takeOutput file := by
  simp only [pass, if_neg operator.ne_bar, if_pos operator, if_pos (isFile_iff.mpr named)]

theorem loop_less {file : Word} (named : file ≠ [] ∧ ¬ Redirects file) (first : b.countInput = 0) :
    loop (less :: file :: rest) b =
      loop rest ({ b with countInput := b.countInput + 1, inputFilename := file }.finish rest) := by
  simp only [loop, List.head?_cons, pass_redirect (.inl rfl) named, if_true, takeInput, first,
    if_neg (show ¬ 0 + 1 > 1 by decide)]

theorem loop_greater {file : Word} (named : file ≠ [] ∧ ¬ Redirects file) (first : b.countOutput = 0) :
    loop (greater :: file :: rest) b =
      loop rest ({ b with countOutput := b.countOutput + 1, outputFilename := file }.finish rest) := by
  simp only [loop, List.head?_cons, pass_redirect (.inr rfl) named, if_neg (show greater ≠ less by decide),
    takeOutput, first, if_neg (show ¬ 0 + 1 > 1 by decide)]

def redirection (b : Buffers) : Redirection := ⟨b.inputFilename, b.outputFilename, b.countInput, b.countOutput⟩

def redirect (r : Redirection) (b : Buffers) : Buffers := { b with
  inputFilename := r.input, outputFilename := r.output, countInput := r.countInput, countOutput := r.countOutput }

/-- The loop of the code as a reader. -/
def reader : Reader Buffers where
  run := loop
  finish := finish
  pipe := pipe
  word := addWord
  redirection := redirection
  redirect := redirect
  finish_cons _ _ _ := rfl
  run_nil _ := rfl
  run_bar _ _ := loop_bar
  run_word _ _ := loop_word
  run_less _ _ := loop_less
  run_greater _ _ := loop_greater
  pipe_zero _ := ⟨rfl, rfl⟩
  word_redirection _ _ := rfl
  word_redirect _ _ _ := rfl
  redirection_redirect _ _ := rfl
  redirect_redirect _ _ _ := rfl
  redirect_same _ := rfl

/-- A `|` copies the words of the command that it ends. -/
theorem pipe_copies {words : List Word} (filled : b.argv.take b.countLength = words.map .word)
    (room : b.countLength < b.argv.length) :
    b.pipe.commands = b.commands ++ [.copy (words.map .word ++ [.unset])] ∧ b.pipe.argv.length = b.argv.length := by
  obtain ⟨kept, moved⟩ := moveWords_spec b.countLength 0 b.argv (List.replicate (b.countLength + 1) .unset) (by omega)
    (by rw [List.length_replicate]; omega)
  have content : (List.replicate (b.countLength + 1) Slot.unset).drop (0 + b.countLength) = [.unset] := by
    rw [List.drop_replicate, show b.countLength + 1 - (0 + b.countLength) = 1 by omega, List.replicate_one]
  rw [List.take_zero, List.nil_append, List.drop_zero, filled, content] at moved
  exact ⟨by rw [← moved]; rfl, kept⟩

theorem foldl_addWord (words : List Word) : words.foldl addWord b =
    { b with argv := write b.argv b.countLength words, countLength := b.countLength + words.length } := by
  induction words generalizing b with
  | nil => rfl
  | cons word words ih => rw [List.foldl_cons, ih, addWord, write, List.length_cons, Nat.add_assoc, Nat.add_comm 1]

theorem apply_take (formed : WellFormed c) : reader.apply c b = b.take c := by
  rw [Reader.apply_eq formed.followed formed.oneInput formed.oneOutput]
  change redirect _ ((remaining c).foldl addWord b) = _
  rw [foldl_addWord]
  rfl

/-- Between two commands no variable remembers the one before. -/
structure Fresh (b : Buffers) : Prop where
  countLength : b.countLength = 0
  inputFilename : b.inputFilename = []
  outputFilename : b.outputFilename = []

/-- The files of a command, when the names have been empty before it. -/
theorem Fresh.files (fresh : Fresh b) :
    (b.take c).inputFilename = fileAfter less c ∧ (b.take c).outputFilename = fileAfter greater c := by
  rw [take, fresh.inputFilename, fresh.outputFilename]
  exact ⟨nameAfter_empty, nameAfter_empty⟩

theorem Fresh.length (fresh : Fresh b) : (b.take c).countLength = (remaining c).length := by
  rw [take, fresh.countLength, Nat.zero_add]

theorem Fresh.argv (fresh : Fresh b) (room : (remaining c).length < b.argv.length) :
    (b.take c).argv.take (remaining c).length = (remaining c).map .word ∧ (b.take c).argv.length = b.argv.length := by
  have filled := @take_write b.argv 0 (remaining c) (by omega)
  rw [Nat.zero_add] at filled
  rw [take, fresh.countLength]
  exact ⟨filled, length_write _ _ _⟩

theorem Fresh.pipe (fresh : Fresh b) (room : (remaining c).length < b.argv.length) :
    (b.take c).pipe.commands = b.commands ++ [.copy ((remaining c).map .word ++ [.unset])] ∧
      (b.take c).pipe.argv.length = b.argv.length := by
  obtain ⟨filled, length⟩ := fresh.argv room
  rw [← fresh.length] at filled room
  obtain ⟨copied, kept⟩ := pipe_copies filled (by omega)
  exact ⟨copied, kept.trans length⟩

/-- What the loop has stored for the commands of a well-formed line. -/
structure Built (b r : Buffers) (parts : List (List Word)) : Prop where
  lengths : r.countLengthVec = b.countLengthVec ++ parts.map fun c => (remaining c).length
  inputs : r.inputFiles = b.inputFiles ++ parts.map (fileAfter less)
  outputs : r.outputFiles = b.outputFiles ++ parts.map (fileAfter greater)
  copies : r.commands = b.commands ++ parts.dropLast.map (fun c => .copy ((remaining c).map .word ++ [.unset])) ++ [.shared]
  last : ∀ c, parts.getLast? = some c →
    r.argv.take (remaining c).length = (remaining c).map .word ∧ (remaining c).length < r.argv.length
  silent : r.cerr = b.cerr

theorem applyLine_built {parts : List (List Word)} (some : parts ≠ []) (formed : ∀ c ∈ parts, WellFormed c) :
    ∀ b, Fresh b → (∀ c ∈ parts, (remaining c).length < b.argv.length) →
      Built b (reader.applyLine parts b) parts := by
  induction parts with
  | nil => exact absurd rfl some
  | cons c more ih =>
    intro b fresh room
    have here := @apply_take c b (formed c List.mem_cons_self)
    have space := room c List.mem_cons_self
    obtain ⟨input, output⟩ := @Fresh.files c b fresh
    have length := @Fresh.length c b fresh
    obtain ⟨filled, size⟩ := fresh.argv space
    cases more with
    | nil =>
      rw [Reader.applyLine, here]
      change Built b ((b.take c).push .shared) [c]
      refine ⟨?_, ?_, ?_, by simp [push, take], fun d last => ?_, rfl⟩
      · simp only [push, length]
        rfl
      · simp only [push, input]
        rfl
      · simp only [push, output]
        rfl
      · cases Option.some.inj last
        exact ⟨filled, size ▸ space⟩
    | cons following more =>
      obtain ⟨copied, kept⟩ := fresh.pipe space
      have rest := ih (by simp) (fun c member => formed c (List.mem_cons_of_mem _ member)) (b.take c).pipe
          ⟨rfl, rfl, rfl⟩
        fun c member => by rw [kept]; exact room c (List.mem_cons_of_mem _ member)
      rw [Reader.applyLine, here]
      change Built b (reader.applyLine (following :: more) (b.take c).pipe) (c :: following :: more)
      refine ⟨?_, ?_, ?_, ?_, fun d last => rest.last d (by simpa using last), rest.silent⟩
      · rw [rest.lengths]
        change b.countLengthVec ++ [(b.take c).countLength] ++ _ = _
        rw [length, List.append_assoc]
        rfl
      · rw [rest.inputs]
        change b.inputFiles ++ [(b.take c).inputFilename] ++ _ = _
        rw [input, List.append_assoc]
        rfl
      · rw [rest.outputs]
        change b.outputFiles ++ [(b.take c).outputFilename] ++ _ = _
        rw [output, List.append_assoc]
        rfl
      · rw [rest.copies, copied]
        simp

end Buffers
end Stage

end OsLabs.Shell
