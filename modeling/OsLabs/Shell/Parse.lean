import OsLabs.Shell.Words

namespace OsLabs.Shell

def bar : Word := ['|']
def less : Word := ['<']
def greater : Word := ['>']

/-- A redirection operator. -/
def Redirects (word : Word) : Prop := word = less ∨ word = greater

instance (word : Word) : Decidable (Redirects word) := inferInstanceAs (Decidable (_ ∨ _))

/-- The characters that `c_str` gives to `open`, `execv` and the output. -/
def cStr (word : Word) : Word := word.takeWhile (· ≠ '\x00')

/-- An entry of `commands` with those of `count_length_vec`, `input_files` and `output_files`. -/
structure Command where
  argv : List Word
  input : Word
  output : Word
  deriving DecidableEq

/-- The variables of the loop over the tokens; `argv` as far as it is filled. -/
structure Parse where
  commands : List Command
  argv : List Word
  input : Word
  output : Word
  countInput : Nat
  countOutput : Nat
  cerr : List String

namespace Parse

def start : Parse := ⟨[], [], [], [], 0, 0, []⟩

/-- The current command joins `commands`. -/
def store (p : Parse) : Parse := { p with commands := p.commands ++ [⟨p.argv, p.input, p.output⟩] }

/-- The branch of a `|`. -/
def pipe (p : Parse) : Parse := ⟨p.store.commands, [], [], [], 0, 0, p.cerr⟩

def report (p : Parse) (text : String) : Parse := { p with cerr := p.cerr ++ [text] }

def addWord (p : Parse) (word : Word) : Parse := { p with argv := p.argv ++ [cStr word] }

/-- The end of a pass of the loop: after the last token the current command is stored. -/
def finish (rest : List Word) (p : Parse) : Parse := if rest = [] then p.store else p

/-- The branch of `<`, where the next token may be a file name. -/
def takeInput (p : Parse) (file : Word) : Parse × Bool :=
  if p.countInput + 1 > 1 then ({ p with countInput := p.countInput + 1 }.report "invalid command.\n", false)
  else ({ p with countInput := p.countInput + 1, input := file }, true)

/-- The branch of `>`, where the next token may be a file name. -/
def takeOutput (p : Parse) (file : Word) : Parse × Bool :=
  if p.countOutput + 1 > 1 then ({ p with countOutput := p.countOutput + 1 }.report "invalid command.\n", false)
  else ({ p with countOutput := p.countOutput + 1, output := file }, true)

/-- The branches of the loop over the tokens, and whether one has advanced `i`; `following` is the
next token, if there is one. -/
def pass (p : Parse) (token : Word) (following : Option Word) : Parse × Bool :=
  if token = bar then (p.pipe, false)
  else if Redirects token then
    match following with
    | some file =>
      if file ≠ less ∧ file ≠ greater ∧ file ≠ [] then
        if token = less then p.takeInput file else p.takeOutput file
      else (p.report "invalid command. (Input token followed by non-word)\n", false)
    | none => (p.report "invalid command. (Input token followed by non-word)\n", false)
  else (p.addWord token, false)

end Parse

/-- The loop over the tokens. -/
def tokenLoop : List Word → Parse → Parse
  | [], p => p
  | token :: rest, p =>
    match p.pass token rest.head? with
    | (q, false) => tokenLoop rest (q.finish rest)
    | (q, true) =>
      match rest with
      | [] => q
      | _ :: later => tokenLoop later (q.finish later)

/-- The parsed line. -/
def parse (command : List Char) : Parse := tokenLoop (strings command) .start

example : (parse "< a b c | d > e".toList).commands =
    [⟨["b".toList, "c".toList], "a".toList, []⟩, ⟨["d".toList], [], "e".toList⟩] := by decide

section Passes
variable {ts : List Word} {p : Parse} {token : Word}

theorem pass_none : (p.pass token none).2 = false := by
  unfold Parse.pass
  split
  · rfl
  · split
    · rfl
    · rfl

/-- What every pass keeps holds when the last command is stored. -/
theorem tokenLoop_keeps {I R : Parse → Prop} (kept : ∀ p token following, I p → I (Parse.pass p token following).1)
    (stored : ∀ p, I p → R p.store) (start : I p) : R (tokenLoop ts (p.finish ts)) := by
  induction hn : ts.length using Nat.strongRecOn generalizing ts p with
  | _ n ih =>
    cases ts with
    | nil => exact stored p start
    | cons token rest =>
      have after := kept p token rest.head? start
      rw [List.length_cons] at hn
      change R (tokenLoop (token :: rest) p)
      rw [tokenLoop]
      cases passed : p.pass token rest.head? with
      | mk q skip =>
        rw [passed] at after
        cases skip with
        | false => exact ih rest.length (by omega) after rfl
        | true =>
          cases rest with
          | nil =>
            have none := @pass_none p token
            rw [List.head?_nil] at passed
            rw [passed] at none
            cases none
          | cons _ later =>
            rw [List.length_cons] at hn
            exact ih later.length (by omega) after rfl

/-- A line with a token has a command. -/
theorem parse_commands_ne_nil {command : List Char} (some : strings command ≠ []) :
    (parse command).commands ≠ [] := by
  have stored : ∀ p : Parse, p.store.commands ≠ [] := fun p => by simp [Parse.store]
  obtain ⟨first, rest, shape⟩ := List.exists_cons_of_ne_nil some
  have read := @tokenLoop_keeps (strings command) .start (fun _ => True) (fun p => p.commands ≠ [])
    (fun _ _ _ _ => trivial) (fun p _ => stored p) trivial
  rw [shape] at read
  rw [parse, shape]
  exact read

end Passes

section Language

/-- The commands of a line, as lists of tokens. -/
def stages (tokens : List Word) : List (List Word) := tokens.splitOn bar

/-- What is left of a command without its redirections. -/
def remaining : List Word → List Word
  | [] => []
  | [word] => if Redirects word then [] else [word]
  | word :: following :: rest => if Redirects word then remaining rest else word :: remaining (following :: rest)

/-- The token after the first `op`. -/
def fileAfter (op : Word) (c : List Word) : Word := (c.dropWhile (· ≠ op)).tail.head?.getD []

/-- Each redirection operator stands before a word. -/
def Followed (words : List Word) : Prop :=
  ∀ i op, words[i]? = some op → Redirects op → ∃ file, words[i + 1]? = some file ∧ ¬ Redirects file ∧ file ≠ bar

/-- A well-formed command of the shell language. -/
structure WellFormed (c : List Word) : Prop where
  followed : Followed c
  oneInput : c.count less ≤ 1
  oneOutput : c.count greater ≤ 1
  remains : remaining c ≠ []

/-- What the tokens of a command mean. -/
def commandOf (c : List Word) : Command := ⟨(remaining c).map cStr, fileAfter less c, fileAfter greater c⟩

end Language

theorem Followed.tail {word : Word} {c : List Word} (followed : Followed (word :: c)) : Followed c :=
  fun i op found => followed (i + 1) op found

theorem Followed.nil : Followed [] := fun _ _ found => nomatch found

theorem Followed.word {word : Word} {c : List Word} (followed : Followed c) (harmless : ¬ Redirects word) :
    Followed (word :: c)
  | 0, _, found, operator => absurd (Option.some.inj found ▸ operator) harmless
  | i + 1, op, found, operator => followed i op found operator

theorem Followed.redirect {op file : Word} {c : List Word} (followed : Followed c) (named : ¬ Redirects file)
    (plain : file ≠ bar) : Followed (op :: file :: c)
  | 0, _, _, _ => ⟨file, rfl, named, plain⟩
  | i + 1, other, found, operator => followed.word named i other found operator

theorem WellFormed.ne_nil {c : List Word} (formed : WellFormed c) : c ≠ [] := by
  rintro rfl
  exact formed.remains rfl

section Counts
variable {c : List Word} {op word file : Word}

theorem Redirects.ne_bar (operator : Redirects op) : op ≠ bar := by
  rcases operator with rfl | rfl <;> decide

/-- The test of the code for a file name. -/
theorem isFile_iff : file ≠ less ∧ file ≠ greater ∧ file ≠ [] ↔ file ≠ [] ∧ ¬ Redirects file := by
  unfold Redirects
  tauto

theorem Redirects.ne (operator : Redirects op) (harmless : ¬ Redirects word) : word ≠ op := by
  rintro rfl
  exact harmless operator

theorem counts_word (harmless : ¬ Redirects word) :
    (word :: c).count less = c.count less ∧ (word :: c).count greater = c.count greater :=
  ⟨List.count_cons_of_ne (Redirects.ne (.inl rfl) harmless), List.count_cons_of_ne (Redirects.ne (.inr rfl) harmless)⟩

theorem counts_less (harmless : ¬ Redirects file) :
    (less :: file :: c).count less = c.count less + 1 ∧ (less :: file :: c).count greater = c.count greater := by
  obtain ⟨input, output⟩ := @counts_word c file harmless
  rw [List.count_cons_self, List.count_cons_of_ne (show less ≠ greater by decide), input, output]
  exact ⟨rfl, rfl⟩

theorem counts_greater (harmless : ¬ Redirects file) :
    (greater :: file :: c).count less = c.count less ∧
      (greater :: file :: c).count greater = c.count greater + 1 := by
  obtain ⟨input, output⟩ := @counts_word c file harmless
  rw [List.count_cons_self, List.count_cons_of_ne (show greater ≠ less by decide), input, output]
  exact ⟨rfl, rfl⟩

end Counts

section Names
variable {c rest : List Word}

/-- The name of a file after a command, when it has been `name` before it. -/
def nameAfter (op : Word) (c : List Word) (name : Word) : Word := if op ∈ c then fileAfter op c else name

theorem fileAfter_self {op file : Word} : fileAfter op (op :: file :: rest) = file := by
  simp [fileAfter]

theorem fileAfter_other {op word : Word} (other : word ≠ op) : fileAfter op (word :: rest) = fileAfter op rest := by
  simp [fileAfter, other]

theorem fileAfter_none {op : Word} (none : op ∉ c) : fileAfter op c = [] := by
  induction c with
  | nil => rfl
  | cons word c ih =>
    rw [List.mem_cons, not_or] at none
    rw [fileAfter_other (Ne.symm none.1), ih none.2]

theorem nameAfter_other {op word name : Word} (other : word ≠ op) :
    nameAfter op (word :: c) name = nameAfter op c name := by
  simp only [nameAfter, List.mem_cons, fileAfter_other other, other.symm, false_or]

theorem nameAfter_self {op file name : Word} (none : op ∉ c) :
    nameAfter op (op :: file :: c) name = nameAfter op c file := by
  rw [nameAfter, nameAfter, if_pos List.mem_cons_self, if_neg none, fileAfter_self]

/-- The other redirection leaves the name as it is. -/
theorem nameAfter_skip {op skipped file name : Word} (operator : Redirects op) (named : ¬ Redirects file)
    (other : skipped ≠ op) :
    nameAfter op (skipped :: file :: c) name = nameAfter op c name := by
  rw [nameAfter_other other, nameAfter_other (operator.ne named)]

/-- The file of a command, when the name has been empty before it. -/
theorem nameAfter_empty {op : Word} : nameAfter op c [] = fileAfter op c := by
  unfold nameAfter
  split
  · rfl
  · rename_i none
    exact (fileAfter_none none).symm

theorem remaining_redirect {op file : Word} (operator : Redirects op) : remaining (op :: file :: c) = remaining c :=
  if_pos operator

theorem remaining_word {word : Word} (harmless : ¬ Redirects word) : remaining (word :: c) = word :: remaining c := by
  cases c with
  | nil => simp [remaining, harmless]
  | cons _ _ => simp [remaining, harmless]

end Names

/-- The variables of the loop that the redirections of a command change. -/
structure Redirection where
  input : Word
  output : Word
  countInput : Nat
  countOutput : Nat

namespace Redirection
variable {r : Redirection} {c : List Word} {file : Word}

def takeInput (r : Redirection) (file : Word) : Redirection := { r with countInput := r.countInput + 1, input := file }

def takeOutput (r : Redirection) (file : Word) : Redirection := { r with countOutput := r.countOutput + 1, output := file }

/-- What a well-formed command makes of them. -/
def after (c : List Word) (r : Redirection) : Redirection :=
  ⟨nameAfter less c r.input, nameAfter greater c r.output, r.countInput + c.count less, r.countOutput + c.count greater⟩

theorem after_nil : after [] r = r := by
  simp [after, nameAfter]

theorem after_word {word : Word} (harmless : ¬ Redirects word) : after (word :: c) r = after c r := by
  obtain ⟨inputs, outputs⟩ := @counts_word c word harmless
  unfold after
  rw [inputs, outputs, nameAfter_other (Redirects.ne (.inl rfl) harmless),
    nameAfter_other (Redirects.ne (.inr rfl) harmless)]

theorem after_less (named : ¬ Redirects file) (none : less ∉ c) :
    after (less :: file :: c) r = after c (r.takeInput file) := by
  obtain ⟨inputs, outputs⟩ := @counts_less c file named
  have input := @nameAfter_self c less file r.input none
  have output := @nameAfter_skip c greater less file r.output (.inr rfl) named (by decide)
  simp only [after, takeInput, inputs, outputs, input, output, Nat.add_assoc, Nat.add_comm 1]

theorem after_greater (named : ¬ Redirects file) (none : greater ∉ c) :
    after (greater :: file :: c) r = after c (r.takeOutput file) := by
  obtain ⟨inputs, outputs⟩ := @counts_greater c file named
  have input := @nameAfter_skip c less greater file r.input (.inl rfl) named (by decide)
  have output := @nameAfter_self c greater file r.output none
  simp only [after, takeOutput, inputs, outputs, input, output, Nat.add_assoc, Nat.add_comm 1]

end Redirection

/-- The loop over the tokens for any record of its variables: what a pass of each kind makes of them. -/
structure Reader (σ : Type) where
  run : List Word → σ → σ
  finish : List Word → σ → σ
  pipe : σ → σ
  word : σ → Word → σ
  redirection : σ → Redirection
  redirect : Redirection → σ → σ
  finish_cons : ∀ token rest s, finish (token :: rest) s = s
  run_nil : ∀ s, run [] s = s
  run_bar : ∀ rest s, run (bar :: rest) s = run rest (finish rest (pipe s))
  run_word : ∀ {token} rest s, token ≠ bar → ¬ Redirects token → run (token :: rest) s = run rest (finish rest (word s token))
  run_less : ∀ {file} rest s, file ≠ [] ∧ ¬ Redirects file → (redirection s).countInput = 0 →
    run (less :: file :: rest) s = run rest (finish rest (redirect ((redirection s).takeInput file) s))
  run_greater : ∀ {file} rest s, file ≠ [] ∧ ¬ Redirects file → (redirection s).countOutput = 0 →
    run (greater :: file :: rest) s = run rest (finish rest (redirect ((redirection s).takeOutput file) s))
  pipe_zero : ∀ s, (redirection (pipe s)).countInput = 0 ∧ (redirection (pipe s)).countOutput = 0
  word_redirection : ∀ s token, redirection (word s token) = redirection s
  word_redirect : ∀ s token r, word (redirect r s) token = redirect r (word s token)
  redirection_redirect : ∀ s r, redirection (redirect r s) = r
  redirect_redirect : ∀ s r r', redirect r (redirect r' s) = redirect r s
  redirect_same : ∀ s, redirect (redirection s) s = s

namespace Reader
variable {σ : Type} (R : Reader σ)

def input (s : σ) (file : Word) : σ := R.redirect ((R.redirection s).takeInput file) s

def output (s : σ) (file : Word) : σ := R.redirect ((R.redirection s).takeOutput file) s

/-- The passes over the tokens of a command, as the language means them. -/
def apply : List Word → σ → σ
  | [], s => s
  | [word], s => if Redirects word then s else R.word s word
  | word :: following :: rest, s =>
    if Redirects word then apply rest (if word = less then R.input s following else R.output s following)
    else apply (following :: rest) (R.word s word)

/-- One command after the other, with a `|` between them and the end of the line behind the last. -/
def applyLine : List (List Word) → σ → σ
  | [], s => s
  | [c], s => R.finish [] (R.apply c s)
  | c :: following :: more, s => applyLine (following :: more) (R.pipe (R.apply c s))

variable {R} {s : σ} {c rest : List Word}

theorem apply_word {word : Word} (harmless : ¬ Redirects word) :
    R.apply (word :: c) s = R.apply c (R.word s word) := by
  cases c with
  | nil => simp only [apply, if_neg harmless]
  | cons following c => simp only [apply, if_neg harmless]

theorem apply_less {file : Word} : R.apply (less :: file :: c) s = R.apply c (R.input s file) := by
  rw [apply, if_pos (.inl rfl), if_pos rfl]

theorem apply_greater {file : Word} : R.apply (greater :: file :: c) s = R.apply c (R.output s file) := by
  rw [apply, if_pos (.inr rfl), if_neg (by decide)]

/-- The redirections of a command and its words do not get into each other's way. -/
theorem foldl_word (words : List Word) (r : Redirection) :
    words.foldl R.word (R.redirect r s) = R.redirect r (words.foldl R.word s) := by
  induction words generalizing s with
  | nil => rfl
  | cons word words ih => rw [List.foldl_cons, R.word_redirect, ih, List.foldl_cons]

/-- What a well-formed command does: its words are read in order, and its files become the files of the command. -/
theorem apply_eq (followed : Followed c) (oneInput : c.count less ≤ 1) (oneOutput : c.count greater ≤ 1) :
    R.apply c s = R.redirect ((R.redirection s).after c) ((remaining c).foldl R.word s) := by
  induction c using remaining.induct generalizing s with
  | case1 =>
    rw [Redirection.after_nil]
    exact (R.redirect_same s).symm
  | case2 op operator =>
    obtain ⟨file, none, -⟩ := followed 0 op rfl operator
    cases none
  | case3 plain harmless =>
    rw [apply_word harmless, apply, Redirection.after_word harmless, Redirection.after_nil, remaining_word harmless,
      ← R.word_redirection s plain]
    exact (R.redirect_same _).symm
  | case4 op file c operator ih =>
    obtain ⟨_, found, harmless, -⟩ := followed 0 op rfl operator
    obtain rfl : file = _ := Option.some.inj found
    rw [remaining_redirect operator]
    rcases operator with rfl | rfl
    · rw [(counts_less harmless).1] at oneInput
      rw [(counts_less harmless).2] at oneOutput
      rw [apply_less, ih followed.tail.tail (by omega) oneOutput, input, foldl_word, R.redirection_redirect,
        R.redirect_redirect, Redirection.after_less harmless (List.count_eq_zero.mp (by omega))]
    · rw [(counts_greater harmless).1] at oneInput
      rw [(counts_greater harmless).2] at oneOutput
      rw [apply_greater, ih followed.tail.tail oneInput (by omega), output, foldl_word, R.redirection_redirect,
        R.redirect_redirect, Redirection.after_greater harmless (List.count_eq_zero.mp (by omega))]
  | case5 plain following c harmless ih =>
    rw [(counts_word harmless).1] at oneInput
    rw [(counts_word harmless).2] at oneOutput
    rw [apply_word harmless, ih followed.tail oneInput oneOutput, R.word_redirection, Redirection.after_word harmless,
      remaining_word harmless, List.foldl_cons]

/-- The loop reads a well-formed command as the language means it. -/
theorem stage (words : ∀ word ∈ c, word ≠ [] ∧ word ≠ bar) (followed : Followed c)
    (oneInput : (R.redirection s).countInput + c.count less ≤ 1)
    (oneOutput : (R.redirection s).countOutput + c.count greater ≤ 1) :
    R.run (c ++ rest) (R.finish (c ++ rest) s) = R.run rest (R.finish rest (R.apply c s)) := by
  induction c using remaining.induct generalizing s with
  | case1 => rfl
  | case2 word operator =>
    obtain ⟨file, none, -⟩ := followed 0 word rfl operator
    cases none
  | case3 word harmless =>
    have plain := (words word List.mem_cons_self).2
    rw [List.cons_append, List.nil_append, R.finish_cons, R.run_word _ _ plain harmless, apply_word harmless, apply]
  | case4 word file c operator ih =>
    obtain ⟨_, found, harmless, -⟩ := followed 0 word rfl operator
    obtain rfl : file = _ := Option.some.inj found
    have named : file ≠ [] ∧ ¬ Redirects file := ⟨(words file (by simp)).1, harmless⟩
    have later : ∀ word ∈ c, word ≠ [] ∧ word ≠ bar := fun word member =>
      words word (List.mem_cons_of_mem _ (List.mem_cons_of_mem _ member))
    rcases operator with rfl | rfl
    · rw [(counts_less harmless).1] at oneInput
      rw [(counts_less harmless).2] at oneOutput
      rw [List.cons_append, List.cons_append, R.finish_cons, R.run_less _ _ named (by omega), apply_less]
      refine ih later followed.tail.tail ?_ ?_ <;> rw [R.redirection_redirect, Redirection.takeInput] <;>
        dsimp only <;> omega
    · rw [(counts_greater harmless).1] at oneInput
      rw [(counts_greater harmless).2] at oneOutput
      rw [List.cons_append, List.cons_append, R.finish_cons, R.run_greater _ _ named (by omega), apply_greater]
      refine ih later followed.tail.tail ?_ ?_ <;> rw [R.redirection_redirect, Redirection.takeOutput] <;>
        dsimp only <;> omega
  | case5 word following c harmless ih =>
    have plain := (words word List.mem_cons_self).2
    rw [(counts_word harmless).1] at oneInput
    rw [(counts_word harmless).2] at oneOutput
    rw [List.cons_append, R.finish_cons, R.run_word _ _ plain harmless, apply_word harmless]
    refine ih (fun word member => words word (List.mem_cons_of_mem _ member)) followed.tail ?_ ?_ <;>
      rwa [R.word_redirection]

/-- The loop reads a well-formed line command by command. -/
theorem line {parts : List (List Word)} (some : parts ≠ []) (formed : ∀ c ∈ parts, WellFormed c)
    (words : ∀ c ∈ parts, ∀ word ∈ c, word ≠ [] ∧ word ≠ bar) (inputs : (R.redirection s).countInput = 0)
    (outputs : (R.redirection s).countOutput = 0) :
    R.run ([bar].intercalate parts) s = R.applyLine parts s := by
  induction parts generalizing s with
  | nil => exact absurd rfl some
  | cons c more ih =>
    have here := formed c List.mem_cons_self
    obtain ⟨first, others, shape⟩ := List.exists_cons_of_ne_nil here.ne_nil
    have stage := fun rest => @stage σ R s c rest (words c List.mem_cons_self) here.followed
      (by rw [inputs, Nat.zero_add]; exact here.oneInput) (by rw [outputs, Nat.zero_add]; exact here.oneOutput)
    have begin : ∀ rest, R.finish (c ++ rest) s = s := by
      intro rest
      rw [shape]
      exact R.finish_cons _ _ _
    simp only [begin] at stage
    cases more with
    | nil =>
      have all := stage []
      rw [List.append_nil, R.run_nil] at all
      rw [List.intercalate_singleton, all, applyLine]
    | cons following more =>
      have line : [bar].intercalate (c :: following :: more) = c ++ bar :: [bar].intercalate (following :: more) := by
        rw [List.intercalate_cons_cons, List.append_assoc]
        rfl
      have going : ∃ token tokens, [bar].intercalate (following :: more) = token :: tokens := by
        obtain ⟨word, others, shape⟩ := List.exists_cons_of_ne_nil (formed following (by simp)).ne_nil
        cases more with
        | nil => exact ⟨word, others, by simp [shape]⟩
        | cons last more => exact ⟨word, _, by rw [List.intercalate_cons_cons, shape]; rfl⟩
      obtain ⟨token, tokens, going⟩ := going
      obtain ⟨inputs, outputs⟩ := R.pipe_zero (R.apply c s)
      have rest := ih (by simp) (fun c member => formed c (List.mem_cons_of_mem _ member))
        (fun c member => words c (List.mem_cons_of_mem _ member)) inputs outputs
      rw [line, stage, R.finish_cons, R.run_bar, applyLine, ← rest, going, R.finish_cons]

end Reader

section Stage
variable {c rest : List Word} {p : Parse}

/-- What a well-formed command adds to the variables of the loop. -/
def Parse.take (p : Parse) (c : List Word) : Parse where
  commands := p.commands
  argv := p.argv ++ (remaining c).map cStr
  input := if less ∈ c then fileAfter less c else p.input
  output := if greater ∈ c then fileAfter greater c else p.output
  countInput := p.countInput + c.count less
  countOutput := p.countOutput + c.count greater
  cerr := p.cerr

theorem tokenLoop_word {word : Word} (plain : word ≠ bar) (harmless : ¬ Redirects word) :
    tokenLoop (word :: rest) p = tokenLoop rest ((p.addWord word).finish rest) := by
  simp only [tokenLoop, Parse.pass, if_neg plain, if_neg harmless]

theorem tokenLoop_bar : tokenLoop (bar :: rest) p = tokenLoop rest (p.pipe.finish rest) := by
  simp only [tokenLoop, Parse.pass, if_pos]

/-- A redirection operator takes the word after it. -/
theorem pass_redirect {op file : Word} (operator : Redirects op) (named : file ≠ [] ∧ ¬ Redirects file) :
    p.pass op (some file) = if op = less then p.takeInput file else p.takeOutput file := by
  simp only [Parse.pass, if_neg operator.ne_bar, if_pos operator, if_pos (isFile_iff.mpr named)]

theorem tokenLoop_less {file : Word} (named : file ≠ [] ∧ ¬ Redirects file) (first : p.countInput = 0) :
    tokenLoop (less :: file :: rest) p =
      tokenLoop rest ({ p with countInput := p.countInput + 1, input := file }.finish rest) := by
  simp only [tokenLoop, List.head?_cons, pass_redirect (.inl rfl) named, if_true, Parse.takeInput, first,
    if_neg (show ¬ 0 + 1 > 1 by decide)]

theorem tokenLoop_greater {file : Word} (named : file ≠ [] ∧ ¬ Redirects file) (first : p.countOutput = 0) :
    tokenLoop (greater :: file :: rest) p =
      tokenLoop rest ({ p with countOutput := p.countOutput + 1, output := file }.finish rest) := by
  simp only [tokenLoop, List.head?_cons, pass_redirect (.inr rfl) named, if_neg (show greater ≠ less by decide),
    Parse.takeOutput, first, if_neg (show ¬ 0 + 1 > 1 by decide)]

theorem Parse.finish_cons {word : Word} : p.finish (word :: rest) = p := rfl

def Parse.redirection (p : Parse) : Redirection := ⟨p.input, p.output, p.countInput, p.countOutput⟩

def Parse.redirect (r : Redirection) (p : Parse) : Parse :=
  { p with input := r.input, output := r.output, countInput := r.countInput, countOutput := r.countOutput }

/-- The loop of the code as a reader. -/
def Parse.reader : Reader Parse where
  run := tokenLoop
  finish := finish
  pipe := pipe
  word := addWord
  redirection := redirection
  redirect := redirect
  finish_cons _ _ _ := rfl
  run_nil _ := rfl
  run_bar _ _ := tokenLoop_bar
  run_word _ _ := tokenLoop_word
  run_less _ _ := tokenLoop_less
  run_greater _ _ := tokenLoop_greater
  pipe_zero _ := ⟨rfl, rfl⟩
  word_redirection _ _ := rfl
  word_redirect _ _ _ := rfl
  redirection_redirect _ _ := rfl
  redirect_redirect _ _ _ := rfl
  redirect_same _ := rfl

theorem Parse.foldl_addWord (words : List Word) :
    words.foldl addWord p = { p with argv := p.argv ++ words.map cStr } := by
  induction words generalizing p with
  | nil => rw [List.map_nil, List.append_nil]; rfl
  | cons word words ih => rw [List.foldl_cons, ih, addWord, List.append_assoc]; rfl

theorem Parse.apply_take (formed : WellFormed c) : Parse.reader.apply c p = p.take c := by
  rw [Reader.apply_eq formed.followed formed.oneInput formed.oneOutput]
  change redirect _ ((remaining c).foldl addWord p) = _
  rw [foldl_addWord]
  rfl

end Stage

section Line
variable {ts : List Word}

/-- The commands hold the tokens of the line other than `|`. -/
theorem mem_stages {c : List Word} (part : c ∈ stages ts) : ∀ word ∈ c, word ∈ ts ∧ word ≠ bar := by
  unfold stages at part
  induction ts generalizing c with
  | nil =>
    obtain rfl := List.mem_singleton.mp part
    nofun
  | cons token ts ih =>
    have later : ∀ c ∈ ts.splitOn bar, ∀ word ∈ c, word ∈ token :: ts ∧ word ≠ bar := fun c part word member =>
      ⟨List.mem_cons_of_mem _ (ih part word member).1, (ih part word member).2⟩
    rw [List.splitOn_cons_eq_if_modifyHead] at part
    split at part
    · rcases List.mem_cons.mp part with rfl | part
      · nofun
      · exact later c part
    · rename_i other
      cases parts : ts.splitOn bar with
      | nil => exact absurd parts (List.splitOn_ne_nil _ _)
      | cons first more =>
        rw [parts, List.modifyHead_cons] at part
        rw [parts] at later
        rcases List.mem_cons.mp part with rfl | part
        · intro word member
          rcases List.mem_cons.mp member with rfl | member
          · exact ⟨List.mem_cons_self, fun same => other (beq_iff_eq.mpr same)⟩
          · exact later first List.mem_cons_self word member
        · exact later c (List.mem_cons_of_mem _ part)

/-- The variables of the loop before a command of its own. -/
def Parse.after (commands : List Command) : Parse := ⟨commands, [], [], [], 0, 0, []⟩

theorem Parse.take_after (commands : List Command) (c : List Word) :
    (((Parse.after commands).take c).store).commands = commands ++ [commandOf c] := by
  have input := @nameAfter_empty c less
  have output := @nameAfter_empty c greater
  unfold nameAfter at input output
  simp only [Parse.store, Parse.take, Parse.after, input, output, List.nil_append, commandOf]

theorem applyLine_after {parts : List (List Word)} (some : parts ≠ []) (formed : ∀ c ∈ parts, WellFormed c) :
    ∀ commands, (Parse.reader.applyLine parts (.after commands)).commands = commands ++ parts.map commandOf ∧
      (Parse.reader.applyLine parts (.after commands)).cerr = [] := by
  induction parts with
  | nil => exact absurd rfl some
  | cons c more ih =>
    intro commands
    have here := @Parse.apply_take c (.after commands) (formed c List.mem_cons_self)
    cases more with
    | nil =>
      rw [Reader.applyLine, here]
      exact ⟨Parse.take_after commands c, rfl⟩
    | cons following more =>
      have fresh : ((Parse.after commands).take c).pipe = .after (commands ++ [commandOf c]) := by
        rw [← Parse.take_after]
        rfl
      have rest := ih (by simp) (fun c member => formed c (List.mem_cons_of_mem _ member)) (commands ++ [commandOf c])
      rw [List.append_assoc] at rest
      rw [Reader.applyLine, here]
      change (Parse.reader.applyLine (following :: more) ((Parse.after commands).take c).pipe).commands = _ ∧
        (Parse.reader.applyLine (following :: more) ((Parse.after commands).take c).pipe).cerr = []
      rw [fresh]
      exact rest

/-- A command without redirections is well formed. -/
theorem wellFormed_plain {c : List Word} (some : c ≠ []) (plain : ∀ word ∈ c, ¬ Redirects word) : WellFormed c := by
  have left : remaining c ≠ [] := by
    cases c with
    | nil => exact absurd rfl some
    | cons word c =>
      have harmless := plain word List.mem_cons_self
      cases c with
      | nil => simp [remaining, harmless]
      | cons _ _ => simp [remaining, harmless]
  have input : c.count less = 0 := List.count_eq_zero.mpr fun member => plain less member (.inl rfl)
  have output : c.count greater = 0 := List.count_eq_zero.mpr fun member => plain greater member (.inr rfl)
  exact ⟨fun i op found operator => absurd operator (plain op (List.mem_of_getElem? found)), by omega, by omega, left⟩

/-- A line is well formed if all its commands are. -/
def WellFormedLine (command : List Char) : Prop := ∀ c ∈ stages (tokens command), WellFormed c

theorem wellFormedLine_pair : WellFormedLine "a | b".toList := by
  intro c member
  have two : stages (tokens "a | b".toList) = [[['a']], [['b']]] := by decide
  rw [two] at member
  simp only [List.mem_cons, List.not_mem_nil, or_false] at member
  rcases member with rfl | rfl
  · exact wellFormed_plain (by decide) (by decide)
  · exact wellFormed_plain (by decide) (by decide)

/-- Three commands, the first with an input file and the last with an output file. -/
theorem wellFormedLine_triple : WellFormedLine "a < f | b | c > g".toList := by
  intro c member
  have three : stages (tokens "a < f | b | c > g".toList) =
      [[['a'], less, ['f']], [['b']], [['c'], greater, ['g']]] := by
    decide
  rw [three] at member
  simp only [List.mem_cons, List.not_mem_nil, or_false] at member
  rcases member with rfl | rfl | rfl
  · exact ⟨(Followed.nil.redirect (by decide) (by decide)).word (by decide), by decide, by decide, by decide⟩
  · exact wellFormed_plain (by decide) (by decide)
  · exact ⟨(Followed.nil.redirect (by decide) (by decide)).word (by decide), by decide, by decide, by decide⟩

/-- The number of commands of a line. -/
def numStages (command : List Char) : Nat := (stages (tokens command)).length

/-- A well-formed line is read as it is meant, without a message. -/
theorem parse_wellFormed {command : List Char} (formed : WellFormedLine command) :
    (parse command).commands = (stages (tokens command)).map commandOf ∧ (parse command).cerr = [] := by
  have whole : [bar].intercalate (stages (tokens command)) = tokens command := List.intercalate_splitOn bar
  have words : ∀ c ∈ stages (tokens command), ∀ word ∈ c, word ≠ [] ∧ word ≠ bar := fun c part word member =>
    ⟨tokens_ne_nil (mem_stages part word member).1, (mem_stages part word member).2⟩
  have read := @Reader.line Parse Parse.reader .start (stages (tokens command))
      (List.splitOn_ne_nil _ _) formed words rfl rfl
  rw [whole] at read
  have value := applyLine_after (List.splitOn_ne_nil bar (tokens command)) formed []
  rw [parse, strings_eq_tokens]
  change tokenLoop (tokens command) .start = _ at read
  rw [read]
  exact value

end Line

end OsLabs.Shell
