import Mathlib.Tactic.Push
import OsLabs.Shell.Processes

namespace OsLabs.Shell
open Descriptors

/-- No word of the line is left for `execv`: each word stands directly after a `<` or `>` that is the
first of its kind since the last `|`, and a `|` directly after such a `<` or `>` is its file. The two
flags say whether a `<` and a `>` have been seen. -/
def Wordless (input output : Bool) : List Word → Prop
  | [] => True
  | [token] => token = bar ∨ Redirects token
  | token :: following :: rest =>
    if token = bar then Wordless false false (following :: rest)
    else if token = less then
      if Redirects following ∨ input then Wordless input output (following :: rest) else Wordless true output rest
    else if token = greater then
      if Redirects following ∨ output then Wordless input output (following :: rest) else Wordless input true rest
    else False

section Words
variable {ts rest : List Word} {p q : Parse} {token : Word} {skip : Bool}

/-- Some command has a word. -/
def Parse.Full (p : Parse) : Prop := p.argv ≠ [] ∨ ∃ c ∈ p.commands, c.argv ≠ []

theorem Parse.Full.store (full : p.Full) : ∃ c ∈ p.store.commands, c.argv ≠ [] := by
  rcases full with current | ⟨c, stored, words⟩
  · exact ⟨⟨p.argv, p.input, p.output⟩, List.mem_append_right _ (List.mem_singleton.mpr rfl), current⟩
  · exact ⟨c, List.mem_append_left _ stored, words⟩

theorem Parse.Full.pass {following : Option Word} (full : p.Full) : (p.pass token following).1.Full := by
  unfold Parse.pass
  split
  · exact .inr full.store
  · split
    · split
      · split
        · split
          · unfold Parse.takeInput
            split
            · exact full
            · exact full
          · unfold Parse.takeOutput
            split
            · exact full
            · exact full
        · exact full
      · exact full
    · rcases full with current | stored
      · exact .inl (by simp [Parse.addWord])
      · exact .inr stored

/-- A word that is left comes into a command. -/
theorem tokenLoop_full (full : p.Full) : ∃ c ∈ (tokenLoop ts (p.finish ts)).commands, c.argv ≠ [] :=
  @tokenLoop_keeps ts p Parse.Full (fun p => ∃ c ∈ p.commands, c.argv ≠ []) (fun _ _ _ full => Parse.Full.pass full)
    (fun _ full => Parse.Full.store full) full

theorem tokenLoop_dangling (operator : Redirects token) (dangling : ∀ file ∈ rest.head?, Redirects file) :
    tokenLoop (token :: rest) p =
      tokenLoop rest ((p.report "invalid command. (Input token followed by non-word)\n").finish rest) := by
  have other : token ≠ bar := by
    rcases operator with rfl | rfl <;> decide
  cases rest with
  | nil => simp only [tokenLoop, Parse.pass, if_neg other, if_pos operator, List.head?_nil]
  | cons file rest =>
    have refused : ¬ (file ≠ less ∧ file ≠ greater ∧ file ≠ []) := by
      rintro ⟨notLess, notGreater, -⟩
      exact (dangling file rfl).elim notLess notGreater
    simp only [tokenLoop, Parse.pass, if_neg other, if_pos operator, List.head?_cons, if_neg refused]

theorem tokenLoop_less_again {file : Word} (named : file ≠ [] ∧ ¬ Redirects file) (seen : 0 < p.countInput) :
    tokenLoop (less :: file :: rest) p =
      tokenLoop (file :: rest) ({ p with countInput := p.countInput + 1 }.report "invalid command.\n") := by
  have again : p.countInput + 1 > 1 := by omega
  rw [tokenLoop]
  simp only [List.head?_cons, pass_redirect (.inl rfl) named, if_true, Parse.takeInput, if_pos again,
    Parse.finish_cons]

theorem tokenLoop_greater_again {file : Word} (named : file ≠ [] ∧ ¬ Redirects file) (seen : 0 < p.countOutput) :
    tokenLoop (greater :: file :: rest) p =
      tokenLoop (file :: rest) ({ p with countOutput := p.countOutput + 1 }.report "invalid command.\n") := by
  have again : p.countOutput + 1 > 1 := by omega
  rw [tokenLoop]
  simp only [List.head?_cons, pass_redirect (.inr rfl) named, if_neg (show greater ≠ less by decide),
    Parse.takeOutput,
    if_pos again, Parse.finish_cons]

theorem tokenLoop_added : ¬ ∀ c ∈ (tokenLoop rest ((p.addWord token).finish rest)).commands, c.argv = [] := by
  intro none
  have full : (p.addWord token).Full := .inl (by simp [Parse.addWord])
  obtain ⟨c, member, words⟩ := @tokenLoop_full rest _ full
  exact words (none c member)

theorem Parse.store_bare (bare : ¬ p.Full) : ∀ c ∈ p.store.commands, c.argv = [] := by
  intro c member
  by_contra words
  rcases List.mem_append.mp member with old | new
  · exact bare (.inr ⟨c, old, words⟩)
  · rw [List.mem_singleton.mp new] at words
    exact bare (.inl words)

theorem Parse.pipe_bare (bare : ¬ p.Full) : ¬ p.pipe.Full := by
  rintro (current | ⟨c, member, words⟩)
  · exact current rfl
  · exact words (Parse.store_bare bare c member)

/-- The commands have no words when the line leaves none. -/
theorem tokenLoop_bare_iff (named : ∀ token ∈ ts, token ≠ []) (bare : ¬ p.Full) {input output : Bool}
    (inputSeen : input = decide (0 < p.countInput)) (outputSeen : output = decide (0 < p.countOutput)) :
    (∀ c ∈ (tokenLoop ts (p.finish ts)).commands, c.argv = []) ↔ Wordless input output ts := by
  induction input, output, ts using Wordless.induct generalizing p with
  | case1 input output => exact iff_of_true (Parse.store_bare bare) trivial
  | case2 input output token =>
    rw [Parse.finish_cons, Wordless]
    by_cases pipe : token = bar
    · subst pipe
      rw [tokenLoop_bar]
      exact iff_of_true (Parse.store_bare (Parse.pipe_bare bare)) (.inl rfl)
    · by_cases operator : Redirects token
      · rw [tokenLoop_dangling operator (by simp)]
        exact iff_of_true (Parse.store_bare bare) (.inr operator)
      · rw [tokenLoop_word pipe operator]
        exact iff_of_false tokenLoop_added (by rintro (same | same); exacts [pipe same, operator same])
  | case3 input output following rest ih =>
    rw [Parse.finish_cons, Wordless, if_pos rfl, tokenLoop_bar]
    exact ih (fun token member => named token (List.mem_cons_of_mem _ member)) (Parse.pipe_bare bare) rfl rfl
  | case4 input output following rest refused other ih =>
    rw [Parse.finish_cons, Wordless, if_neg other, if_pos rfl, if_pos refused]
    have rests : ∀ token ∈ following :: rest, token ≠ [] :=
      fun token member => named token (List.mem_cons_of_mem _ member)
    by_cases dangling : Redirects following
    · rw [tokenLoop_dangling (.inl rfl) (by simpa using dangling)]
      exact ih rests bare inputSeen outputSeen
    · have seen : 0 < p.countInput := by
        have flag := refused.resolve_left dangling
        rwa [inputSeen, decide_eq_true_iff] at flag
      rw [tokenLoop_less_again ⟨rests following List.mem_cons_self, dangling⟩ seen]
      refine @ih ({ p with countInput := p.countInput + 1 }.report "invalid command.\n") rests bare ?_ outputSeen
      rw [inputSeen]
      exact decide_eq_decide.mpr (iff_of_true seen (Nat.succ_pos _))
  | case5 input output following rest first other ih =>
    rw [Parse.finish_cons, Wordless, if_neg other, if_pos rfl, if_neg first]
    obtain ⟨harmless, unseen⟩ := not_or.mp first
    have zero : p.countInput = 0 := by
      rw [inputSeen, decide_eq_true_iff] at unseen
      omega
    rw [tokenLoop_less ⟨named following (by simp), harmless⟩ zero]
    exact @ih { p with countInput := p.countInput + 1, input := following }
      (fun token member => named token (List.mem_cons_of_mem _ (List.mem_cons_of_mem _ member))) bare
      (decide_eq_true (Nat.succ_pos _)).symm outputSeen
  | case6 input output following rest refused other notLess ih =>
    rw [Parse.finish_cons, Wordless, if_neg other, if_neg notLess, if_pos rfl, if_pos refused]
    have rests : ∀ token ∈ following :: rest, token ≠ [] :=
      fun token member => named token (List.mem_cons_of_mem _ member)
    by_cases dangling : Redirects following
    · rw [tokenLoop_dangling (.inr rfl) (by simpa using dangling)]
      exact ih rests bare inputSeen outputSeen
    · have seen : 0 < p.countOutput := by
        have flag := refused.resolve_left dangling
        rwa [outputSeen, decide_eq_true_iff] at flag
      rw [tokenLoop_greater_again ⟨rests following List.mem_cons_self, dangling⟩ seen]
      refine @ih ({ p with countOutput := p.countOutput + 1 }.report "invalid command.\n") rests bare inputSeen ?_
      rw [outputSeen]
      exact decide_eq_decide.mpr (iff_of_true seen (Nat.succ_pos _))
  | case7 input output following rest first other notLess ih =>
    rw [Parse.finish_cons, Wordless, if_neg other, if_neg notLess, if_pos rfl, if_neg first]
    obtain ⟨harmless, unseen⟩ := not_or.mp first
    have zero : p.countOutput = 0 := by
      rw [outputSeen, decide_eq_true_iff] at unseen
      omega
    rw [tokenLoop_greater ⟨named following (by simp), harmless⟩ zero]
    exact @ih { p with countOutput := p.countOutput + 1, output := following }
      (fun token member => named token (List.mem_cons_of_mem _ (List.mem_cons_of_mem _ member))) bare
      inputSeen (decide_eq_true (Nat.succ_pos _)).symm
  | case8 input output token following rest pipe notLess notGreater =>
    rw [Parse.finish_cons, Wordless, if_neg pipe, if_neg notLess, if_neg notGreater]
    rw [tokenLoop_word pipe (not_or.mpr ⟨notLess, notGreater⟩)]
    exact iff_of_false tokenLoop_added id

end Words

section Refused
variable {K : Kernel} {command : List Char} {pipeFds : Nat → Nat} {commands cs : List Command} {p : Process} {k : Nat}

/-- The line ends in one process, which has reported an error and called neither `fork` nor `open`. -/
def Refused (es : List Ended) : Prop :=
  ∃ e, es = [e] ∧ (∃ text, .cerr text ∈ e.process.calls) ∧
    ∀ call ∈ e.process.calls, (∀ k ok, call ≠ .fork k ok) ∧ ∀ name ok, call ≠ .open name ok

/-- Calls that fork nothing and open nothing. -/
def Harmless (calls : List Call) : Prop := ∀ call ∈ calls, (∀ k ok, call ≠ .fork k ok) ∧ ∀ name ok, call ≠ .open name ok

theorem forkLoop_all_bare (bare : ∀ c ∈ cs, c.argv = []) :
    ∃ q : Process, forkLoop K command pipeFds commands k cs p = [leave K pipeFds commands q] ∧
      q.calls = p.calls ++ List.replicate cs.length (.cerr "invalid command\n") := by
  induction cs generalizing k p with
  | nil => exact ⟨p, rfl, (List.append_nil _).symm⟩
  | cons c cs ih =>
    rw [forkLoop_bare (bare c List.mem_cons_self)]
    obtain ⟨q, ended, calls⟩ := @ih (p.call (.cerr "invalid command\n")) (k + 1) fun c member =>
      bare c (List.mem_cons_of_mem _ member)
    refine ⟨q, ended, ?_⟩
    rw [calls, List.length_cons, List.replicate_succ, Process.call, List.append_assoc]
    rfl

/-- A line whose commands have no words is refused. -/
theorem runCommands_refused (some : commands ≠ []) (bare : ∀ c ∈ commands, c.argv = []) (quiet : Harmless p.calls) :
    Refused (runCommands K command commands p) := by
  obtain ⟨-, more, made, pipes⟩ := @pipeLoop_calls K p (commands.length - 1)
  obtain ⟨q, ended, calls⟩ := @forkLoop_all_bare K command (pipeLoop K p (commands.length - 1)).1 commands commands
    (pipeLoop K p (commands.length - 1)).2 0 bare
  rw [runCommands, if_neg some]
  refine ⟨_, ended, ⟨"invalid command\n", ?_⟩, ?_⟩
  · have one : commands.length ≠ 0 := fun none => some (List.eq_nil_of_length_eq_zero none)
    simp [leave, calls, one]
  · intro call member
    simp only [leave, calls, made, List.mem_append, List.mem_replicate] at member
    rcases member with ((old | pipe) | ⟨-, rfl⟩) | wait
    · exact quiet call old
    · rcases pipes call pipe with ⟨k, ok, rfl⟩ | rfl
      · simp
      · simp
    · simp
    · obtain ⟨name, code, rfl⟩ := waitLoop_calls call wait
      simp

/-- A command with words is forked for, where `fork` succeeds. -/
theorem forkLoop_forks (going : command ≠ "exit".toList) (forks : ∀ path k, K.fork path k = true)
    (words : ∃ c ∈ cs, c.argv ≠ []) :
    ∃ e ∈ forkLoop K command pipeFds commands k cs p, ∃ j, .fork j true ∈ e.process.calls := by
  induction cs generalizing k p with
  | nil =>
    obtain ⟨c, member, -⟩ := words
    cases member
  | cons c cs ih =>
    by_cases bare : c.argv = []
    · rw [forkLoop_bare bare]
      obtain ⟨d, member, has⟩ := words
      rcases List.mem_cons.mp member with rfl | later
      · exact absurd bare has
      · exact ih ⟨d, later, has⟩
    · rw [forkLoop_forked bare going (forks _ _)]
      obtain ⟨e, member, -, -, more, calls⟩ :=
        @forkLoop_self K command pipeFds commands cs (p.call (.fork k true)) (k + 1) going
      exact ⟨e, List.mem_append_right _ member, k, by simp [calls, Process.call]⟩

/-- The exit command is well formed. -/
theorem wellFormedLine_exit : WellFormedLine "exit".toList := by
  intro c member
  have one : stages (tokens "exit".toList) = [["exit".toList]] := by decide
  rw [one, List.mem_singleton] at member
  subst member
  exact wellFormed_plain (by decide) (by decide)

theorem parse_bare_iff (command : List Char) (some : tokens command ≠ []) :
    (∀ c ∈ (parse command).commands, c.argv = []) ↔ Wordless false false (tokens command) := by
  obtain ⟨first, rest, shape⟩ := List.exists_cons_of_ne_nil some
  have start : Parse.start.finish (tokens command) = .start := by
    rw [shape]
    rfl
  have read := @tokenLoop_bare_iff (tokens command) .start (fun token => tokens_ne_nil)
    (by rintro (words | ⟨c, none, -⟩); exacts [words rfl, nomatch none]) false false rfl rfl
  rw [start] at read
  rw [parse, strings_eq_tokens]
  exact read

/-- A malformed line is refused, whatever the system does, exactly when it leaves no word. -/
theorem malformed_refused_iff {command : List Char} (some : tokens command ≠ []) (malformed : ¬ WellFormedLine command) :
    (∀ K fds, Refused (parseAndRunCommand K fds command)) ↔ Wordless false false (tokens command) := by
  rw [← parse_bare_iff command some]
  have going : command ≠ "exit".toList := fun same => malformed (same ▸ wellFormedLine_exit)
  have stored : (parse command).commands ≠ [] := parse_commands_ne_nil (strings_eq_tokens command ▸ some)
  constructor
  · intro refused
    by_contra words
    push Not at words
    obtain ⟨e, ended, -, quiet⟩ := refused smooth fun _ => none
    rw [parseAndRunCommand, runCommands, if_neg stored] at ended
    obtain ⟨e', member, j, forked⟩ := @forkLoop_forks smooth command _ (parse command).commands _ _ 0 going
      (fun _ _ => rfl) words
    rw [ended, List.mem_singleton] at member
    subst member
    exact (quiet _ forked).1 j true rfl
  · intro bare K fds
    refine runCommands_refused stored bare ?_
    intro call member
    obtain ⟨text, -, rfl⟩ := List.mem_map.mp member
    exact ⟨nofun, nofun⟩

/-- A line of redirections only is refused. -/
theorem redirection_refused : Refused (parseAndRunCommand smooth terminal "< a".toList) := by
  have malformed : ¬ WellFormedLine "< a".toList := by
    intro formed
    have one := formed [less, ['a']] (by decide)
    exact one.remains (by decide)
  refine (malformed_refused_iff (by decide) malformed).mpr ?_ smooth terminal
  have two : tokens "< a".toList = [less, ['a']] := by decide
  rw [two]
  simp [Wordless, Redirects, less, greater, bar]

/-- A redirection to nothing is reported, and the command runs nevertheless. -/
theorem dangling_runs : tokens "a <".toList ≠ [] ∧ ¬ WellFormedLine "a <".toList ∧
    ¬ Refused (parseAndRunCommand smooth terminal "a <".toList) := by
  refine ⟨by decide, ?_, ?_⟩
  · intro formed
    have one := formed [['a'], less] (by decide)
    obtain ⟨file, none, -⟩ := one.followed 1 less rfl (.inl rfl)
    cases none
  · rintro ⟨e, ended, -⟩
    have two : (parseAndRunCommand smooth terminal "a <".toList).length = 2 := by decide
    rw [ended] at two
    cases two

end Refused

end OsLabs.Shell
