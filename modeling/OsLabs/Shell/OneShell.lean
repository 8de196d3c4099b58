import OsLabs.Shell.Processes

namespace OsLabs.Shell
open Descriptors

/-- The command that a process has started. -/
def Ended.started (e : Ended) : Option Nat :=
  match e.fate with
  | .execs k => some k
  | .returns | .exits | .aborts => none

/-- Only the original shell comes back to the prompt, and once; every child ends by its program or by
`exit`; no child has forked; no command is started twice. -/
structure OneShell (es : List Ended) : Prop where
  original : ∃ e ∈ es, e.process.path = [] ∧ e.fate = .returns
  single : (es.filter fun e => e.fate = .returns).length = 1
  children : ∀ e ∈ es, e.process.path ≠ [] → (∃ k, e.fate = .execs k) ∨ e.fate = .exits
  flat : ∀ e ∈ es, e.process.path.length ≤ 1
  once : (es.filterMap Ended.started).Nodup

/-- The files of command `k` open and its program starts, in the child that the shell forks for it. -/
def Starts (K : Kernel) (k : Nat) (c : Command) : Prop :=
  (c.input ≠ [] → K.openIn [k] = true) ∧ (c.output ≠ [] → K.openOut [k] = true) ∧ K.execv [k] = true

section Child
variable {K : Kernel} {numPipes k fd : Nat} {pipeFds : Nat → Nat} {c : Command} {p : Process} {ok : Bool}
    {name : Word}

/-- Whether a redirection succeeds is the outcome of its `open`. -/
theorem redirect_cases (room : fd < K.limit) :
    (∃ q, redirect K ok fd name p = .execs q ∧ q.path = p.path ∧ (name ≠ [] → ok = true)) ∨
      ∃ q, redirect K ok fd name p = .goesOn q ∧ q.path = p.path ∧ name ≠ [] ∧ ok = false := by
  unfold redirect
  by_cases named : name ≠ []
  · rw [if_pos named]
    cases ok with
    | true =>
      obtain ⟨found, free⟩ := Table.lowest_some (Table.close_self (t := p.fds)) room
      rw [if_pos rfl, free]
      exact .inl ⟨_, rfl, rfl, fun _ => rfl⟩
    | false => exact .inr ⟨_, rfl, rfl, named, rfl⟩
  · rw [if_neg named]
    exact .inl ⟨p, rfl, rfl, fun some => absurd some named⟩

/-- The child for command `k` comes to its program if nothing fails, and else goes on in the loop. -/
theorem runChild_cases (forked : p.path = [k]) :
    (∃ q, runChild K numPipes pipeFds k c p = .execs q ∧ q.path = [k] ∧ Starts K k c) ∨
      ∃ q, runChild K numPipes pipeFds k c p = .goesOn q ∧ q.path = [k] ∧ ¬ Starts K k c := by
  have room := K.room
  unfold runChild prepare
  rw [forked]
  rcases @redirect_cases K 0 (p.install ((attach numPipes pipeFds k p.fds).sweep pipeFds (numPipes * 2)))
    (K.openIn [k]) c.input (by omega) with ⟨q, opened, path, input⟩ | ⟨q, failed, path, named, shut⟩
  · rw [opened, Setup.andThen]
    rcases @redirect_cases K 1 q (K.openOut [k]) c.output (by omega) with
      ⟨r, opened, same, output⟩ | ⟨r, failed, same, named, shut⟩
    · have child : r.path = [k] := same.trans (path.trans forked)
      rw [opened, Setup.andThen, program, child]
      cases found : K.execv [k] with
      | true => exact .inl ⟨_, rfl, child, input, output, found⟩
      | false =>
        refine .inr ⟨_, rfl, child, ?_⟩
        rintro ⟨-, -, program⟩
        cases found.symm.trans program
    · rw [failed, Setup.andThen]
      refine .inr ⟨r, rfl, same.trans (path.trans forked), ?_⟩
      rintro ⟨-, output, -⟩
      cases shut.symm.trans (output named)
  · rw [failed, Setup.andThen, Setup.andThen]
    refine .inr ⟨q, rfl, path.trans forked, ?_⟩
    rintro ⟨input, -⟩
    cases shut.symm.trans (input named)

end Child

section Loop
variable {K : Kernel} {command : List Char} {pipeFds : Nat → Nat} {commands cs : List Command} {p : Process}
    {k j : Nat}
  {c : Command}

/-- A child that fails comes back to the prompt. -/
theorem forkLoop_second_shell (going : command ≠ "exit".toList) (shell : p.path = []) (found : cs[j]? = some c)
    (words : c.argv ≠ []) (forked : K.fork [] (k + j) = true) (fails : ¬ Starts K (k + j) c) :
    ∃ e ∈ forkLoop K command pipeFds commands k cs p, e.process.path = [k + j] ∧ e.fate = .returns := by
  induction j generalizing cs k p with
  | zero =>
    rw [← List.head?_eq_getElem?, List.head?_eq_some_iff] at found
    obtain ⟨rest, rfl⟩ := found
    rw [Nat.add_zero] at *
    rw [forkLoop_forked words going (by rw [shell]; exact forked)]
    rcases @runChild_cases K (commands.length - 1) k pipeFds c (p.child k) (by rw [Process.child, shell]) with
      ⟨q, -, -, starts⟩ | ⟨q, goesOn, path, -⟩
    · exact absurd starts fails
    · rw [goesOn]
      obtain ⟨e, member, returns, same, -⟩ := @forkLoop_self K command pipeFds commands rest q (k + 1) going
      exact ⟨e, List.mem_append_left _ member, same.trans path, returns⟩
  | succ j ih =>
    cases cs with
    | nil => cases found
    | cons d rest =>
      rw [← Nat.succ_add_eq_add_succ] at forked fails ⊢
      by_cases bare : d.argv = []
      · rw [forkLoop_bare bare]
        exact ih (by exact shell) found forked fails
      · cases outcome : K.fork p.path k with
        | false =>
          rw [forkLoop_failed bare going outcome]
          exact ih (by exact shell) found forked fails
        | true =>
          rw [forkLoop_forked bare going outcome]
          obtain ⟨e, member, rest⟩ := @ih rest (p.call (.fork k true)) (k + 1) (by exact shell) found forked fails
          exact ⟨e, List.mem_append_right _ member, rest⟩

/-- If no child fails, the loop leaves the shell and the started commands, each by its own child. -/
theorem forkLoop_children (going : command ≠ "exit".toList) (shell : p.path = [])
    (start : ∀ j c, cs[j]? = some c → c.argv ≠ [] → K.fork [] (k + j) = true → Starts K (k + j) c) :
    ∃ children q, forkLoop K command pipeFds commands k cs p = children ++ [leave K pipeFds commands q] ∧
      q.path = [] ∧
      (∀ e ∈ children, ∃ j, k ≤ j ∧ e.process.path = [j] ∧ e.fate = .execs j) ∧
      (children.filterMap Ended.started).Pairwise (· < ·) := by
  induction cs generalizing k p with
  | nil => exact ⟨[], p, rfl, shell, nofun, .nil⟩
  | cons c cs ih =>
    have later : ∀ j d, cs[j]? = some d → d.argv ≠ [] → K.fork [] (k + 1 + j) = true → Starts K (k + 1 + j) d := by
      intro j d found
      rw [Nat.succ_add_eq_add_succ]
      exact start (j + 1) d found
    have step : ∀ q : Process, q.path = [] → ∃ children r,
        forkLoop K command pipeFds commands (k + 1) cs q = children ++ [leave K pipeFds commands r] ∧ r.path = [] ∧
        (∀ e ∈ children, ∃ j, k + 1 ≤ j ∧ e.process.path = [j] ∧ e.fate = .execs j) ∧
        (children.filterMap Ended.started).Pairwise (· < ·) := fun q path => ih path later
    have weaken : ∀ children : List Ended,
        (∀ e ∈ children, ∃ j, k + 1 ≤ j ∧ e.process.path = [j] ∧ e.fate = .execs j) →
        ∀ e ∈ children, ∃ j, k ≤ j ∧ e.process.path = [j] ∧ e.fate = .execs j := by
      intro children each e member
      obtain ⟨j, bound, rest⟩ := each e member
      exact ⟨j, by omega, rest⟩
    by_cases bare : c.argv = []
    · rw [forkLoop_bare bare]
      obtain ⟨children, r, shape, path, each, order⟩ := step (p.call (.cerr "invalid command\n")) shell
      exact ⟨children, r, shape, path, weaken children each, order⟩
    · cases outcome : K.fork p.path k with
      | false =>
        rw [forkLoop_failed bare going outcome]
        obtain ⟨children, r, shape, path, each, order⟩ :=
          step ((p.call (.fork k false)).call (.cerr "Fork Error.\n")) shell
        exact ⟨children, r, shape, path, weaken children each, order⟩
      | true =>
        rw [forkLoop_forked bare going outcome]
        rcases @runChild_cases K (commands.length - 1) k pipeFds c (p.child k) (by rw [Process.child, shell]) with
          ⟨q, execs, child, -⟩ | ⟨q, -, -, fails⟩
        · rw [execs]
          obtain ⟨children, r, shape, path, each, order⟩ := step (p.call (.fork k true)) shell
          refine ⟨⟨q, .execs k⟩ :: children, r, by rw [shape]; rfl, path, ?_, ?_⟩
          · intro e member
            rcases List.mem_cons.mp member with rfl | member
            · exact ⟨k, Nat.le_refl k, child, rfl⟩
            · exact weaken children each e member
          · refine List.pairwise_cons.mpr ⟨?_, order⟩
            intro j started
            obtain ⟨e, member, named⟩ := List.mem_filterMap.mp started
            obtain ⟨i, bound, -, fate⟩ := each e member
            rw [Ended.started, fate] at named
            obtain rfl := Option.some.inj named
            omega
        · rw [shell] at outcome
          exact absurd (start 0 c rfl bare outcome) fails

end Loop

/-- The children that have started, with the shell that returns. -/
theorem oneShell_of_children {K : Kernel} {commands : List Command} {pipeFds : Nat → Nat} {children : List Ended}
    {q : Process} (shell : q.path = []) (each : ∀ e ∈ children, ∃ j, e.process.path = [j] ∧ e.fate = .execs j)
    (order : (children.filterMap Ended.started).Pairwise (· < ·)) :
    OneShell (children ++ [leave K pipeFds commands q]) := by
  have none : children.filter (fun e => e.fate = .returns) = [] := by
    refine List.filter_eq_nil_iff.mpr fun e member => ?_
    obtain ⟨j, -, fate⟩ := each e member
    simp [fate]
  constructor
  · exact ⟨leave K pipeFds commands q, by simp, shell, rfl⟩
  · rw [List.filter_append, none]
    rfl
  · intro e member away
    rcases List.mem_append.mp member with child | last
    · obtain ⟨j, -, fate⟩ := each e child
      exact .inl ⟨j, fate⟩
    · rw [List.mem_singleton.mp last] at away
      exact absurd shell away
  · intro e member
    rcases List.mem_append.mp member with child | last
    · obtain ⟨j, path, -⟩ := each e child
      rw [path]
      exact Nat.le_refl 1
    · rw [List.mem_singleton.mp last]
      have none : q.path.length = 0 := congrArg List.length shell
      exact Nat.le_trans (Nat.le_of_eq none) (Nat.zero_le 1)
  · rw [List.filterMap_append]
    have last : [leave K pipeFds commands q].filterMap Ended.started = [] := rfl
    rw [last, List.append_nil]
    exact order.imp Nat.ne_of_lt

/-- One shell survives a line other than the exit command exactly when the line has a word and in each
child that is forked the files open and the program starts. -/
theorem oneShell_iff (K : Kernel) (fds : Table Object) {command : List Char} (going : command ≠ "exit".toList) :
    OneShell (parseAndRunCommand K fds command) ↔ tokens command ≠ [] ∧
      ∀ k c, (parse command).commands[k]? = some c → c.argv ≠ [] → K.fork [] k = true → Starts K k c := by
  have shellPath : ∀ n, (pipeLoop K { shell fds with calls := (parse command).cerr.map .cerr } n).2.path = [] :=
    fun n => pipeLoop_calls.1
  rw [parseAndRunCommand, ← strings_eq_tokens]
  constructor
  · intro one
    have some : strings command ≠ [] := by
      intro none
      have empty : (parse command).commands = [] := by
        rw [parse, none]
        rfl
      obtain ⟨e, member, -, returns⟩ := one.original
      rw [runCommands, if_pos empty, List.mem_singleton] at member
      rw [member] at returns
      cases returns
    refine ⟨some, ?_⟩
    intro k c found words forked
    by_contra fails
    rw [runCommands, if_neg (parse_commands_ne_nil some)] at one
    rw [← Nat.zero_add k] at forked fails
    obtain ⟨e, member, path, returns⟩ := forkLoop_second_shell going (shellPath _) found words forked fails
    rcases one.children e member (by rw [path]; exact List.cons_ne_nil _ []) with ⟨j, fate⟩ | fate
    · cases returns.symm.trans fate
    · cases returns.symm.trans fate
  · rintro ⟨some, start⟩
    rw [runCommands, if_neg (parse_commands_ne_nil some)]
    obtain ⟨children, q, shape, path, each, order⟩ := forkLoop_children going (shellPath _) fun j c found words => by
      rw [Nat.zero_add]
      exact start j c found words
    rw [shape]
    exact oneShell_of_children path (fun e member => by
      obtain ⟨j, -, rest⟩ := each e member
      exact ⟨j, rest⟩) order

/-- A single program that starts leaves one shell. -/
theorem oneShell_smooth : OneShell (parseAndRunCommand smooth terminal "a".toList) := by
  refine (oneShell_iff smooth terminal (by decide)).mpr ⟨by decide, ?_⟩
  intro k c _ _ _
  exact ⟨fun _ => rfl, fun _ => rfl, rfl⟩

/-- When the program does not start, two shells read the next line. -/
theorem failed_execv_second_shell :
    ¬ OneShell (parseAndRunCommand { smooth with execv := fun _ => false } terminal "a".toList) := by
  intro one
  have two : ((parseAndRunCommand { smooth with execv := fun _ => false } terminal "a".toList).filter
      fun e => e.fate = .returns).length = 2 := by decide
  rw [one.single] at two
  cases two

end OsLabs.Shell
