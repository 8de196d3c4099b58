import OsLabs.Lib.Descriptors
import OsLabs.Shell.Parse

namespace OsLabs.Shell
open Descriptors

/-- What a descriptor may refer to: something the shell had open before the line, a redirection
file, or an end of a pipe of the line. -/
inductive Object
  | inherited (n : Nat)
  | file (name : Word)
  | readEnd (j : Nat)
  | writeEnd (j : Nat)
  deriving DecidableEq

/-- A process is named by the commands it was forked for, the latest first. -/
abbrev Path := List Nat

/-- How the system calls of the processes turn out. A pipe also needs free descriptors below the limit,
which leaves room for the standard ones; `wait` gives the status of the n-th call of a process, or none
without a child. -/
structure Kernel where
  limit : Nat
  room : 2 < limit
  pipe : Nat → Bool
  fork : Path → Nat → Bool
  openIn : Path → Bool
  openOut : Path → Bool
  execv : Path → Bool
  wait : Path → Nat → Option Nat
  /-- What the variable `status` holds before the first `wait`. -/
  status : Nat

/-- What a process does that others can see. -/
inductive Call
  | cerr (text : String)
  | pipe (k : Nat) (ok : Bool)
  | fork (k : Nat) (ok : Bool)
  | open (name : Word) (ok : Bool)
  | execv (argv : List Word) (ok : Bool)
  | cout (name : Option Word) (code : Nat)
  deriving DecidableEq

structure Process where
  path : Path
  fds : Table Object
  calls : List Call

/-- How `parse_and_run_command` ends in a process. -/
inductive Fate
  | returns
  | execs (k : Nat)
  | exits
  | aborts
  deriving DecidableEq

structure Ended where
  process : Process
  fate : Fate

namespace Process

def call (p : Process) (c : Call) : Process := { p with calls := p.calls ++ [c] }

def install (p : Process) (fds : Table Object) : Process := { p with fds := fds }

/-- The child that the process forks for command `k`. -/
def child (p : Process) (k : Nat) : Process := ⟨k :: p.path, p.fds, []⟩

end Process

section Pipes
variable (K : Kernel)

/-- `pipe(&pipe_fds[k*2])` -/
def makePipe (k : Nat) (t : Table Object) : Option (Nat × Nat × Table Object) :=
  if K.pipe k then do
    let r ← t.lowest K.limit
    let w ← (t.install r (.readEnd k)).lowest K.limit
    return (r, w, (t.install r (.readEnd k)).install w (.writeEnd k))
  else none

/-- The loop that fills `pipe_fds`, whose entries are 0 at first. -/
def pipeLoop (p : Process) : Nat → (Nat → Nat) × Process
  | 0 => (fun _ => 0, p)
  | k + 1 =>
    let before := pipeLoop p k
    match makePipe K k before.2.fds with
    | some (r, w, t) =>
      (Function.update (Function.update before.1 (k * 2) r) (k * 2 + 1) w, (before.2.install t).call (.pipe k true))
    | none => (before.1, (before.2.call (.pipe k false)).call (.cerr "Pipe Error\n"))

end Pipes

section Child
variable (K : Kernel) (numPipes : Nat) (pipeFds : Nat → Nat)

/-- The pipes of child `k` become its standard input and output. -/
def attach (k : Nat) (t : Table Object) : Table Object :=
  if numPipes = 0 then t
  else if k = 0 then ((t.dup2 (pipeFds (k * 2 + 1)) 1).close (pipeFds (k * 2 + 1))).close (pipeFds (k * 2))
  else if k = numPipes then
    ((t.close (pipeFds ((k - 1) * 2 + 1))).dup2 (pipeFds ((k - 1) * 2)) 0).close (pipeFds ((k - 1) * 2))
  else if 0 < k ∧ k < numPipes then (t.dup2 (pipeFds ((k - 1) * 2)) 0).dup2 (pipeFds (k * 2 + 1)) 1
  else t

/-- How far a child comes: to its program, or on in the loop over the commands. -/
inductive Setup
  | execs (p : Process)
  | goesOn (p : Process)

/-- `close(fd)` and `open` of a redirection, if the command has one. -/
def redirect (ok : Bool) (fd : Nat) (name : Word) (p : Process) : Setup :=
  if name ≠ [] then
    match (if ok then (p.fds.close fd).lowest K.limit else none) with
    | some found => .execs ((p.install ((p.fds.close fd).install found (.file (cStr name)))).call (.open (cStr name) true))
    | none => .goesOn (((p.install (p.fds.close fd)).call (.open (cStr name) false)).call (.cerr "invalid command"))
  else .execs p

/-- `execv` of the command. -/
def program (c : Command) (p : Process) : Setup :=
  if K.execv p.path then .execs (p.call (.execv c.argv true))
  else .goesOn ((p.call (.execv c.argv false)).call
    (.cerr "Exit Status 255 (Command not found). Error preventing running the executable.\n"))

def Setup.process : Setup → Process
  | .execs p => p
  | .goesOn p => p

/-- What follows a step of the child that may fail. -/
def Setup.andThen : Setup → (Process → Setup) → Setup
  | .execs p, following => following p
  | .goesOn p, _ => .goesOn p

/-- The branch of the child for command `k` up to its `execv`. -/
def prepare (k : Nat) (c : Command) (p : Process) : Setup :=
  (redirect K (K.openIn p.path) 0 c.input
    (p.install ((attach numPipes pipeFds k p.fds).sweep pipeFds (numPipes * 2)))).andThen
      (redirect K (K.openOut p.path) 1 c.output)

/-- The branch of the child for command `k`. -/
def runChild (k : Nat) (c : Command) (p : Process) : Setup := (prepare K numPipes pipeFds k c p).andThen (program K c)

end Child

section Loops
variable (K : Kernel)

def WIFEXITED (status : Nat) : Prop := status % 128 = 0

instance (status : Nat) : Decidable (WIFEXITED status) := inferInstanceAs (Decidable (_ = _))

def WEXITSTATUS (status : Nat) : Nat := status / 256 % 256

/-- The loop over `wait`: `answer` is what each call gives, `status` what the variable holds. -/
def waitLoop (answer : Nat → Option Nat) : Nat → List Command → Nat → List Call
  | _, [], _ => []
  | k, c :: rest, status =>
    let status := (answer k).getD status
    if WIFEXITED status then .cout c.argv.head? (WEXITSTATUS status) :: waitLoop answer (k + 1) rest status
    else waitLoop answer (k + 1) rest status

/-- After the fork loop: the pipes are closed, and the process waits. -/
def leave (pipeFds : Nat → Nat) (commands : List Command) (p : Process) : Ended where
  process :=
    { path := p.path
      fds := p.fds.closeAll pipeFds ((commands.length - 1) * 2)
      calls := p.calls ++ waitLoop (K.wait p.path) 0 commands K.status }
  fate := .returns

/-- The loop over the commands from command `k` on, with all the processes that come of it. -/
def forkLoop (command : List Char) (pipeFds : Nat → Nat) (commands : List Command) :
    Nat → List Command → Process → List Ended
  | _, [], p => [leave K pipeFds commands p]
  | k, c :: rest, p =>
    if c.argv = [] then forkLoop command pipeFds commands (k + 1) rest (p.call (.cerr "invalid command\n"))
    else if command = "exit".toList then [⟨p, .exits⟩]
    else if K.fork p.path k then
      (match runChild K (commands.length - 1) pipeFds k c (p.child k) with
        | .execs q => [⟨q, .execs k⟩]
        | .goesOn q => forkLoop command pipeFds commands (k + 1) rest q) ++
        forkLoop command pipeFds commands (k + 1) rest (p.call (.fork k true))
    else forkLoop command pipeFds commands (k + 1) rest ((p.call (.fork k false)).call (.cerr "Fork Error.\n"))

/-- Without a command `vector<int> pipe_fds(-2)` throws, and nothing catches. -/
def runCommands (command : List Char) (commands : List Command) (p : Process) : List Ended :=
  if commands = [] then [⟨p, .aborts⟩]
  else
    let pipes := pipeLoop K p (commands.length - 1)
    forkLoop K command pipes.1 commands 0 commands pipes.2

/-- The original shell, with its descriptors. -/
def shell (fds : Table Object) : Process := ⟨[], fds, []⟩

def parseAndRunCommand (fds : Table Object) (command : List Char) : List Ended :=
  runCommands K command (parse command).commands { shell fds with calls := (parse command).cerr.map .cerr }

end Loops

section Example

/-- All system calls succeed, and all programs end with status 0. -/
def smooth : Kernel where
  limit := 64
  room := by decide
  pipe := fun _ => true
  fork := fun _ _ => true
  openIn := fun _ => true
  openOut := fun _ => true
  execv := fun _ => true
  wait := fun _ _ => some 0
  status := 0

/-- A shell with its standard descriptors only. -/
def terminal : Table Object := fun fd => if fd < 3 then some ⟨.inherited fd, false⟩ else none

end Example

section Steps
variable {K : Kernel} {command : List Char} {pipeFds : Nat → Nat} {commands cs : List Command} {p : Process}
    {k n : Nat}
  {c : Command}

/-- The pipes are made by the process itself, which says at most that one cannot be made. -/
theorem pipeLoop_calls : (pipeLoop K p n).2.path = p.path ∧ ∃ more, (pipeLoop K p n).2.calls = p.calls ++ more ∧
    ∀ call ∈ more, (∃ k ok, call = .pipe k ok) ∨ call = .cerr "Pipe Error\n" := by
  induction n with
  | zero => exact ⟨rfl, [], (List.append_nil _).symm, nofun⟩
  | succ n ih =>
    obtain ⟨path, more, calls, quiet⟩ := ih
    simp only [pipeLoop]
    split
    · refine ⟨path, more ++ [.pipe n true], by simp [Process.call, Process.install, calls], ?_⟩
      intro call member
      rcases List.mem_append.mp member with old | new
      · exact quiet call old
      · exact .inl ⟨n, true, List.mem_singleton.mp new⟩
    · refine ⟨path, more ++ [.pipe n false, .cerr "Pipe Error\n"], by simp [Process.call, calls], ?_⟩
      intro call member
      rcases List.mem_append.mp member with old | new
      · exact quiet call old
      · rcases List.mem_cons.mp new with first | second
        · exact .inl ⟨n, false, first⟩
        · exact .inr (List.mem_singleton.mp second)

theorem waitLoop_calls {answer : Nat → Option Nat} {status : Nat} :
    ∀ call ∈ waitLoop answer k cs status, ∃ name code, call = .cout name code := by
  induction cs generalizing k status with
  | nil => nofun
  | cons c cs ih =>
    intro call member
    simp only [waitLoop] at member
    split at member
    · rcases List.mem_cons.mp member with first | later
      · exact ⟨_, _, first⟩
      · exact ih call later
    · exact ih call member

theorem forkLoop_bare (bare : c.argv = []) : forkLoop K command pipeFds commands k (c :: cs) p =
    forkLoop K command pipeFds commands (k + 1) cs (p.call (.cerr "invalid command\n")) := by
  rw [forkLoop, if_pos bare]

theorem forkLoop_failed (words : c.argv ≠ []) (going : command ≠ "exit".toList) (failed : K.fork p.path k = false) :
    forkLoop K command pipeFds commands k (c :: cs) p =
      forkLoop K command pipeFds commands (k + 1) cs ((p.call (.fork k false)).call (.cerr "Fork Error.\n")) := by
  rw [forkLoop, if_neg words, if_neg going, if_neg (by rw [failed]; decide)]

theorem forkLoop_forked (words : c.argv ≠ []) (going : command ≠ "exit".toList) (forked : K.fork p.path k = true) :
    forkLoop K command pipeFds commands k (c :: cs) p =
      (match runChild K (commands.length - 1) pipeFds k c (p.child k) with
        | .execs q => [⟨q, .execs k⟩]
        | .goesOn q => forkLoop K command pipeFds commands (k + 1) cs q) ++
        forkLoop K command pipeFds commands (k + 1) cs (p.call (.fork k true)) := by
  rw [forkLoop, if_neg words, if_neg going, if_pos forked]

theorem redirect_path {ok : Bool} {fd : Nat} {name : Word} : (redirect K ok fd name p).process.path = p.path := by
  unfold redirect
  split
  · split
    · rfl
    · rfl
  · rfl

theorem program_path : (program K c p).process.path = p.path := by
  unfold program
  split
  · rfl
  · rfl

theorem Setup.andThen_path {s : Setup} {following : Process → Setup}
    (kept : ∀ p, (following p).process.path = p.path) : (s.andThen following).process.path = s.process.path := by
  cases s with
  | execs p => exact kept p
  | goesOn p => rfl

/-- The branch of the child, however far it comes, belongs to the child. -/
theorem runChild_path {numPipes : Nat} : (runChild K numPipes pipeFds k c p).process.path = p.path := by
  rw [runChild, Setup.andThen_path fun _ => program_path, prepare,
    Setup.andThen_path fun _ => redirect_path, redirect_path]
  rfl

/-- A process that comes to the loop returns from it at last, whatever becomes of its children. -/
theorem forkLoop_shape (going : command ≠ "exit".toList) :
    ∃ others q more, forkLoop K command pipeFds commands k cs p = others ++ [leave K pipeFds commands q] ∧
      (q.path = p.path ∧ q.fds = p.fds) ∧ q.calls = p.calls ++ more ∧
      (∀ call ∈ more, ∀ name code, call ≠ .cout name code) ∧ ∀ e ∈ others, p.path.length < e.process.path.length := by
  induction cs generalizing k p with
  | nil => exact ⟨[], p, [], rfl, ⟨rfl, rfl⟩, (List.append_nil _).symm, nofun, nofun⟩
  | cons c cs ih =>
    have step : ∀ q : Process, q.path = p.path ∧ q.fds = p.fds → ∀ said, q.calls = p.calls ++ said →
        (∀ call ∈ said, ∀ name code, call ≠ .cout name code) →
        ∃ others r more, forkLoop K command pipeFds commands (k + 1) cs q = others ++ [leave K pipeFds commands r] ∧
          (r.path = p.path ∧ r.fds = p.fds) ∧ r.calls = p.calls ++ more ∧
          (∀ call ∈ more, ∀ name code, call ≠ .cout name code) ∧
            ∀ e ∈ others, p.path.length < e.process.path.length := by
      rintro q ⟨path, descriptors⟩ said calls silent
      obtain ⟨others, r, more, shape, ⟨same, kept⟩, after, quiet, longer⟩ := @ih q (k + 1)
      refine ⟨others, r, said ++ more, shape, ⟨same.trans path, kept.trans descriptors⟩,
        by rw [after, calls, List.append_assoc], ?_, path ▸ longer⟩
      intro call member
      rcases List.mem_append.mp member with old | new
      · exact silent call old
      · exact quiet call new
    by_cases bare : c.argv = []
    · rw [forkLoop_bare bare]
      exact step _ ⟨rfl, rfl⟩ [.cerr "invalid command\n"] rfl (by simp)
    · cases forked : K.fork p.path k with
      | false =>
        rw [forkLoop_failed bare going forked]
        exact step _ ⟨rfl, rfl⟩ [.fork k false, .cerr "Fork Error.\n"] (List.append_assoc ..) (by simp)
      | true =>
        rw [forkLoop_forked bare going forked]
        obtain ⟨others, r, more, shape, path, calls, quiet, longer⟩ :=
          step (p.call (.fork k true)) ⟨rfl, rfl⟩ [.fork k true] rfl (by simp)
        refine ⟨_ ++ others, r, more, by rw [shape, List.append_assoc], path, calls, quiet, ?_⟩
        intro e member
        rcases List.mem_append.mp member with child | other
        · have born := @runChild_path K pipeFds (p.child k) k c (commands.length - 1)
          cases ran : runChild K (commands.length - 1) pipeFds k c (p.child k) with
          | execs q =>
            rw [ran] at child born
            rw [List.mem_singleton.mp child, show q.path = k :: p.path from born]
            exact Nat.lt_succ_self _
          | goesOn q =>
            rw [ran] at child born
            have length : q.path.length = p.path.length + 1 := congrArg List.length born
            obtain ⟨others, r, more, shape, path, -, -, longer⟩ := @ih q (k + 1)
            dsimp only at child
            rw [shape] at child
            rcases List.mem_append.mp child with deep | last
            · have deeper := longer e deep
              omega
            · rw [List.mem_singleton.mp last, show (leave K pipeFds commands r).process.path = q.path from path.1]
              omega
        · exact longer e other

theorem forkLoop_self (going : command ≠ "exit".toList) :
    ∃ e ∈ forkLoop K command pipeFds commands k cs p,
      e.fate = .returns ∧ e.process.path = p.path ∧ ∃ more, e.process.calls = p.calls ++ more := by
  obtain ⟨others, q, more, shape, ⟨path, -⟩, calls, -⟩ := @forkLoop_shape K command pipeFds commands cs p k going
  refine ⟨leave K pipeFds commands q, ?_, rfl, path, more ++ waitLoop (K.wait q.path) 0 commands K.status, ?_⟩
  · rw [shape]
    exact List.mem_append_right _ (List.mem_singleton.mpr rfl)
  · rw [leave, calls, List.append_assoc]

/-- A child that comes to its program is among the processes. -/
theorem forkLoop_child (going : command ≠ "exit".toList) {j : Nat} (found : cs[j]? = some c) (words : c.argv ≠ [])
    (forked : K.fork p.path (k + j) = true) {q : Process}
    (execs : runChild K (commands.length - 1) pipeFds (k + j) c (p.child (k + j)) = .execs q) :
    ⟨q, .execs (k + j)⟩ ∈ forkLoop K command pipeFds commands k cs p := by
  induction j generalizing cs k p with
  | zero =>
    rw [← List.head?_eq_getElem?, List.head?_eq_some_iff] at found
    obtain ⟨rest, rfl⟩ := found
    rw [Nat.add_zero] at *
    rw [forkLoop_forked words going forked, execs]
    exact List.mem_cons_self
  | succ j ih =>
    cases cs with
    | nil => cases found
    | cons d rest =>
      rw [← Nat.succ_add_eq_add_succ] at forked execs ⊢
      by_cases bare : d.argv = []
      · rw [forkLoop_bare bare]
        exact ih found (by exact forked) (by exact execs)
      · cases outcome : K.fork p.path k with
        | false =>
          rw [forkLoop_failed bare going outcome]
          exact ih found (by exact forked) (by exact execs)
        | true =>
          rw [forkLoop_forked bare going outcome]
          exact List.mem_append_right _ (ih found (by exact forked) (by exact execs))

end Steps

end OsLabs.Shell
