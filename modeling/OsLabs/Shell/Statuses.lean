import Mathlib.Data.List.OfFn
import Mathlib.Logic.Equiv.Defs
import OsLabs.Shell.Processes

namespace OsLabs.Shell
open Descriptors

/-- The name of a command of a line: its first word that is no redirection. -/
def stageName (command : List Char) (k : Fin (numStages command)) : Option Word :=
  ((remaining ((stages (tokens command)).get k)).map cStr).head?

/-- The status lines of a process. -/
def Process.lines (p : Process) : List Call :=
  p.calls.filter fun call => match call with
    | .cout _ _ => true
    | .cerr _ | .pipe _ _ | .fork _ _ | .open _ _ | .execv _ _ => false

/-- The shell prints one line for each command, in their order, with the status of that command. -/
def Told (es : List Ended) (command : List Char) (statuses : Fin (numStages command) → Fin 256) : Prop :=
  ∃ e ∈ es, e.process.path = [] ∧
    e.process.lines = List.ofFn fun k => .cout (stageName command k) (statuses k).val

section Wait
variable {answer : Nat → Option Nat} {k status : Nat} {α : Type} {read : α → Command} {parts : List α}

/-- When all answers are exit statuses, the loop prints the n-th answer with the n-th command. -/
theorem waitLoop_exited (code : Fin parts.length → Fin 256)
    (answers : ∀ j : Fin parts.length, answer (k + j) = some (256 * (code j).val)) :
    waitLoop answer k (parts.map read) status =
      List.ofFn fun j => .cout (read (parts.get j)).argv.head? (code j).val := by
  induction parts generalizing k status with
  | nil => rfl
  | cons c parts ih =>
    have first : answer k = some (256 * (code 0).val) := answers 0
    have exited : WIFEXITED (256 * (code 0).val) := by
      unfold WIFEXITED
      omega
    have value : WEXITSTATUS (256 * (code 0).val) = (code 0).val := by
      have bound := (code 0).isLt
      unfold WEXITSTATUS
      omega
    have rest := @ih (k + 1) (256 * (code 0).val) (fun j => code j.succ) fun j => by
      rw [Nat.succ_add_eq_add_succ]
      exact answers j.succ
    rw [List.map_cons, List.ofFn_succ]
    simp only [waitLoop, first, Option.getD_some, if_pos exited, value, rest]
    rfl

end Wait

section Lines
variable {K : Kernel} {fds : Table Object} {command : List Char}

theorem lines_silent {calls : List Call} (silent : ∀ call ∈ calls, ∀ name code, call ≠ .cout name code) :
    (Process.lines ⟨[], fds, calls⟩) = [] := by
  refine List.filter_eq_nil_iff.mpr ?_
  intro call member
  cases call with
  | cout name code => exact absurd rfl (silent _ member name code)
  | cerr | pipe | fork | «open» | execv => exact nofun

/-- The shell itself ends with the lines of its loop over `wait`, and no other process is the shell. -/
theorem shell_lines (formed : WellFormedLine command) (going : command ≠ "exit".toList) :
    (∃ e ∈ parseAndRunCommand K fds command, e.process.path = []) ∧
      ∀ e ∈ parseAndRunCommand K fds command, e.process.path = [] →
        e.process.lines = waitLoop (K.wait []) 0 ((stages (tokens command)).map commandOf) K.status := by
  obtain ⟨read, none⟩ := parse_wellFormed formed
  have some : (stages (tokens command)).map commandOf ≠ [] := by
    rw [Ne, List.map_eq_nil_iff]
    exact List.splitOn_ne_nil _ _
  rw [parseAndRunCommand, read, none, runCommands, if_neg some]
  generalize (stages (tokens command)).map commandOf = commands at *
  obtain ⟨path, pipes, made, quiet⟩ := @pipeLoop_calls K ⟨[], fds, []⟩ (commands.length - 1)
  obtain ⟨others, q, more, shape, ⟨same, -⟩, calls, silent, longer⟩ := @forkLoop_shape K command
    (pipeLoop K ⟨[], fds, []⟩ (commands.length - 1)).1 commands commands
    (pipeLoop K ⟨[], fds, []⟩ (commands.length - 1)).2 0 going
  have original : q.path = [] := same.trans path
  change (∃ e ∈ forkLoop K command (pipeLoop K ⟨[], fds, []⟩ (commands.length - 1)).1 commands 0 commands
    (pipeLoop K ⟨[], fds, []⟩ (commands.length - 1)).2, _) ∧ ∀ e ∈ forkLoop K command
      (pipeLoop K ⟨[], fds, []⟩ (commands.length - 1)).1 commands 0 commands
      (pipeLoop K ⟨[], fds, []⟩ (commands.length - 1)).2, _
  rw [shape]
  refine ⟨⟨_, List.mem_append_right _ (List.mem_singleton.mpr rfl), original⟩, ?_⟩
  intro e member root
  rcases List.mem_append.mp member with child | last
  · have deeper := longer e child
    rw [root, path] at deeper
    exact absurd deeper (Nat.lt_irrefl 0)
  · rw [List.mem_singleton.mp last]
    have before : Process.lines ⟨[], fds, q.calls⟩ = [] := by
      apply lines_silent
      intro call member
      rw [calls, made] at member
      rcases List.mem_append.mp member with old | new
      · rcases quiet call old with ⟨j, ok, rfl⟩ | rfl
        · exact fun name code => nofun
        · exact fun name code => nofun
      · exact silent call new
    have printed : Process.lines ⟨[], fds, waitLoop (K.wait []) 0 commands K.status⟩ =
        waitLoop (K.wait []) 0 commands K.status := by
      refine List.filter_eq_self.mpr ?_
      intro call member
      obtain ⟨name, code, rfl⟩ := waitLoop_calls call member
      rfl
    simp only [Process.lines] at before printed
    simp only [leave, original, Process.lines, List.filter_append, before, printed, List.nil_append]

/-- The status lines belong to their commands exactly when each command has the status of the child
that the corresponding call of `wait` returns. -/
theorem statuses_iff (formed : WellFormedLine command) (going : command ≠ "exit".toList)
    (statuses : Fin (numStages command) → Fin 256) (order : Equiv.Perm (Fin (numStages command)))
    (waits : ∀ k : Fin (numStages command), K.wait [] k = some (256 * (statuses (order k)).val)) :
    Told (parseAndRunCommand K fds command) command statuses ↔ ∀ k, statuses (order k) = statuses k := by
  obtain ⟨⟨e, member, root⟩, lines⟩ := @shell_lines K fds command formed going
  have printed : waitLoop (K.wait []) 0 ((stages (tokens command)).map commandOf) K.status =
      List.ofFn fun k => .cout (stageName command k) (statuses (order k)).val :=
    waitLoop_exited (fun k => statuses (order k)) fun k => by rw [Nat.zero_add]; exact waits k
  simp only [printed] at lines
  constructor
  · rintro ⟨e, member, root, told⟩ k
    have same := congrFun (List.ofFn_injective ((lines e member root).symm.trans told)) k
    exact Fin.ext (Call.cout.inj same).2
  · intro equal
    exact ⟨e, member, root, by simp only [lines e member root, equal]⟩

section Swapped

/-- The second of two commands ends before the first. -/
def swappedOrder : Equiv.Perm (Fin (numStages "a | b".toList)) := Equiv.swap ⟨0, by decide⟩ ⟨1, by decide⟩

/-- With equal statuses the order does not show. -/
theorem equal_statuses_told : Told (parseAndRunCommand smooth terminal "a | b".toList) "a | b".toList fun _ => 0 :=
  (statuses_iff wellFormedLine_pair (by decide) (fun _ => 0) swappedOrder fun _ => rfl).mpr fun _ => rfl

/-- The first command exits with 1 after the second has exited with 0. -/
def swappedStatuses : Fin (numStages "a | b".toList) → Fin 256 := fun k => if k.val = 0 then 1 else 0

def swappedKernel : Kernel := { smooth with wait := fun _ k => some (256 * k) }

theorem swapped_statuses_not_told : WellFormedLine "a | b".toList ∧
    (∀ k : Fin (numStages "a | b".toList), swappedKernel.wait [] k = some (256 * (swappedStatuses (swappedOrder k)).val)) ∧
      ¬ Told (parseAndRunCommand swappedKernel terminal "a | b".toList) "a | b".toList swappedStatuses := by
  refine ⟨wellFormedLine_pair, by decide, ?_⟩
  unfold Told
  decide

end Swapped

end Lines

end OsLabs.Shell
