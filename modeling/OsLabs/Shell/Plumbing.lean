import OsLabs.Shell.Processes

namespace OsLabs.Shell
open Descriptors

/-- The shell has its standard descriptors, also for the programs it starts, and no end of a pipe of
the line. -/
structure Standard (fds : Table Object) : Prop where
  stdin : ∃ d, fds 0 = some d ∧ d.cloexec = false
  stdout : ∃ d, fds 1 = some d ∧ d.cloexec = false
  stderr : ∃ d, fds 2 = some d ∧ d.cloexec = false
  inherited : ∀ fd d, fds fd = some d → ∃ n, d.object = .inherited n

/-- An end of a pipe of the line. -/
def Object.IsEnd (o : Object) : Prop := (∃ j, o = .readEnd j) ∨ ∃ j, o = .writeEnd j

section Pipes
variable {K : Kernel} {fds t u : Table Object} {n k : Nat} {pipeFds : Nat → Nat} {p : Process}

/-- The first `n` pipes have their ends at new descriptors, and no other descriptor has changed. -/
structure Made (fds : Table Object) (n : Nat) (pipeFds : Nat → Nat) (t : Table Object) : Prop where
  read : ∀ k < n, t (pipeFds (k * 2)) = some ⟨.readEnd k, false⟩
  write : ∀ k < n, t (pipeFds (k * 2 + 1)) = some ⟨.writeEnd k, false⟩
  fresh : ∀ i < n * 2, fds (pipeFds i) = none
  rest : ∀ fd, (∀ i < n * 2, pipeFds i ≠ fd) → t fd = fds fd

theorem Made.opened (made : Made fds n pipeFds t) {i : Nat} (bound : i < n * 2) : t (pipeFds i) ≠ none := by
  obtain ⟨k, rfl | rfl⟩ : ∃ k, i = k * 2 ∨ i = k * 2 + 1 := ⟨i / 2, by omega⟩
  · rw [made.read k (by omega)]
    nofun
  · rw [made.write k (by omega)]
    nofun

theorem Made.next {r w : Nat} (made : Made fds n pipeFds t) (free : t r = none)
    (also : t.install r (.readEnd n) w = none) :
    Made fds (n + 1) (Function.update (Function.update pipeFds (n * 2) r) (n * 2 + 1) w)
      ((t.install r (.readEnd n)).install w (.writeEnd n)) := by
  have different : w ≠ r := by
    rintro rfl
    rw [Table.install_self] at also
    cases also
  rw [Table.install_other different] at also
  have old : ∀ i < n * 2, Function.update (Function.update pipeFds (n * 2) r) (n * 2 + 1) w i = pipeFds i := by
    intro i bound
    rw [Function.update_of_ne (by omega), Function.update_of_ne (by omega)]
  have first : Function.update (Function.update pipeFds (n * 2) r) (n * 2 + 1) w (n * 2) = r := by
    rw [Function.update_of_ne (by omega), Function.update_self]
  have second : Function.update (Function.update pipeFds (n * 2) r) (n * 2 + 1) w (n * 2 + 1) = w :=
    Function.update_self ..
  have apart : ∀ i < n * 2, pipeFds i ≠ r ∧ pipeFds i ≠ w := fun i bound =>
    ⟨fun same => made.opened bound (same ▸ free), fun same => made.opened bound (same ▸ also)⟩
  have unused : ∀ fd, t fd = none → fds fd = none := by
    intro fd none
    rw [← made.rest fd fun i bound same => made.opened bound (same ▸ none)]
    exact none
  constructor
  · intro k bound
    by_cases last : k = n
    · subst last
      rw [first, Table.install_other different.symm, Table.install_self]
    · obtain ⟨notR, notW⟩ := apart (k * 2) (by omega)
      rw [old _ (by omega), Table.install_other notW, Table.install_other notR, made.read k (by omega)]
  · intro k bound
    by_cases last : k = n
    · subst last
      rw [second, Table.install_self]
    · obtain ⟨notR, notW⟩ := apart (k * 2 + 1) (by omega)
      rw [old _ (by omega), Table.install_other notW, Table.install_other notR, made.write k (by omega)]
  · intro i bound
    by_cases even : i = n * 2
    · rw [even, first]
      exact unused r free
    · by_cases odd : i = n * 2 + 1
      · rw [odd, second]
        exact unused w also
      · rw [old i (by omega)]
        exact made.fresh i (by omega)
  · intro fd away
    have notR : fd ≠ r := fun same => away (n * 2) (by omega) (first.trans same.symm)
    have notW : fd ≠ w := fun same => away (n * 2 + 1) (by omega) (second.trans same.symm)
    rw [Table.install_other notW, Table.install_other notR]
    exact made.rest fd fun i bound same => away i (by omega) ((old i bound).trans same)

/-- Each of the first `n` calls of `pipe` succeeds. -/
def PipesSucceed (K : Kernel) (p : Process) (n : Nat) : Prop :=
  ∀ k < n, ∃ made, makePipe K k (pipeLoop K p k).2.fds = some made

theorem pipeLoop_made (succeed : PipesSucceed K p n) : Made p.fds n (pipeLoop K p n).1 (pipeLoop K p n).2.fds := by
  induction n with
  | zero => exact ⟨nofun, nofun, nofun, fun _ _ => rfl⟩
  | succ n ih =>
    have before := ih fun k bound => succeed k (Nat.lt_succ_of_lt bound)
    obtain ⟨⟨r, w, t⟩, made⟩ := succeed n (Nat.lt_succ_self n)
    simp only [pipeLoop, made]
    unfold makePipe at made
    split at made
    · obtain ⟨r', first, made⟩ := Option.bind_eq_some_iff.mp made
      obtain ⟨w', second, made⟩ := Option.bind_eq_some_iff.mp made
      cases made
      exact before.next (Table.lowest_eq_some.mp first).1 (Table.lowest_eq_some.mp second).1
    · cases made

/-- The pipes lie above the standard input and output. -/
theorem Made.above (made : Made fds n pipeFds t) (standard : Standard fds) {i : Nat} (bound : i < n * 2) :
    pipeFds i ≠ 0 ∧ pipeFds i ≠ 1 := by
  obtain ⟨⟨d, stdin, -⟩, ⟨e, stdout, -⟩, -, -⟩ := standard
  have fresh := made.fresh i bound
  constructor
  · intro same
    cases stdin.symm.trans (same ▸ fresh)
  · intro same
    cases stdout.symm.trans (same ▸ fresh)

/-- The read end and the write end of pipes are different descriptors. -/
theorem Made.apart (made : Made fds n pipeFds t) {i j : Nat} (first : i < n) (second : j < n) :
    pipeFds (i * 2) ≠ pipeFds (j * 2 + 1) := by
  intro same
  have read := made.read i first
  rw [same, made.write j second] at read
  cases read

end Pipes

section Attach
variable {fds t : Table Object} {n k : Nat} {pipeFds : Nat → Nat}

theorem attach_first (positive : n ≠ 0) : attach n pipeFds 0 t =
    ((t.dup2 (pipeFds 1) 1).close (pipeFds 1)).close (pipeFds 0) := by
  simp only [attach, if_neg positive, if_pos, Nat.zero_mul, Nat.zero_add]

theorem attach_last (positive : n ≠ 0) : attach n pipeFds n t =
    ((t.close (pipeFds ((n - 1) * 2 + 1))).dup2 (pipeFds ((n - 1) * 2)) 0).close (pipeFds ((n - 1) * 2)) := by
  simp only [attach, if_neg positive, if_pos]

theorem attach_middle (lower : 0 < k) (upper : k < n) : attach n pipeFds k t =
    (t.dup2 (pipeFds ((k - 1) * 2)) 0).dup2 (pipeFds (k * 2 + 1)) 1 := by
  simp only [attach, if_neg (show n ≠ 0 by omega), if_neg (show k ≠ 0 by omega), if_neg (show k ≠ n by omega),
    if_pos (And.intro lower upper)]

/-- The child reads from the pipe before it, if there is one. -/
theorem attach_stdin (made : Made fds n pipeFds t) (standard : Standard fds) (bound : k ≤ n) :
    attach n pipeFds k t 0 = if 0 < k then some ⟨.readEnd (k - 1), false⟩ else fds 0 := by
  have above := fun i (bound : i < n * 2) => made.above standard bound
  have kept : t 0 = fds 0 := made.rest 0 fun i bound => (above i bound).1
  by_cases none : n = 0
  · obtain rfl : k = 0 := by omega
    simp only [attach, if_pos none, kept, if_neg (Nat.lt_irrefl 0)]
  · by_cases first : k = 0
    · subst first
      rw [attach_first none, Table.close_other (above 0 (by omega)).1.symm,
        Table.close_other (above 1 (by omega)).1.symm,
        Table.dup2_other (by decide), kept, if_neg (Nat.lt_irrefl 0)]
    · have read := made.read (k - 1) (by omega)
      have away := (above ((k - 1) * 2) (by omega)).1
      rw [if_pos (Nat.pos_of_ne_zero first)]
      by_cases last : k = n
      · subst last
        rw [attach_last none, Table.close_other away.symm]
        refine Table.dup2_self (d := ⟨Object.readEnd (k - 1), false⟩) ?_ away
        rw [Table.close_other (made.apart (by omega) (by omega)), read]
      · rw [attach_middle (by omega) (by omega), Table.dup2_other (by decide)]
        exact Table.dup2_self read away

/-- The child writes to the pipe after it, if there is one. -/
theorem attach_stdout (made : Made fds n pipeFds t) (standard : Standard fds) (bound : k ≤ n) :
    attach n pipeFds k t 1 = if k < n then some ⟨.writeEnd k, false⟩ else fds 1 := by
  have above := fun i (bound : i < n * 2) => made.above standard bound
  have kept : t 1 = fds 1 := made.rest 1 fun i bound => (above i bound).2
  by_cases none : n = 0
  · simp only [attach, if_pos none, kept, if_neg (show ¬ k < n by omega)]
  · by_cases last : k = n
    · subst last
      rw [attach_last none, Table.close_other (above ((k - 1) * 2) (by omega)).2.symm, Table.dup2_other (by decide),
        Table.close_other (above ((k - 1) * 2 + 1) (by omega)).2.symm, kept, if_neg (Nat.lt_irrefl k)]
    · have write := made.write k (by omega)
      have away := (above (k * 2 + 1) (by omega)).2
      rw [if_pos (by omega)]
      by_cases first : k = 0
      · subst first
        rw [attach_first none, Table.close_other (above 0 (by omega)).2.symm,
          Table.close_other (above 1 (by omega)).2.symm]
        exact Table.dup2_self write away
      · rw [attach_middle (by omega) (by omega)]
        refine Table.dup2_self (d := ⟨Object.writeEnd k, false⟩) ?_ away
        rw [Table.dup2_other (above (k * 2 + 1) (by omega)).1, write]

/-- The child leaves all other descriptors alone. -/
theorem attach_other (bound : k ≤ n) {fd : Nat} (notIn : fd ≠ 0) (notOut : fd ≠ 1)
    (away : ∀ i < n * 2, pipeFds i ≠ fd) :
    attach n pipeFds k t fd = t fd := by
  by_cases none : n = 0
  · simp only [attach, if_pos none]
  · by_cases first : k = 0
    · subst first
      rw [attach_first none, Table.close_other (away 0 (by omega)).symm, Table.close_other (away 1 (by omega)).symm,
        Table.dup2_other notOut]
    · by_cases last : k = n
      · subst last
        rw [attach_last none, Table.close_other (away ((k - 1) * 2) (by omega)).symm, Table.dup2_other notIn,
          Table.close_other (away ((k - 1) * 2 + 1) (by omega)).symm]
      · rw [attach_middle (by omega) (by omega), Table.dup2_other notOut, Table.dup2_other notIn]

end Attach

section Redirections
variable {K : Kernel} {p : Process} {name : Word}

/-- A redirection of the standard input that succeeds. -/
theorem redirect_stdin : ∃ q, redirect K true 0 name p = .execs q ∧ q.path = p.path ∧
    (q.fds 0 = if name ≠ [] then some ⟨.file (cStr name), false⟩ else p.fds 0) ∧ ∀ fd, fd ≠ 0 →
      q.fds fd = p.fds fd := by
  have room := K.room
  unfold redirect
  by_cases named : name ≠ []
  · rw [if_pos named, if_pos rfl, Table.lowest_close_zero (by omega), if_pos named]
    refine ⟨_, rfl, rfl, ?_, ?_⟩
    · exact @Table.install_self _ (p.fds.close 0) 0 _
    · intro fd away
      exact (Table.install_other away).trans (Table.close_other away)
  · rw [if_neg named, if_neg named]
    exact ⟨p, rfl, rfl, rfl, fun _ _ => rfl⟩

/-- A redirection of the standard output that succeeds, while the standard input is open. -/
theorem redirect_stdout (opened : p.fds 0 ≠ none) : ∃ q, redirect K true 1 name p = .execs q ∧ q.path = p.path ∧
    (q.fds 1 = if name ≠ [] then some ⟨.file (cStr name), false⟩ else p.fds 1) ∧ ∀ fd, fd ≠ 1 →
      q.fds fd = p.fds fd := by
  have room := K.room
  unfold redirect
  by_cases named : name ≠ []
  · rw [if_pos named, if_pos rfl, Table.lowest_close_one (by omega) opened, if_pos named]
    refine ⟨_, rfl, rfl, ?_, ?_⟩
    · exact @Table.install_self _ (p.fds.close 1) 1 _
    · intro fd away
      exact (Table.install_other away).trans (Table.close_other away)
  · rw [if_neg named, if_neg named]
    exact ⟨p, rfl, rfl, rfl, fun _ _ => rfl⟩

end Redirections

section Child
variable {K : Kernel} {fds t : Table Object} {n k : Nat} {pipeFds : Nat → Nat} {c : Command} {p : Process}

/-- The descriptors of the program of command `k` of `n + 1` commands, in a shell with descriptors `fds`. -/
structure Plumbed (fds : Table Object) (n k : Nat) (c : Command) (t : Table Object) : Prop where
  stdin : t.refers 0 =
    if c.input ≠ [] then some (.file (cStr c.input)) else if 0 < k then some (.readEnd (k - 1)) else fds.refers 0
  stdout : t.refers 1 =
    if c.output ≠ [] then some (.file (cStr c.output)) else if k < n then some (.writeEnd k) else fds.refers 1
  others : ∀ fd, fd ≠ 0 → fd ≠ 1 → ∀ o, t.refers fd = some o → ¬ o.IsEnd

theorem refers_atExec {o : Object} {fd : Nat} (opened : t fd = some ⟨o, false⟩) : t.atExec.refers fd = some o := by
  rw [Table.refers, Table.atExec_eq_some.mpr ⟨opened, rfl⟩]
  rfl

theorem refers_chosen {P Q : Prop} [Decidable P] [Decidable Q] {a b o : Object} {fd : Nat}
    (opened : t fd = if P then some ⟨a, false⟩ else if Q then some ⟨b, false⟩ else some ⟨o, false⟩) :
    t.atExec.refers fd = if P then some a else if Q then some b else some o := by
  by_cases file : P
  · rw [if_pos file] at opened ⊢
    exact refers_atExec opened
  · by_cases pipe : Q
    · rw [if_neg file, if_pos pipe] at opened ⊢
      exact refers_atExec opened
    · rw [if_neg file, if_neg pipe] at opened ⊢
      exact refers_atExec opened

/-- A child whose files open comes to its `execv` with the descriptors of its place in the pipeline. -/
theorem prepare_plumbed (standard : Standard fds) (made : Made fds n pipeFds p.fds) (bound : k ≤ n)
    (input : K.openIn p.path = true) (output : K.openOut p.path = true) :
    ∃ q, prepare K n pipeFds k c p = .execs q ∧ q.path = p.path ∧ Plumbed fds n k c q.fds.atExec := by
  have above := fun i (bound : i < n * 2) => made.above standard bound
  have in0 : (attach n pipeFds k p.fds).sweep pipeFds (n * 2) 0 = _ :=
    (Table.sweep_other fun i bound => (above i bound).1).trans (attach_stdin made standard bound)
  have out0 : (attach n pipeFds k p.fds).sweep pipeFds (n * 2) 1 = _ :=
    (Table.sweep_other fun i bound => (above i bound).2).trans (attach_stdout made standard bound)
  obtain ⟨⟨⟨i, _⟩, stdin, rfl⟩, ⟨⟨o, _⟩, stdout, rfl⟩, -, inherited⟩ := standard
  rw [stdin] at in0
  rw [stdout] at out0
  have shellIn : fds.refers 0 = some i := by rw [Table.refers, stdin, Option.map_some]
  have shellOut : fds.refers 1 = some o := by rw [Table.refers, stdout, Option.map_some]
  obtain ⟨q, opened, path, fd0, same⟩ := @redirect_stdin K
    (p.install ((attach n pipeFds k p.fds).sweep pipeFds (n * 2))) c.input
  have first : q.fds 0 = if c.input ≠ [] then some ⟨.file (cStr c.input), false⟩ else
      if 0 < k then some ⟨.readEnd (k - 1), false⟩ else some ⟨i, false⟩ := by
    rw [fd0, ← in0]
    rfl
  have open0 : q.fds 0 ≠ none := by
    rw [first]
    split
    · nofun
    · split
      · nofun
      · nofun
  obtain ⟨r, wrote, path', fd1, same'⟩ := @redirect_stdout K q c.output open0
  have second : r.fds 1 = if c.output ≠ [] then some ⟨.file (cStr c.output), false⟩ else
      if k < n then some ⟨.writeEnd k, false⟩ else some ⟨o, false⟩ := by
    rw [fd1, same 1 (by decide), ← out0]
    rfl
  refine ⟨r, ?_, path'.trans path, ?_, ?_, ?_⟩
  · rw [prepare, input, output, opened, Setup.andThen, wrote]
  · have zero := (same' 0 (by decide)).trans first
    rw [shellIn]
    exact refers_chosen zero
  · rw [shellOut]
    exact refers_chosen second
  · intro fd notIn notOut o refers
    obtain ⟨f, found, rfl⟩ := Option.map_eq_some_iff.mp refers
    obtain ⟨found, survives⟩ := Table.atExec_eq_some.mp found
    rw [same' fd notOut, same fd notIn] at found
    have away : ∀ i < n * 2, pipeFds i ≠ fd := by
      intro i bound pipe
      have swept := Table.sweep_mem ⟨i, bound, pipe⟩ found
      rw [survives] at swept
      cases swept
    have old : fds fd = some f := by
      rw [← made.rest fd away, ← @attach_other p.fds n k pipeFds bound fd notIn notOut away]
      exact (Table.sweep_other away).symm.trans found
    obtain ⟨m, object⟩ := inherited fd f old
    rw [object]
    rintro (⟨j, same⟩ | ⟨j, same⟩)
    · cases same
    · cases same

end Child

section Line
variable {K : Kernel} {fds : Table Object} {command : List Char}

/-- Child `k` of the shell comes to the `execv` of command `c` as process `q`. -/
def AtExecv (K : Kernel) (fds : Table Object) (commands : List Command) (k : Nat) (c : Command) (q : Process) : Prop :=
  commands[k]? = some c ∧
    prepare K (commands.length - 1) (pipeLoop K (shell fds) (commands.length - 1)).1 k c
      ((pipeLoop K (shell fds) (commands.length - 1)).2.child k) = .execs q

/-- What the pipeline looks like when each child has come to its `execv` and the shell waits: each child has
the descriptors of its place and starts with them, if its program can start; the shell has what it had before
the line; an end of pipe `j` is at most with the child that uses it. -/
structure PlumbedLine (K : Kernel) (fds : Table Object) (commands : List Command) (es : List Ended) : Prop where
  children : ∀ k c, commands[k]? = some c →
    ∃ q, AtExecv K fds commands k c q ∧ Plumbed fds (commands.length - 1) k c q.fds.atExec ∧
      (K.execv [k] = true → ∃ e ∈ es, e.process.path = [k] ∧ e.fate = .execs k ∧ e.process.fds = q.fds)
  waiting : ∃ e ∈ es, e.process.path = [] ∧ e.fate = .returns ∧ e.process.fds = fds
  alone : ∀ e ∈ es, e.process.path = [] → e.process.fds = fds
  writers : ∀ k c q fd j, AtExecv K fds commands k c q → q.fds.atExec.refers fd = some (.writeEnd j) → k = j
  readers : ∀ k c q fd j, AtExecv K fds commands k c q → q.fds.atExec.refers fd = some (.readEnd j) → k = j + 1

theorem Standard.not_end (standard : Standard fds) {fd : Nat} {o : Object}
    (refers : fds.refers fd = some o) : ¬ o.IsEnd := by
  obtain ⟨d, found, rfl⟩ := Option.map_eq_some_iff.mp refers
  obtain ⟨n, object⟩ := standard.inherited fd d found
  rw [object]
  rintro (⟨j, same⟩ | ⟨j, same⟩)
  · cases same
  · cases same

/-- An end of a pipe that a program has is the one its command uses. -/
theorem Plumbed.holds {n k fd : Nat} {c : Command} {t : Table Object} {o : Object} (plumbed : Plumbed fds n k c t)
    (standard : Standard fds) (held : t.refers fd = some o) (pipeEnd : o.IsEnd) :
    0 < k ∧ o = .readEnd (k - 1) ∨ k < n ∧ o = .writeEnd k := by
  have notFile : ∀ name, o ≠ .file name := by
    rintro name rfl
    obtain ⟨j, same⟩ | ⟨j, same⟩ := pipeEnd
    · cases same
    · cases same
  by_cases first : fd = 0
  · rw [first, plumbed.stdin] at held
    split at held
    · exact absurd (Option.some.inj held).symm (notFile _)
    · split at held
      · rename_i later
        exact .inl ⟨later, (Option.some.inj held).symm⟩
      · exact absurd pipeEnd (standard.not_end held)
  · by_cases second : fd = 1
    · rw [second, plumbed.stdout] at held
      split at held
      · exact absurd (Option.some.inj held).symm (notFile _)
      · split at held
        · rename_i earlier
          exact .inr ⟨earlier, (Option.some.inj held).symm⟩
        · exact absurd pipeEnd (standard.not_end held)
    · exact absurd pipeEnd (plumbed.others fd first second o held)

/-- The shell closes exactly the descriptors that it has made. -/
theorem Made.closed {n : Nat} {pipeFds : Nat → Nat} {t : Table Object} (made : Made fds n pipeFds t) :
    t.closeAll pipeFds (n * 2) = fds := by
  funext fd
  by_cases pipe : ∃ i < n * 2, pipeFds i = fd
  · obtain ⟨i, bound, rfl⟩ := pipe
    rw [Table.closeAll_mem ⟨i, bound, rfl⟩, made.fresh i bound]
  · have away : ∀ i < n * 2, pipeFds i ≠ fd := fun i bound same => pipe ⟨i, bound, same⟩
    rw [Table.closeAll_other away, made.rest fd away]

theorem pipeline_plumbed (standard : Standard fds) (formed : WellFormedLine command) (going : command ≠ "exit".toList)
    (pipes : PipesSucceed K (shell fds) (numStages command - 1))
    (forks : ∀ k < numStages command, K.fork [] k = true)
    (opens : ∀ k < numStages command, K.openIn [k] = true ∧ K.openOut [k] = true) :
    PlumbedLine K fds ((stages (tokens command)).map commandOf) (parseAndRunCommand K fds command) := by
  obtain ⟨read, none⟩ := parse_wellFormed formed
  have length : numStages command = ((stages (tokens command)).map commandOf).length := (List.length_map _).symm
  have words : ∀ (k : Nat) (c : Command), ((stages (tokens command)).map commandOf)[k]? = some c → c.argv ≠ [] := by
    intro k c found
    obtain ⟨part, member, rfl⟩ := List.mem_map.mp (List.mem_of_getElem? found)
    simpa [commandOf] using (formed part member).remains
  have nonempty : (stages (tokens command)).map commandOf ≠ [] := by
    rw [Ne, List.map_eq_nil_iff]
    exact List.splitOn_ne_nil _ _
  have line : parseAndRunCommand K fds command =
      runCommands K command ((stages (tokens command)).map commandOf) (shell fds) := by
    rw [parseAndRunCommand, read, none]
    rfl
  rw [line, runCommands, if_neg nonempty]
  rw [length] at pipes forks opens
  generalize (stages (tokens command)).map commandOf = commands at *
  have made := pipeLoop_made pipes
  have root : (pipeLoop K (shell fds) (commands.length - 1)).2.path = [] := pipeLoop_calls.1
  obtain ⟨others, q, more, shape, ⟨same, kept⟩, -, -, longer⟩ := @forkLoop_shape K command
    (pipeLoop K (shell fds) (commands.length - 1)).1 commands commands (pipeLoop K (shell fds) (commands.length - 1)).2 0 going
  have original : q.path = [] := same.trans root
  have restored : (leave K (pipeLoop K (shell fds) (commands.length - 1)).1 commands q).process.fds = fds := by
    rw [leave, kept]
    exact made.closed
  have reach : ∀ k c, commands[k]? = some c → ∃ q, AtExecv K fds commands k c q ∧ q.path = [k] ∧
      Plumbed fds (commands.length - 1) k c q.fds.atExec := by
    intro k c found
    obtain ⟨bound, -⟩ := List.getElem?_eq_some_iff.mp found
    have path : ((pipeLoop K (shell fds) (commands.length - 1)).2.child k).path = [k] := by rw [Process.child, root]
    obtain ⟨input, output⟩ := opens k bound
    obtain ⟨q, ready, child, plumbed⟩ := @prepare_plumbed K fds (commands.length - 1) k
      (pipeLoop K (shell fds) (commands.length - 1)).1 c ((pipeLoop K (shell fds) (commands.length - 1)).2.child k)
      standard made (by omega) (by rw [path]; exact input) (by rw [path]; exact output)
    exact ⟨q, ⟨found, ready⟩, child.trans path, plumbed⟩
  have unique : ∀ k c q, AtExecv K fds commands k c q → Plumbed fds (commands.length - 1) k c q.fds.atExec := by
    intro k c q come
    obtain ⟨r, ⟨-, ready⟩, -, plumbed⟩ := reach k c come.1
    cases come.2.symm.trans ready
    exact plumbed
  constructor
  · intro k c found
    obtain ⟨q, come, child, plumbed⟩ := reach k c found
    refine ⟨q, come, plumbed, ?_⟩
    intro starts
    obtain ⟨bound, -⟩ := List.getElem?_eq_some_iff.mp found
    have ran : runChild K (commands.length - 1) (pipeLoop K (shell fds) (commands.length - 1)).1 k c
        ((pipeLoop K (shell fds) (commands.length - 1)).2.child k) = .execs (q.call (.execv c.argv true)) := by
      rw [runChild, come.2, Setup.andThen, program, child, if_pos starts]
    have present := @forkLoop_child K command (pipeLoop K (shell fds) (commands.length - 1)).1 commands commands
      (pipeLoop K (shell fds) (commands.length - 1)).2 0 c going k found (words k c found)
      (by rw [root, Nat.zero_add]; exact forks k bound) _ (by rw [Nat.zero_add]; exact ran)
    rw [Nat.zero_add] at present
    exact ⟨_, present, child, rfl, rfl⟩
  · exact ⟨_, by rw [shape]; exact List.mem_append_right _ (List.mem_singleton.mpr rfl), original, rfl, restored⟩
  · intro e member path
    rw [shape] at member
    rcases List.mem_append.mp member with child | last
    · have deeper := longer e child
      rw [path, root] at deeper
      exact absurd deeper (Nat.lt_irrefl 0)
    · rw [List.mem_singleton.mp last]
      exact restored
  · intro k c q fd j come held
    rcases (unique k c q come).holds standard held (.inr ⟨j, rfl⟩) with ⟨-, other⟩ | ⟨-, same⟩
    · cases other
    · exact (Object.writeEnd.inj same).symm
  · intro k c q fd j come held
    rcases (unique k c q come).holds standard held (.inl ⟨j, rfl⟩) with ⟨positive, same⟩ | ⟨-, other⟩
    · have index := Object.readEnd.inj same
      omega
    · cases other

theorem standard_terminal : Standard terminal := by
  refine ⟨⟨_, rfl, rfl⟩, ⟨_, rfl, rfl⟩, ⟨_, rfl, rfl⟩, ?_⟩
  intro fd d found
  unfold terminal at found
  split at found
  · exact ⟨fd, by rw [← Option.some.inj found]⟩
  · cases found

/-- Three programs with two pipes between them, an input file and an output file. -/
theorem triple_plumbed : PlumbedLine smooth terminal ((stages (tokens "a < f | b | c > g".toList)).map commandOf)
    (parseAndRunCommand smooth terminal "a < f | b | c > g".toList) := by
  have two : numStages "a < f | b | c > g".toList - 1 = 2 := by decide
  refine pipeline_plumbed standard_terminal wellFormedLine_triple (by decide) ?_ (fun _ _ => rfl) fun _ _ => ⟨rfl, rfl⟩
  rw [two]
  intro k bound
  obtain rfl | rfl : k = 0 ∨ k = 1 := by omega
  · exact ⟨_, rfl⟩
  · exact ⟨_, rfl⟩

end Line

end OsLabs.Shell
