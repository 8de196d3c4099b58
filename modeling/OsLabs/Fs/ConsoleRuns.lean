import OsLabs.Fs.Console
import OsLabs.Lib.Interleaving

namespace OsLabs.Console
open Interleaving WrappingRing

section Buffer
variable {input input' : Input} {c : UInt8}

/-- What readers may take, the oldest first. -/
def Input.lines (input : Input) : List UInt8 := window input.buf input.r (used input.r input.w)

/-- The line being typed. -/
def Input.edit (input : Input) : List UInt8 := window input.buf input.w (used input.w input.e)

def Input.desk (input : Input) : Desk := ⟨input.lines, input.edit⟩

structure Input.Valid (input : Input) : Prop where
  within : used input.r input.w + used input.w input.e ≤ INPUT_BUF
  plain : newline ∉ input.edit

theorem divides : INPUT_BUF ∣ 2 ^ 32 := ⟨2 ^ 25, by decide⟩

theorem Input.lines_length : input.lines.length = used input.r input.w := window_length

theorem Input.edit_length : input.edit.length = used input.w input.e := window_length

theorem Input.Valid.all (valid : input.Valid) : used input.r input.e = used input.r input.w + used input.w input.e :=
  used_add (Nat.lt_of_le_of_lt valid.within (by decide))

theorem Input.edit_nil (none : input.e = input.w) : input.edit = [] := by
  rw [← List.length_eq_zero_iff, Input.edit_length, used_eq_zero]
  exact none.symm

/-- Backspace takes the last byte of the line. -/
theorem Input.edit_back (edited : input.e ≠ input.w) :
    input.edit = Input.edit { input with e := input.e - 1 } ++ [input.buf (slot INPUT_BUF (input.e - 1))] := by
  have back := used_back edited.symm
  unfold Input.edit
  dsimp only
  rw [← back, window_succ, ← last_eq]

theorem Input.Valid.back (valid : input.Valid) (edited : input.e ≠ input.w) :
    Input.Valid { input with e := input.e - 1 } := by
  have less := used_back edited.symm
  refine ⟨?_, fun member => valid.plain ?_⟩
  · have within := valid.within
    dsimp only
    omega
  · rw [Input.edit_back edited]
    exact List.mem_append_left _ member

/-- The line is thrown away. -/
theorem Input.Valid.clear (valid : input.Valid) : Input.Valid { input with e := input.w } := by
  refine ⟨?_, by rw [Input.edit_nil rfl]; exact List.not_mem_nil⟩
  have within := valid.within
  dsimp only
  rw [used_self]
  omega

/-- The line is no longer the one being typed. -/
theorem Input.Valid.commit (few : used input.r input.e ≤ INPUT_BUF) : Input.Valid { input with w := input.e } := by
  refine ⟨?_, by rw [Input.edit_nil rfl]; exact List.not_mem_nil⟩
  dsimp only
  rwa [used_self]

theorem Input.desk_clear : Input.desk { input with e := input.w } = ⟨input.lines, []⟩ := by
  rw [Input.desk, Input.edit_nil rfl]
  rfl

theorem Input.desk_back (edited : input.e ≠ input.w) :
    Input.desk { input with e := input.e - 1 } = ⟨input.lines, input.edit.dropLast⟩ := by
  rw [Input.edit_back edited, List.dropLast_concat]
  rfl

theorem killLine_eq (plain : newline ∉ input.edit) : killLine input = { input with e := input.w } := by
  induction size : used input.w input.e generalizing input with
  | zero =>
    have same := used_eq_zero.mp size
    rw [killLine, dif_neg fun edited => edited.1 same.symm]
    cases input
    cases same
    rfl
  | succ n ih =>
    have edited : input.e ≠ input.w := fun same => by
      rw [same, used_self] at size
      cases size
    have whole := Input.edit_back edited
    rw [whole] at plain
    have less := used_back edited.symm
    rw [killLine, dif_pos ⟨edited, fun last => plain (last ▸ List.mem_append_right _ (List.mem_singleton_self _))⟩]
    refine (ih (fun member => plain (List.mem_append_left _ member)) ?_).trans rfl
    dsimp only
    omega

/-- The byte is stored behind the line. -/
theorem Input.desk_put (valid : input.Valid) (room : used input.r input.e < INPUT_BUF)
    (stored : input' = input.put c) :
    input'.lines = input.lines ∧ input'.edit = input.edit ++ [c] ∧ used input'.r input'.e = used input.r input.e + 1 ∧
      used input'.w input'.e = used input.w input.e + 1 := by
  have all := valid.all
  have longer : used input.w (input.e + 1) = used input.w input.e + 1 :=
    used_push (by unfold INPUT_BUF at room; omega)
  have longer' : used input.r (input.e + 1) = used input.r input.e + 1 :=
    used_push (by unfold INPUT_BUF at room; omega)
  subst stored
  refine ⟨?_, ?_, longer', longer⟩
  · unfold Input.lines Input.put
    dsimp only
    rw [last_eq input.r input.e]
    exact window_update divides (by omega) room
  · unfold Input.edit Input.put
    dsimp only
    rw [longer, show slot INPUT_BUF input.e = slot INPUT_BUF (input.w + UInt32.ofNat (used input.w input.e)) by
      rw [← last_eq]]
    exact window_push divides (by omega) c

/-- The line is handed to the readers. -/
theorem Input.desk_commit (sum : used input.r input.e = used input.r input.w + used input.w input.e) :
    Input.desk { input with w := input.e } = ⟨input.lines ++ input.edit, []⟩ := by
  unfold Input.desk Input.lines Input.edit
  dsimp only
  rw [sum, window_append, ← last_eq, used_self, window_zero]

theorem Input.room_iff (valid : input.Valid) :
    input.e - input.r < UInt32.ofNat INPUT_BUF ↔ input.lines.length + input.edit.length < INPUT_BUF := by
  rw [Input.lines_length, Input.edit_length, ← valid.all, UInt32.lt_iff_toNat_lt]
  exact Iff.rfl

/-- `consoleintr` does what the key does to the line. -/
theorem consoleintr_refines (valid : input.Valid) :
    Desk.key c input.desk = ((consoleintr c input).1.desk, (consoleintr c input).2) ∧
      (consoleintr c input).1.Valid := by
  unfold consoleintr Desk.key
  by_cases list : c = C 'P'
  · rw [if_pos list, if_pos list]
    exact ⟨rfl, valid⟩
  rw [if_neg list, if_neg list]
  by_cases kill : c = C 'U'
  · rw [if_pos kill, if_pos kill, killLine_eq valid.plain]
    exact ⟨by rw [Input.desk_clear]; rfl, valid.clear⟩
  rw [if_neg kill, if_neg kill]
  by_cases back : c = C 'H' ∨ c = delete
  · rw [if_pos back, if_pos back]
    by_cases edited : input.e ≠ input.w
    · rw [if_pos edited]
      exact ⟨by rw [Input.desk_back edited]; rfl, valid.back edited⟩
    · rw [if_neg edited]
      have nothing : input.edit = [] := Input.edit_nil (not_not.mp edited)
      refine ⟨?_, valid⟩
      show (Desk.mk input.lines input.edit.dropLast, false) = (Desk.mk input.lines input.edit, false)
      rw [nothing]
      rfl
  rw [if_neg back, if_neg back]
  have room := Input.room_iff valid
  by_cases typed : c ≠ 0 ∧ input.e - input.r < UInt32.ofNat INPUT_BUF
  · rw [if_pos typed, if_pos ⟨typed.1, room.mp typed.2⟩]
    generalize (if c = carriageReturn then newline else c) = k
    dsimp only
    have free : used input.r input.e < INPUT_BUF := by
      rw [valid.all, ← Input.lines_length, ← Input.edit_length]
      exact room.mp typed.2
    generalize stored : input.put k = next
    obtain ⟨lines, edit, longer, longer'⟩ := Input.desk_put valid free stored.symm
    have sum : used next.r next.e = used next.r next.w + used next.w next.e := by
      rw [longer, longer', valid.all, ← stored]
      show _ = used input.r input.w + _
      omega
    have full : next.e = next.r + UInt32.ofNat INPUT_BUF ↔
        input.lines.length + (input.edit ++ [k]).length = INPUT_BUF := by
      rw [← lines, ← edit, Input.lines_length, Input.edit_length, ← sum]
      exact (used_eq (by decide)).symm
    show (if k = newline ∨ k = C 'D' ∨
      input.lines.length + (input.edit ++ [k]).length = INPUT_BUF then _ else _) = _ ∧ _
    by_cases ends : k = newline ∨ k = C 'D' ∨ next.e = next.r + UInt32.ofNat INPUT_BUF
    · rw [if_pos ends, if_pos (ends.imp id (Or.imp id full.mp))]
      refine ⟨?_, Input.Valid.commit (longer ▸ free)⟩
      rw [Input.desk_commit sum, lines, edit]
      rfl
    · rw [if_neg ends, if_neg fun still => ends (still.imp id (Or.imp id full.mpr))]
      refine ⟨?_, ?_, fun member => ?_⟩
      · unfold Input.desk
        rw [lines, edit]
      · rw [← sum, longer]
        exact free
      · rw [edit] at member
        rcases List.mem_append.mp member with old | new
        · exact valid.plain old
        · exact ends (.inl (List.mem_singleton.mp new).symm)
  · rw [if_neg typed, if_neg fun still => typed ⟨still.1, room.mpr still.2⟩]
    exact ⟨rfl, valid⟩

theorem Input.lines_nil : input.r = input.w ↔ input.lines = [] := by
  rw [← List.length_eq_zero_iff, Input.lines_length, used_eq_zero]

theorem Input.lines_pop (more : input.r ≠ input.w) :
    input.lines = input.buf (slot INPUT_BUF input.r) :: Input.lines { input with r := input.r + 1 } := by
  unfold Input.lines
  dsimp only
  rw [← used_pop more, window_pop]

theorem Input.Valid.pop (valid : input.Valid) (more : input.r ≠ input.w) :
    Input.Valid { input with r := input.r + 1 } := by
  have within := valid.within
  have less := used_pop more
  refine ⟨?_, valid.plain⟩
  dsimp only
  omega

/-- `consoleread` takes from the lines. -/
theorem consoleread_refines {killed : Bool} {target n : Nat} (valid : input.Valid) :
    Desk.read killed target n input.desk =
        ((consoleread killed target n input).1.desk, (consoleread killed target n input).2) ∧
      (consoleread killed target n input).1.Valid := by
  induction n generalizing input with
  | zero => exact ⟨rfl, valid⟩
  | succ n ih =>
    unfold consoleread Desk.read
    by_cases dry : input.r = input.w
    · rw [if_pos dry, show input.desk.lines = [] from Input.lines_nil.mp dry]
      exact ⟨rfl, valid⟩
    rw [if_neg dry, show input.desk.lines = _ from Input.lines_pop dry]
    dsimp only
    generalize input.buf (slot INPUT_BUF input.r) = k
    have valid' := valid.pop dry
    by_cases last : k = C 'D'
    · rw [if_pos last, if_pos last]
      by_cases later : n + 1 < target
      · rw [if_pos later, if_pos later, UInt32.add_sub_cancel]
        exact ⟨rfl, valid⟩
      · rw [if_neg later, if_neg later]
        exact ⟨rfl, valid'⟩
    rw [if_neg last, if_neg last]
    by_cases line : k = newline
    · rw [if_pos line, if_pos line]
      exact ⟨rfl, valid'⟩
    rw [if_neg line, if_neg line]
    obtain ⟨same, kept⟩ := ih valid'
    have rest : Desk.read killed target n { input.desk with lines := Input.lines { input with r := input.r + 1 } } =
        ((consoleread killed target n { input with r := input.r + 1 }).1.desk,
          (consoleread killed target n { input with r := input.r + 1 }).2) := same
    rw [rest]
    exact ⟨rfl, kept⟩

end Buffer

section Editor
variable {desk desk' : Desk} {c : UInt8} {killed woken : Bool} {target n left : Nat}
    {bytes before : List UInt8} {ret : Option Int}

/-- Bytes within a line. -/
def Plain (bytes : List UInt8) : Prop := newline ∉ bytes ∧ C 'D' ∉ bytes

/-- A line or the first part of one. -/
def OneLine (bytes : List UInt8) : Prop := ∃ front, Plain front ∧ (bytes = front ∨ bytes = front ++ [newline])

theorem Plain.nil : Plain [] := ⟨List.not_mem_nil, List.not_mem_nil⟩

theorem Plain.append (plain : Plain before) (plain' : Plain bytes) : Plain (before ++ bytes) :=
  ⟨fun member => (List.mem_append.mp member).elim plain.1 plain'.1,
    fun member => (List.mem_append.mp member).elim plain.2 plain'.2⟩

theorem OneLine.append (plain : Plain before) (line : OneLine bytes) : OneLine (before ++ bytes) := by
  obtain ⟨front, plain', whole | ends⟩ := line
  · exact ⟨before ++ front, plain.append plain', .inl (by rw [whole])⟩
  · exact ⟨before ++ front, plain.append plain', .inr (by rw [ends, List.append_assoc])⟩

/-- What a turn of `consoleread` does: the bytes it copies are the next of the text. -/
structure Takes (desk : Desk) (killed : Bool) (target n : Nat) (desk' : Desk) (bytes : List UInt8) (left : Nat)
    (ret : Option Int) : Prop where
  fifo : desk.lines = bytes ++ desk'.lines ∨ desk.lines = bytes ++ C 'D' :: desk'.lines
  count : bytes.length + left = n
  sleeps : ret = none → desk'.lines = [] ∧ Plain bytes
  returned : ∀ value, ret = some value → value = -1 ∧ killed = true ∨ value = (target : Int) - left ∧ OneLine bytes

theorem Desk.read_takes (run : Desk.read killed target n desk = (desk', bytes, left, ret)) :
    Takes desk killed target n desk' bytes left ret := by
  induction n generalizing desk bytes with
  | zero =>
    cases run
    exact ⟨.inl rfl, rfl, nofun, fun value same => .inr ⟨by cases same; simp, [], Plain.nil, .inl rfl⟩⟩
  | succ n ih =>
    unfold Desk.read at run
    cases dry : desk.lines with
    | nil =>
      rw [dry] at run
      cases run
      refine ⟨.inl rfl, Nat.zero_add _, fun _ => ⟨dry, Plain.nil⟩, fun value same => .inl ?_⟩
      cases killed <;> cases same
      exact ⟨rfl, rfl⟩
    | cons c rest =>
      rw [dry] at run
      dsimp only at run
      by_cases last : c = C 'D'
      · rw [if_pos last] at run
        cases run
        refine ⟨?_, Nat.zero_add _, nofun, fun value same => .inr ⟨by cases same; simp, [], Plain.nil, .inl rfl⟩⟩
        rw [dry, last]
        by_cases later : n + 1 < target
        · rw [if_pos later, dry, last]
          exact .inl rfl
        · rw [if_neg later]
          exact .inr rfl
      rw [if_neg last] at run
      by_cases line : c = newline
      · rw [if_pos line] at run
        cases run
        refine ⟨.inl dry, Nat.add_comm 1 _, nofun,
          fun value same => .inr ⟨by cases same; rfl, [], Plain.nil, .inr ?_⟩⟩
        rw [line]
        rfl
      rw [if_neg line] at run
      cases inner : Desk.read killed target n { desk with lines := rest } with
      | mk desk₁ out =>
      obtain ⟨more, left₁, ret₁⟩ := out
      rw [inner] at run
      cases run
      have takes := ih inner
      have one : Plain [c] := ⟨fun same => line (List.mem_singleton.mp same).symm,
          fun same => last (List.mem_singleton.mp same).symm⟩
      refine ⟨?_, ?_, fun sleeps => ?_, fun value same => ?_⟩
      · rw [dry]
        exact takes.fifo.imp (congrArg (c :: ·)) (congrArg (c :: ·))
      · rw [List.length_cons, Nat.add_right_comm, takes.count]
      · obtain ⟨none, plain⟩ := takes.sleeps sleeps
        exact ⟨none, one.append plain⟩
      · exact (takes.returned value same).imp id fun ⟨is, part⟩ => ⟨is, OneLine.append one part⟩

/-- A key that does not end a line leaves the text as it is. -/
theorem Desk.key_lines (run : Desk.key c desk = (desk', false)) : desk'.lines = desk.lines := by
  unfold Desk.key at run
  dsimp only at run
  generalize (if c = carriageReturn then newline else c) = k at run
  repeat' split at run
  all_goals cases run
  all_goals rfl

/-- A process asleep has found no text; a read ends with a line, or with as much of it as asked for or typed. -/
def Call.Legal (lines : List UInt8) (killed : Bool) : Call → Prop
  | .idle => True
  | .reading asleep target n bytes =>
    bytes.length + n = target ∧ Plain bytes ∧ (asleep = true → lines = [])
  | .got target ret bytes => ret = -1 ∧ killed = true ∨ ret = bytes.length ∧ bytes.length ≤ target ∧ OneLine bytes

theorem Call.Legal.wake {call : Call} {lines lines' : List UInt8} (legal : call.Legal lines killed) :
    call.wake.Legal lines' killed := by
  cases call with
  | idle => trivial
  | reading asleep target n bytes => exact ⟨legal.1, legal.2.1, nofun⟩
  | got target ret bytes => exact legal

theorem Call.Legal.drained {call : Call} {lines lines' : List UInt8} (legal : call.Legal lines killed)
    (less : lines = [] → lines' = []) : call.Legal lines' killed := by
  cases call with
  | idle => trivial
  | reading asleep target n bytes => exact ⟨legal.1, legal.2.1, fun sleeps => less (legal.2.2 sleeps)⟩
  | got target ret bytes => exact legal

theorem Call.Legal.fallAsleep {call : Call} {lines : List UInt8} (legal : call.Legal lines killed)
    (dry : lines = []) : call.fallAsleep.Legal lines killed := by
  cases call with
  | idle => trivial
  | reading asleep target n bytes => exact ⟨legal.1, legal.2.1, fun _ => dry⟩
  | got target ret bytes => exact legal

/-- A call that is woken by a kill. -/
theorem Call.Legal.kill {call : Call} {lines : List UInt8} (legal : call.Legal lines killed) :
    call.wake.Legal lines true := by
  cases call with
  | idle => trivial
  | reading asleep target n bytes => exact ⟨legal.1, legal.2.1, nofun⟩
  | got target ret bytes => exact legal.imp (fun fails => ⟨fails.1, rfl⟩) id

theorem Takes.less (takes : Takes desk killed target n desk' bytes left ret) (dry : desk.lines = []) :
    desk'.lines = [] := by
  rcases takes.fifo with all | end_
  · exact (List.append_eq_nil_iff.mp (all ▸ dry)).2
  · rw [dry] at end_
    exact absurd end_ (by simp)

end Editor

section Runs
variable {ι : Type} {s t : State ι Input} {a b : State ι Desk}

/-- The line editor's state behind the buffer. -/
def State.desk (s : State ι Input) : State ι Desk := ⟨s.input.desk, s.lock, s.killed, s.call⟩

theorem boot_desk : (State.boot empty : State ι Input).desk = .boot ⟨[], []⟩ := by
  have clear : empty.desk = ⟨[], []⟩ := by
    unfold Input.desk Input.lines Input.edit empty
    dsimp only
    rw [used_self, window_zero]
  unfold State.desk State.boot
  dsimp only
  rw [clear]

variable [DecidableEq ι]

theorem Step.refines (step : Step consoleintr consoleread s t) (valid : s.input.Valid) :
    Step Desk.key Desk.read s.desk t.desk ∧ t.input.Valid := by
  cases step with
  | key c x woken free run =>
    obtain ⟨same, kept⟩ := consoleintr_refines (c := c) valid
    rw [run] at same kept
    exact ⟨.key s.desk c x.desk woken free same, kept⟩
  | start i n here => exact ⟨.start s.desk i n here, valid⟩
  | turn i target n before x bytes left ret free here run =>
    obtain ⟨same, kept⟩ := @consoleread_refines s.input (s.killed i) target n valid
    rw [run] at same kept
    exact ⟨.turn s.desk i target n before x.desk bytes left ret free here same, kept⟩
  | sleep i holds => exact ⟨.sleep s.desk i holds, valid⟩
  | kill i => exact ⟨.kill s.desk i, valid⟩

theorem empty_valid : empty.Valid := ⟨by decide, List.not_mem_nil⟩

theorem run_refines (run : Relation.ReflTransGen (Step consoleintr consoleread) (.boot empty) s) :
    Relation.ReflTransGen (Step Desk.key Desk.read) (.boot ⟨[], []⟩) s.desk ∧ s.input.Valid := by
  induction run with
  | refl => exact ⟨by rw [boot_desk], empty_valid⟩
  | tail _ step ih =>
    obtain ⟨next, kept⟩ := step.refines ih.2
    exact ⟨ih.1.tail next, kept⟩

/-- A process on its way into `sleep` has found no text. -/
structure Inv (a : State ι Desk) : Prop where
  held : a.lock ≠ none → a.input.lines = []
  calls : ∀ i, (a.call i).Legal a.input.lines (a.killed i)

theorem Inv.step (inv : Inv a) (step : Step Desk.key Desk.read a b) : Inv b := by
  obtain ⟨held, calls⟩ := inv
  cases step with
  | key c x woken free run =>
    refine ⟨fun taken => absurd free taken, fun j => ?_⟩
    cases woken with
    | true => exact (calls j).wake
    | false => exact (calls j).drained fun dry => (Desk.key_lines run).trans dry
  | start i n here =>
    exact ⟨held, forall_moved (P := fun j => Call.Legal a.input.lines (a.killed j))
      ⟨Nat.zero_add n, Plain.nil, nofun⟩ fun j _ => calls j⟩
  | turn i target n before x bytes left ret free here run =>
    have takes := Desk.read_takes run
    have mine := calls i
    rw [here] at mine
    obtain ⟨size, plain, -⟩ := mine
    have count := takes.count
    refine ⟨fun taken => ?_, forall_moved (P := fun j => Call.Legal x.lines (a.killed j)) ?_ fun j _ =>
      (calls j).drained takes.less⟩
    · cases ret with
      | none => exact (takes.sleeps rfl).1
      | some value => exact absurd rfl taken
    · cases ret with
      | none => exact ⟨by rw [List.length_append]; omega, plain.append (takes.sleeps rfl).2, nofun⟩
      | some value =>
        refine (takes.returned value rfl).symm.elim (fun ⟨is, part⟩ => .inr ⟨?_, ?_, OneLine.append plain part⟩) .inl
        · rw [is, List.length_append]
          omega
        · rw [List.length_append]
          omega
  | sleep i holds =>
    have dry := held (by rw [holds]; exact Option.some_ne_none i)
    exact ⟨fun taken => absurd rfl taken, forall_moved (P := fun j => Call.Legal a.input.lines (a.killed j))
      ((calls i).fallAsleep dry) fun j _ => calls j⟩
  | kill i =>
    refine ⟨held, fun j => ?_⟩
    by_cases self : j = i
    · subst self
      simp only [Function.update_self]
      exact (calls j).kill
    · simp only [Function.update_of_ne self]
      exact calls j

theorem Inv.run (run : Relation.ReflTransGen (Step Desk.key Desk.read) (.boot ⟨[], []⟩) a) : Inv a :=
  run_keeps run ⟨fun _ => rfl, fun _ => trivial⟩ fun _ _ inv step => inv.step step

/-- Every run of the console is a run of the line editor: the ring with its three counters holds the text to read
and the line being typed, together at most `INPUT_BUF` bytes. -/
theorem console_refines (run : Relation.ReflTransGen (Step consoleintr consoleread) (.boot empty) s) :
    Relation.ReflTransGen (Step Desk.key Desk.read) (.boot ⟨[], []⟩) s.desk ∧
      s.desk.input.lines.length + s.desk.input.edit.length ≤ INPUT_BUF := by
  obtain ⟨desks, valid⟩ := run_refines run
  have within := valid.within
  rw [← Input.lines_length, ← Input.edit_length] at within
  exact ⟨desks, within⟩

/-- A process asleep in `consoleread` finds nothing to read. A read that is over gives one line or the first part of
one, no more than was asked for, unless its process was killed. -/
theorem console_reads (run : Relation.ReflTransGen (Step consoleintr consoleread) (.boot empty) s) (i : ι) :
    (∀ target n bytes, s.call i = .reading true target n bytes → s.input.r = s.input.w) ∧
      ∀ target ret bytes, s.call i = .got target ret bytes → ret = -1 ∧ s.killed i = true ∨
        ret = bytes.length ∧ bytes.length ≤ target ∧ OneLine bytes := by
  have legal := (Inv.run (run_refines run).1).calls i
  refine ⟨fun target n bytes here => ?_, fun target ret bytes here => ?_⟩
  · rw [show s.desk.call i = _ from here] at legal
    exact Input.lines_nil.mpr (legal.2.2 rfl)
  · rw [show s.desk.call i = _ from here] at legal
    exact legal

/-- `hi` and a newline are typed and read. Another reader finds nothing and is killed on its way into `sleep`. -/
theorem typed_hi : ∃ s : State Bool Input, Relation.ReflTransGen (Step consoleintr consoleread) (.boot empty) s ∧
    s.call true = .got 8 3 [104, 105, 10] ∧ s.call false = .reading true 4 4 [] ∧ s.killed false = true := by
  have h : Relation.ReflTransGen (Step consoleintr consoleread) (State.boot (ι := Bool) empty) _ :=
    .single (.key _ 104 _ _ rfl rfl)
  have i := h.tail (.key _ 105 _ _ rfl rfl)
  have line := i.tail (.key _ carriageReturn _ _ rfl rfl)
  have start := line.tail (.start _ true 8 trivial)
  have read := start.tail (.turn _ true 8 8 [] _ [104, 105, 10] 5 (some 3) rfl rfl rfl)
  have start' := read.tail (.start _ false 4 trivial)
  have waits := start'.tail (.turn _ false 4 4 [] _ [] 4 none rfl rfl rfl)
  have killed := waits.tail (.kill _ false)
  exact ⟨_, killed.tail (.sleep _ false rfl), rfl, rfl, rfl⟩

theorem console_refines_hi : ∃ s : State Bool Input, s.call true = .got 8 3 [104, 105, 10] ∧
    Relation.ReflTransGen (Step Desk.key Desk.read) (.boot ⟨[], []⟩) s.desk ∧
      s.desk.input.lines.length + s.desk.input.edit.length ≤ INPUT_BUF := by
  obtain ⟨s, run, read, -⟩ := typed_hi
  exact ⟨s, read, console_refines run⟩

theorem console_reads_hi : ∃ s : State Bool Input, s.call true = .got 8 3 [104, 105, 10] ∧
    s.call false = .reading true 4 4 [] ∧ s.killed false = true ∧ ∀ i,
      (∀ target n bytes, s.call i = .reading true target n bytes → s.input.r = s.input.w) ∧
      ∀ target ret bytes, s.call i = .got target ret bytes → ret = -1 ∧ s.killed i = true ∨
        ret = bytes.length ∧ bytes.length ≤ target ∧ OneLine bytes := by
  obtain ⟨s, run, read, asleep, killed⟩ := typed_hi
  exact ⟨s, read, asleep, killed, fun i => console_reads run i⟩

end Runs

end OsLabs.Console
