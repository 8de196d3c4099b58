import Mathlib.Data.Fintype.Basic
import Mathlib.Data.Fin.Basic
import Mathlib.Data.List.FinRange
import Mathlib.Data.Nat.Prime.Basic
import OsLabs.Lib.Bytes
import OsLabs.Xv6.ProcTable

namespace OsLabs.Xv6.Lottery
open ByteMemory

abbrev Slot := Fin NPROC

/-- The fields of `struct proc` of xv6_work that scheduling and `getprocessesinfo` use. -/
structure Entry where
  state : ProcState
  pid : Int
  parent : Option Slot
  timesScheduled : Int
  tickets : Int
  deriving DecidableEq

/-- Where `fork` is: before `kalloc` in `allocproc`, before `copyuvm`, before the assignments
of `parent`, `tickets` and `times_scheduled`, and before the child becomes runnable. -/
inductive Stage
  | kstack | copyuvm | parent | tickets | timesScheduled | publish
  deriving DecidableEq

/-- The process table with `nextpid`; `forking` says how far a process has come in a `fork`. -/
structure Ptable where
  proc : Slot → Entry
  forking : Slot → Option (Slot × Stage)
  nextpid : Int

def initproc : Slot := 0

/-- The table after `userinit`. -/
def boot : Ptable where
  proc := fun i => if i = initproc then ⟨.runnable, 1, none, 0, 10⟩ else ⟨.unused, 0, none, 0, 0⟩
  forking := fun _ => none
  nextpid := 2

section Random

/-- `lcg_parkmiller`: the next number, which is also the next state. -/
def lcgParkmiller (state : Nat) : Nat :=
  let n := 0x7fffffff
  let g := 48271
  let a := state % (n / g) * g
  let b := state / (n / g) * (n % g)
  if a > b then a - b else a + (n - b)

/-- `unsigned num_rand = RANDOM_MAX + 1` -/
def numRand : Nat := 2 ^ 31

/-- `unsigned num_bins = max + 1` -/
def numBins (max : Nat) : Nat := (max + 1) % 2 ^ 32

/-- `unsigned bin_size = num_rand / num_bins`, where `num_bins` is not 0. -/
def binSize (max : Nat) : Nat := numRand / numBins max

/-- `unsigned defect = num_rand % num_bins`, where `num_bins` is not 0. -/
def defect (max : Nat) : Nat := numRand % numBins max

/-- The test of the loop of `random_at_most` for a number `x` of `next_random`. -/
def rejects (max x : Nat) : Bool := (numRand + 2 ^ 32 - defect max) % 2 ^ 32 ≤ x

/-- What `random_at_most` returns when its loop ends with `x`; none is a division by 0, or a
loop that goes on after `x`. -/
def randomAtMost (max x : Nat) : Option Nat :=
  if numBins max = 0 ∨ rejects max x ∨ binSize max = 0 then none else some (x / binSize max)

/-- The numbers of `next_random`. -/
def IsRandom (x : Nat) : Prop := 0 < x ∧ x < 0x7fffffff

instance (x : Nat) : Decidable (IsRandom x) := inferInstanceAs (Decidable (_ ∧ _))

/-- The generator stays among its numbers: it never reaches 0, where it would stay. -/
theorem IsRandom.lcgParkmiller {state : Nat} (random : IsRandom state) : IsRandom (lcgParkmiller state) := by
  obtain ⟨positive, bound⟩ := random
  have whole := Nat.div_add_mod state 44488
  have small : state % 44488 < 44488 := Nat.mod_lt _ (by omega)
  have few : state / 44488 ≤ 48271 := by omega
  simp only [IsRandom, Lottery.lcgParkmiller, Nat.reduceDiv, Nat.reduceMod]
  -- The two products are equal only at 0 and at the modulus.
  have different : state % 44488 * 48271 ≠ state / 44488 * 3399 := by
    intro same
    have divides : 48271 ∣ state / 44488 :=
      (by decide : Nat.Coprime 48271 3399).dvd_of_dvd_mul_right (Dvd.intro_left _ same)
    obtain ⟨c, times⟩ := divides
    omega
  split <;> omega

end Random

section Scheduler

/-- The first loop of `scheduler`. -/
def sumLoop (s : Ptable) : List Slot → Int → Int
  | [], total => total
  | p :: ps, total =>
    if (s.proc p).state = .runnable then sumLoop s ps (wrap32 (total + (s.proc p).tickets)) else sumLoop s ps total

def totalTickets (s : Ptable) : Int := sumLoop s (List.finRange NPROC) 0

/-- No addition of the first loop overflows. -/
def NoOverflow (s : Ptable) : List Slot → Int → Prop
  | [], _ => True
  | p :: ps, total =>
    if (s.proc p).state = .runnable then
      (-2 ^ 31 ≤ total + (s.proc p).tickets ∧ total + (s.proc p).tickets < 2 ^ 31) ∧
        NoOverflow s ps (wrap32 (total + (s.proc p).tickets))
    else NoOverflow s ps total

/-- The second loop of `scheduler`: the process that takes `random_num` below 0. -/
def drawLoop (s : Ptable) : List Slot → Int → Option Slot
  | [], _ => none
  | p :: ps, randomNum =>
    if (s.proc p).state = .runnable then
      if wrap32 (randomNum - (s.proc p).tickets) < 0 then some p else drawLoop s ps (wrap32 (randomNum - (s.proc p).tickets))
    else drawLoop s ps randomNum

/-- The argument `(unsigned) (total_tickets)` of `random_at_most`. -/
def ticketBound (s : Ptable) : Nat := (totalTickets s % 2 ^ 32).toNat

/-- The process that a pass of `scheduler` runs when the last number of `next_random` is `x`. -/
def winner (s : Ptable) (x : Nat) : Option Slot :=
  (randomAtMost (ticketBound s) x).bind fun r => drawLoop s (List.finRange NPROC) (wrap32 r)

end Scheduler

/-- The steps of the processors: a pass of `scheduler`, `yield`, `sleep`, `wakeup` (or `kill`) of
a process, `settickets` (none is an argument that cannot be fetched), the locked part of `allocproc`,
the next part of a `fork` that goes on or gives up, `exit`, and the part of `wait` that frees a child. -/
inductive Event
  | dispatch (i : Slot) (x : Nat)
  | yield (i : Slot)
  | sleep (i : Slot)
  | wakeup (i : Slot)
  | settickets (i : Slot) (arg : Option Int)
  | allocproc (i np : Slot)
  | forkStep (i : Slot)
  | forkFail (i : Slot)
  | exit (i : Slot)
  | wait (i j : Slot)

section Steps

def Ptable.set (s : Ptable) (i : Slot) (e : Entry) : Ptable := { s with proc := Function.update s.proc i e }

def Ptable.setState (s : Ptable) (i : Slot) (state : ProcState) : Ptable := s.set i { s.proc i with state := state }

def Ptable.goto (s : Ptable) (i : Slot) (stage : Option (Slot × Stage)) : Ptable :=
  { s with forking := Function.update s.forking i stage }

/-- The loop of `allocproc`. -/
def firstUnused (s : Ptable) : Option Slot := Fin.find? fun p => (s.proc p).state = .unused

/-- The child that the loop of `wait` frees. -/
def firstZombie (s : Ptable) (i : Slot) : Option Slot :=
  Fin.find? fun p => (s.proc p).parent = some i ∧ (s.proc p).state = .zombie

/-- A process that runs in user space may call the kernel. -/
def Ptable.Calls (s : Ptable) (i : Slot) : Prop := (s.proc i).state = .running ∧ s.forking i = none

instance (s : Ptable) (i : Slot) : Decidable (s.Calls i) := inferInstanceAs (Decidable (_ ∧ _))

/-- What `fork` of process `i` does next for its child `np`. -/
def forkNext (s : Ptable) (i np : Slot) : Stage → Ptable
  | .kstack => s.goto i (some (np, .copyuvm))
  | .copyuvm => s.goto i (some (np, .parent))
  | .parent => (s.set np { s.proc np with parent := some i }).goto i (some (np, .tickets))
  | .tickets => (s.set np { s.proc np with tickets := (s.proc i).tickets }).goto i (some (np, .timesScheduled))
  | .timesScheduled => (s.set np { s.proc np with timesScheduled := 0 }).goto i (some (np, .publish))
  | .publish => (s.setState np .runnable).goto i none

/-- `kalloc` or `copyuvm` has returned 0. -/
def forkGiveUp (s : Ptable) (i np : Slot) : Stage → Option Ptable
  | .kstack | .copyuvm => some ((s.setState np .unused).goto i none)
  | .parent | .tickets | .timesScheduled | .publish => none

/-- The loop of `exit` that passes the children of process `i` to init. -/
def passChildren (s : Ptable) (i : Slot) : Ptable :=
  { s with proc := fun p => if (s.proc p).parent = some i then { s.proc p with parent := some initproc } else s.proc p }

/-- The table after a step; none is a step that is not possible. -/
def step (s : Ptable) : Event → Option Ptable
  | .dispatch i x =>
    if IsRandom x ∧ winner s x = some i then
      some (s.set i { s.proc i with state := .running, timesScheduled := wrap32 ((s.proc i).timesScheduled + 1) })
    else none
  | .yield i => if (s.proc i).state = .running then some (s.setState i .runnable) else none
  | .sleep i => if (s.proc i).state = .running then some (s.setState i .sleeping) else none
  | .wakeup i => if (s.proc i).state = .sleeping then some (s.setState i .runnable) else none
  | .settickets i arg =>
    if s.Calls i ∧ -2 ^ 31 ≤ arg.getD 10 ∧ arg.getD 10 < 2 ^ 31 then some (s.set i { s.proc i with tickets := arg.getD 10 })
    else none
  | .allocproc i np =>
    if s.Calls i ∧ firstUnused s = some np then
      some ({ s.set np { s.proc np with state := .embryo, pid := s.nextpid } with nextpid := wrap32 (s.nextpid + 1) }.goto i
        (some (np, .kstack)))
    else none
  | .forkStep i =>
    if (s.proc i).state = .running then (s.forking i).map fun place => forkNext s i place.1 place.2 else none
  | .forkFail i =>
    if (s.proc i).state = .running then (s.forking i).bind fun place => forkGiveUp s i place.1 place.2 else none
  | .exit i =>
    if s.Calls i ∧ i ≠ initproc then
      some ((passChildren s i).setState i .zombie)
    else none
  | .wait i j =>
    if s.Calls i ∧ firstZombie s i = some j then
      some (s.set j { s.proc j with state := .unused, pid := 0, parent := none })
    else none

/-- The steps with all that they need and do. -/
inductive Moved (s : Ptable) : Event → Ptable → Prop
  | dispatch {i : Slot} {x : Nat} : IsRandom x → winner s x = some i →
      Moved s (.dispatch i x)
        (s.set i { s.proc i with state := .running, timesScheduled := wrap32 ((s.proc i).timesScheduled + 1) })
  | yield {i : Slot} : (s.proc i).state = .running → Moved s (.yield i) (s.setState i .runnable)
  | sleep {i : Slot} : (s.proc i).state = .running → Moved s (.sleep i) (s.setState i .sleeping)
  | wakeup {i : Slot} : (s.proc i).state = .sleeping → Moved s (.wakeup i) (s.setState i .runnable)
  | settickets {i : Slot} {arg : Option Int} : s.Calls i → -2 ^ 31 ≤ arg.getD 10 → arg.getD 10 < 2 ^ 31 →
      Moved s (.settickets i arg) (s.set i { s.proc i with tickets := arg.getD 10 })
  | allocproc {i np : Slot} : s.Calls i → firstUnused s = some np →
      Moved s (.allocproc i np)
        ({ s.set np { s.proc np with state := .embryo, pid := s.nextpid } with nextpid := wrap32 (s.nextpid + 1) }.goto i
          (some (np, .kstack)))
  | forkStep {i np : Slot} {stage : Stage} : (s.proc i).state = .running → s.forking i = some (np, stage) →
      Moved s (.forkStep i) (forkNext s i np stage)
  | forkFail {i np : Slot} {stage : Stage} : (s.proc i).state = .running → s.forking i = some (np, stage) →
      stage = .kstack ∨ stage = .copyuvm → Moved s (.forkFail i) ((s.setState np .unused).goto i none)
  | exit {i : Slot} : s.Calls i → i ≠ initproc → Moved s (.exit i) ((passChildren s i).setState i .zombie)
  | wait {i j : Slot} : s.Calls i → firstZombie s i = some j →
      Moved s (.wait i j) (s.set j { s.proc j with state := .unused, pid := 0, parent := none })

theorem step_moved {s t : Ptable} {e : Event} (stepped : step s e = some t) : Moved s e t := by
  cases e with
  | dispatch i x =>
    obtain ⟨⟨random, wins⟩, same⟩ := Option.ite_none_right_eq_some.mp stepped
    exact Option.some.inj same ▸ .dispatch random wins
  | yield i =>
    obtain ⟨running, same⟩ := Option.ite_none_right_eq_some.mp stepped
    exact Option.some.inj same ▸ .yield running
  | sleep i =>
    obtain ⟨running, same⟩ := Option.ite_none_right_eq_some.mp stepped
    exact Option.some.inj same ▸ .sleep running
  | wakeup i =>
    obtain ⟨sleeping, same⟩ := Option.ite_none_right_eq_some.mp stepped
    exact Option.some.inj same ▸ .wakeup sleeping
  | settickets i arg =>
    obtain ⟨⟨calls, lower, upper⟩, same⟩ := Option.ite_none_right_eq_some.mp stepped
    exact Option.some.inj same ▸ .settickets calls lower upper
  | allocproc i np =>
    obtain ⟨⟨calls, first⟩, same⟩ := Option.ite_none_right_eq_some.mp stepped
    exact Option.some.inj same ▸ .allocproc calls first
  | forkStep i =>
    obtain ⟨running, went⟩ := Option.ite_none_right_eq_some.mp stepped
    obtain ⟨⟨np, stage⟩, place, same⟩ := Option.map_eq_some_iff.mp went
    exact same ▸ .forkStep running place
  | forkFail i =>
    obtain ⟨running, gave⟩ := Option.ite_none_right_eq_some.mp stepped
    obtain ⟨⟨np, stage⟩, place, same⟩ := Option.bind_eq_some_iff.mp gave
    cases stage with
    | kstack => exact Option.some.inj same ▸ .forkFail running place (.inl rfl)
    | copyuvm => exact Option.some.inj same ▸ .forkFail running place (.inr rfl)
    | parent | tickets | timesScheduled | publish => cases same
  | exit i =>
    obtain ⟨⟨calls, other⟩, same⟩ := Option.ite_none_right_eq_some.mp stepped
    exact Option.some.inj same ▸ .exit calls other
  | wait i j =>
    obtain ⟨⟨calls, first⟩, same⟩ := Option.ite_none_right_eq_some.mp stepped
    exact Option.some.inj same ▸ .wait calls first

/-- The runs of the system, with their events, the latest first. -/
inductive Run : List Event → Ptable → Prop
  | boot : Run [] boot
  | next {es : List Event} {s t : Ptable} (e : Event) : Run es s → step s e = some t → Run (e :: es) t

/-- A run for a list of events, the first of them first. -/
def replay (s : Ptable) : List Event → Option Ptable
  | [] => some s
  | e :: es => (step s e).bind fun t => replay t es

theorem Run.replay {es : List Event} {s : Ptable} (run : Run es s) (later : List Event) {t : Ptable}
    (played : Lottery.replay s later = some t) : Run (later.reverse ++ es) t := by
  induction later generalizing es s with
  | nil =>
    obtain rfl := Option.some.inj played
    exact run
  | cons e later ih =>
    obtain ⟨u, first, rest⟩ := Option.bind_eq_some_iff.mp played
    rw [List.reverse_cons, List.append_assoc]
    exact ih (.next e run first) rest

/-- A list of events that can be played reaches the states that a computation finds. -/
theorem replay_reaches {events : List Event} {P : Ptable → Prop} [DecidablePred P]
    (played : (replay boot events).any (fun t => decide (P t)) = true) : ∃ t, Run events.reverse t ∧ P t := by
  obtain ⟨t, reached, holds⟩ := (Option.any_eq_true _ _).mp played
  exact ⟨t, by simpa using Run.boot.replay _ reached, of_decide_eq_true holds⟩

/-- The table in which init runs for the first time. -/
def running : Ptable := boot.set initproc ⟨.running, 1, none, wrap32 (0 + 1), 10⟩

theorem dispatch_boot : step boot (.dispatch initproc 1) = some running := by
  have wins : IsRandom 1 ∧ winner boot 1 = some initproc := by decide +kernel
  simp only [step, if_pos wins]
  rfl

theorem running_calls : running.Calls initproc := by decide

end Steps

section Snapshot

/-- `struct processes_info`; the arrays as far as they are filled. -/
structure ProcessesInfo where
  numProcesses : Nat
  pids : List Int
  timesScheduled : List Int
  tickets : List Int

/-- The slots that are not `UNUSED`, in the order of the table. -/
def listed (s : Ptable) : List Slot := (List.finRange NPROC).filter fun p => (s.proc p).state ≠ .unused

/-- The loop of `getprocesseshelper`. -/
def infoLoop (s : Ptable) : List Slot → ProcessesInfo → ProcessesInfo
  | [], info => info
  | p :: ps, info =>
    if (s.proc p).state = .unused then infoLoop s ps info
    else infoLoop s ps ⟨info.numProcesses + 1, info.pids ++ [(s.proc p).pid],
      info.timesScheduled ++ [(s.proc p).timesScheduled], info.tickets ++ [(s.proc p).tickets]⟩

def getprocesseshelper (s : Ptable) : ProcessesInfo := infoLoop s (List.finRange NPROC) ⟨0, [], [], []⟩

end Snapshot

end OsLabs.Xv6.Lottery
