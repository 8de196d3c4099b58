import OsLabs.Lib.Interleaving
import OsLabs.Xv6.Lottery

namespace OsLabs.Xv6.Lottery
open ByteMemory

section History

/-- How often the process of slot `p` has been dispatched since it was created. -/
def dispatched (p : Slot) : List Event → Nat
  | [] => 0
  | .dispatch i _ :: es => if p = i then dispatched i es + 1 else dispatched p es
  | .allocproc _ np :: es => if p = np then 0 else dispatched p es
  | _ :: es => dispatched p es

/-- The tickets that the process of slot `p` has last set, or else those of its parent when it
was created, or else the 10 of the first process. -/
def owed (p : Slot) : List Event → Int
  | [] => 10
  | .settickets i arg :: es => if p = i then arg.getD 10 else owed p es
  | .allocproc i np :: es => if p = np then owed i es else owed p es
  | _ :: es => owed p es

theorem dispatched_dispatch (i : Slot) (x : Nat) (es : List Event) :
    (fun p => dispatched p (.dispatch i x :: es)) = Function.update (fun p => dispatched p es) i
      (dispatched i es + 1) := by
  funext p
  rw [Function.update_apply]
  rfl

theorem owed_settickets (i : Slot) (arg : Option Int) (es : List Event) :
    (fun p => owed p (.settickets i arg :: es)) = Function.update (fun p => owed p es) i (arg.getD 10) := by
  funext p
  rw [Function.update_apply]
  rfl

theorem dispatched_allocproc (i np : Slot) (es : List Event) :
    (fun p => dispatched p (.allocproc i np :: es)) = Function.update (fun p => dispatched p es) np 0 := by
  funext p
  rw [Function.update_apply]
  rfl

theorem owed_allocproc (i np : Slot) (es : List Event) :
    (fun p => owed p (.allocproc i np :: es)) = Function.update (fun p => owed p es) np (owed i es) := by
  funext p
  rw [Function.update_apply]
  rfl

end History

/-- The stages at which the child has its tickets, and its count. -/
def Stage.hasTickets : Stage → Bool
  | .kstack | .copyuvm | .parent | .tickets => false
  | .timesScheduled | .publish => true

def Stage.hasTimes : Stage → Bool
  | .kstack | .copyuvm | .parent | .tickets | .timesScheduled => false
  | .publish => true

def Alive (state : ProcState) : Prop := state = .running ∨ state = .runnable ∨ state = .sleeping

instance (state : ProcState) : Decidable (Alive state) := inferInstanceAs (Decidable (_ ∨ _))

theorem Alive.ne_embryo {state : ProcState} (alive : Alive state) : state ≠ .embryo := by
  rcases alive with rfl | rfl | rfl <;> decide

theorem Alive.ne_unused {state : ProcState} (alive : Alive state) : state ≠ .unused := by
  rcases alive with rfl | rfl | rfl <;> decide

/-- The embryos are the children of the forks under way, and each slot holds the count `d` and
the tickets `o` of its process as soon as its fork has written them. -/
structure Held (d : Slot → Nat) (o : Slot → Int) (s : Ptable) : Prop where
  child : ∀ i np stage, s.forking i = some (np, stage) →
    (s.proc np).state = .embryo ∧ Alive (s.proc i).state ∧ d np = 0 ∧ o np = o i
  single : ∀ i j np a b, s.forking i = some (np, a) → s.forking j = some (np, b) → i = j
  embryo : ∀ p, (s.proc p).state = .embryo → ∃ i stage, s.forking i = some (p, stage)
  times : ∀ p, (s.proc p).state ≠ .unused → (∀ i stage, s.forking i = some (p, stage) → stage.hasTimes = true) →
    (s.proc p).timesScheduled = wrap32 (d p)
  tickets : ∀ p, (s.proc p).state ≠ .unused → (∀ i stage, s.forking i = some (p, stage) → stage.hasTickets = true) →
    (s.proc p).tickets = o p

/-- What `Held` says of one slot. -/
structure Known (count : Nat) (amount : Int) (s : Ptable) (p : Slot) : Prop where
  embryo : (s.proc p).state = .embryo → ∃ i stage, s.forking i = some (p, stage)
  times : (s.proc p).state ≠ .unused → (∀ i stage, s.forking i = some (p, stage) → stage.hasTimes = true) →
    (s.proc p).timesScheduled = wrap32 count
  tickets : (s.proc p).state ≠ .unused → (∀ i stage, s.forking i = some (p, stage) → stage.hasTickets = true) →
    (s.proc p).tickets = amount

section Held
variable {s t : Ptable} {d : Slot → Nat} {o : Slot → Int} {i p np : Slot} {stage : Stage} {entry : Entry}

/-- Only an embryo is the child of a fork. -/
theorem Held.not_child (held : Held d o s) (grown : (s.proc p).state ≠ .embryo) :
    s.forking i ≠ some (p, stage) := fun forking => grown (held.child i p stage forking).1

/-- Only a process that lives is in a fork. -/
theorem Held.idle (held : Held d o s) (dead : ¬ Alive (s.proc p).state) : s.forking p = none := by
  cases forking : s.forking p with
  | none => rfl
  | some place => exact absurd (held.child p place.1 place.2 forking).2.1 dead

/-- A step on a slot that no fork is filling. -/
theorem Held.set (held : Held d o s) (grown : (s.proc p).state ≠ .embryo) (still : entry.state ≠ .embryo)
    {count : Nat} {tickets : Int}
    (values : entry.state ≠ .unused → entry.timesScheduled = wrap32 count ∧ entry.tickets = tickets)
    (parent : s.forking p = none ∨ Alive entry.state ∧ tickets = o p) :
    Held (Function.update d p count) (Function.update o p tickets) (s.set p entry) := by
  have away : ∀ i np stage, s.forking i = some (np, stage) → np ≠ p := by
    rintro i np stage forking rfl
    exact held.not_child grown forking
  constructor
  · intro i np stage forking
    obtain ⟨embryo, alive, none, same⟩ := held.child i np stage forking
    have other := away i np stage forking
    simp only [Ptable.set, Function.update_of_ne other]
    by_cases self : i = p
    · subst self
      rcases parent with idle | ⟨alive, kept⟩
      · cases idle.symm.trans forking
      · simp only [Function.update_self]
        exact ⟨embryo, alive, none, same.trans kept.symm⟩
    · simp only [Function.update_of_ne self]
      exact ⟨embryo, alive, none, same⟩
  · exact held.single
  · refine Interleaving.forall_moved (P := fun (q : Slot) (entry : Entry) => entry.state = .embryo →
      ∃ i stage, s.forking i = some (q, stage)) (fun embryo => absurd embryo still) fun q _ => held.embryo q
  · intro q
    by_cases self : q = p
    · subst self
      simp only [Ptable.set, Function.update_self]
      exact fun used _ => (values used).1
    · simp only [Ptable.set, Function.update_of_ne self]
      exact held.times q
  · intro q
    by_cases self : q = p
    · subst self
      simp only [Ptable.set, Function.update_self]
      exact fun used _ => (values used).2
    · simp only [Ptable.set, Function.update_of_ne self]
      exact held.tickets q

/-- A step that keeps the count and the tickets of a process. -/
theorem Held.keep (held : Held d o s) (grown : (s.proc p).state ≠ .embryo) (used : (s.proc p).state ≠ .unused)
    (still : entry.state ≠ .embryo) (times : entry.timesScheduled = (s.proc p).timesScheduled)
    (tickets : entry.tickets = (s.proc p).tickets) (parent : s.forking p = none ∨ Alive entry.state) :
    Held d o (s.set p entry) := by
  have count := held.times p used fun i stage forking => absurd forking (held.not_child grown)
  have amount := held.tickets p used fun i stage forking => absurd forking (held.not_child grown)
  have kept : Held (Function.update d p (d p)) (Function.update o p (o p)) (s.set p entry) :=
    held.set grown still (fun _ => ⟨times.trans count, tickets.trans amount⟩)
      (parent.imp_right fun alive => ⟨alive, rfl⟩)
  simpa only [Function.update_eq_self] using kept

theorem Held.setState {state : ProcState} (held : Held d o s) (alive : Alive (s.proc p).state)
    (still : Alive state) : Held d o (s.setState p state) :=
  held.keep alive.ne_embryo alive.ne_unused still.ne_embryo rfl rfl (.inr still)

theorem passChildren_proc (s : Ptable) (i p : Slot) :
    ((passChildren s i).proc p).state = (s.proc p).state ∧
      ((passChildren s i).proc p).timesScheduled = (s.proc p).timesScheduled ∧
      ((passChildren s i).proc p).tickets = (s.proc p).tickets := by
  simp only [passChildren]
  split
  · exact ⟨rfl, rfl, rfl⟩
  · exact ⟨rfl, rfl, rfl⟩

/-- The links to the parents do not matter. -/
theorem Held.passChildren (held : Held d o s) (i : Slot) : Held d o (passChildren s i) := by
  have same := passChildren_proc s i
  constructor
  · intro j np stage forking
    rw [(same np).1, (same j).1]
    exact held.child j np stage forking
  · exact held.single
  · intro p embryo
    rw [(same p).1] at embryo
    exact held.embryo p embryo
  · intro p
    rw [(same p).1, (same p).2.1]
    exact held.times p
  · intro p
    rw [(same p).1, (same p).2.2]
    exact held.tickets p

theorem Held.known (held : Held d o s) (p : Slot) : Known (d p) (o p) s p :=
  ⟨held.embryo p, held.times p, held.tickets p⟩

/-- A slot is as it was when another one is written and no fork of its own goes on. -/
theorem Known.elsewhere {count : Nat} {amount : Int} {place : Option (Slot × Stage)} (known : Known count amount s p)
    (other : p ≠ np) (olds : ∀ {j before}, s.forking j = some (p, before) →
      Function.update s.forking i place j = some (p, before)) :
    Known count amount ((s.set np entry).goto i place) p := by
  have same : ((s.set np entry).goto i place).proc p = s.proc p := Function.update_of_ne other ..
  refine ⟨fun child => ?_, fun used written => ?_, fun used written => ?_⟩
  · rw [same] at child
    obtain ⟨j, before, old⟩ := known.embryo child
    exact ⟨j, before, olds old⟩
  · rw [same] at used ⊢
    exact known.times used fun j before old => written j before (olds old)
  · rw [same] at used ⊢
    exact known.tickets used fun j before old => written j before (olds old)

theorem Held.of_known (child : ∀ i np stage, s.forking i = some (np, stage) →
      (s.proc np).state = .embryo ∧ Alive (s.proc i).state ∧ d np = 0 ∧ o np = o i)
    (single : ∀ i j np a b, s.forking i = some (np, a) → s.forking j = some (np, b) → i = j)
    (known : ∀ p, Known (d p) (o p) s p) : Held d o s :=
  ⟨child, single, fun p => (known p).embryo, fun p => (known p).times, fun p => (known p).tickets⟩

/-- The other forks are where they were when the fork that fills a slot goes on or ends. -/
theorem forks_kept (forking : s.forking i = some (np, stage)) {place : Option (Slot × Stage)} (other : p ≠ np)
    {j : Slot} {before : Stage} (old : s.forking j = some (p, before)) :
    Function.update s.forking i place j = some (p, before) := by
  have self : j ≠ i := by
    rintro rfl
    cases forking.symm.trans old
    exact other rfl
  rw [Function.update_of_ne self, old]

/-- A new embryo: nothing is written yet. -/
theorem Held.allocproc (held : Held d o s) (alive : Alive (s.proc i).state) (idle : s.forking i = none)
    (unused : (s.proc np).state = .unused) (embryo : entry.state = .embryo) :
    Held (Function.update d np 0) (Function.update o np (o i)) ((s.set np entry).goto i (some (np, .kstack))) := by
  have parent : i ≠ np := by
    rintro rfl
    exact alive.ne_unused unused
  have others : ∀ {j p stage}, s.forking j = some (p, stage) → j ≠ i ∧ j ≠ np ∧ p ≠ np := by
    intro j p stage forking
    obtain ⟨child, alive, -⟩ := held.child j p stage forking
    refine ⟨?_, ?_, ?_⟩
    · rintro rfl
      cases idle.symm.trans forking
    · rintro rfl
      exact alive.ne_unused unused
    · rintro rfl
      cases unused.symm.trans child
  have news : ∀ {j p stage}, Function.update s.forking i (some (np, .kstack)) j = some (p, stage) →
      j = i ∧ p = np ∧ stage = .kstack ∨ s.forking j = some (p, stage) := by
    intro j p stage forking
    rcases Interleaving.moved_to forking with ⟨self, new⟩ | ⟨_, old⟩
    · cases new
      exact .inl ⟨self, rfl, rfl⟩
    · exact .inr old
  refine Held.of_known ?_ ?_ fun p => ?_
  · intro j p stage forking
    rcases news forking with ⟨rfl, rfl, rfl⟩ | old
    · simp only [Ptable.goto, Ptable.set, Function.update_self, Function.update_of_ne parent]
      exact ⟨embryo, alive, trivial, trivial⟩
    · obtain ⟨-, away, other⟩ := others old
      simp only [Ptable.goto, Ptable.set, Function.update_of_ne other, Function.update_of_ne away]
      exact held.child j p stage old
  · intro j k p a b first second
    rcases news first with ⟨rfl, rfl, -⟩ | before
    · rcases news second with ⟨rfl, -, -⟩ | earlier
      · rfl
      · exact absurd rfl (others earlier).2.2
    · rcases news second with ⟨rfl, rfl, -⟩ | earlier
      · exact absurd rfl (others before).2.2
      · exact held.single j k p a b before earlier
  · by_cases self : p = np
    · subst self
      have here : ((s.set p entry).goto i (some (p, .kstack))).forking i = some (p, .kstack) :=
        Function.update_self ..
      exact ⟨fun _ => ⟨i, .kstack, here⟩, fun _ written => absurd (written i .kstack here) (by decide),
        fun _ written => absurd (written i .kstack here) (by decide)⟩
    · rw [Function.update_of_ne self, Function.update_of_ne self]
      exact (held.known p).elsewhere self fun old => by rw [Function.update_of_ne (others old).1, old]

/-- The fork of a process comes to another stage, with what that stage has written. -/
theorem Held.advance (held : Held d o s) (forking : s.forking i = some (np, stage)) {later : Stage}
    (embryo : entry.state = .embryo)
    (times : later.hasTimes = true → entry.timesScheduled = wrap32 (d np))
    (tickets : later.hasTickets = true → entry.tickets = o np) :
    Held d o ((s.set np entry).goto i (some (np, later))) := by
  obtain ⟨born, alive, none, same⟩ := held.child i np stage forking
  have news : ∀ {j p after}, Function.update s.forking i (some (np, later)) j = some (p, after) →
      ∃ before, s.forking j = some (p, before) ∧ (p = np ∨ before = after) := by
    intro j p after now
    rcases Interleaving.moved_to now with ⟨rfl, new⟩ | ⟨_, old⟩
    · cases new
      exact ⟨stage, forking, .inl rfl⟩
    · exact ⟨after, old, .inr rfl⟩
  refine Held.of_known ?_ ?_ fun p => ?_
  · intro j p after now
    obtain ⟨before, old, -⟩ := news now
    obtain ⟨child, parent, zero, owes⟩ := held.child j p before old
    have away : j ≠ np := by
      rintro rfl
      exact parent.ne_embryo born
    simp only [Ptable.goto, Ptable.set, Function.update_of_ne away]
    refine ⟨?_, parent, zero, owes⟩
    by_cases self : p = np
    · subst self
      simp only [Function.update_self]
      exact embryo
    · simp only [Function.update_of_ne self]
      exact child
  · intro j k p a b first second
    obtain ⟨_, before, -⟩ := news first
    obtain ⟨_, earlier, -⟩ := news second
    exact held.single j k p _ _ before earlier
  · by_cases self : p = np
    · subst self
      have here : ((s.set p entry).goto i (some (p, later))).forking i = some (p, later) := Function.update_self ..
      have stored : ((s.set p entry).goto i (some (p, later))).proc p = entry := Function.update_self ..
      refine ⟨fun _ => ⟨i, later, here⟩, fun _ written => ?_, fun _ written => ?_⟩
      · rw [stored]
        exact times (written i later here)
      · rw [stored]
        exact tickets (written i later here)
    · exact (held.known p).elsewhere self (forks_kept forking self)

/-- A fork ends: its child is no embryo any more. -/
theorem Held.leave (held : Held d o s) (forking : s.forking i = some (np, stage)) (grown : entry.state ≠ .embryo)
    (values : entry.state ≠ .unused → entry.timesScheduled = wrap32 (d np) ∧ entry.tickets = o np) :
    Held d o ((s.set np entry).goto i none) := by
  obtain ⟨born, -⟩ := held.child i np stage forking
  have news : ∀ {j p after}, Function.update s.forking i none j = some (p, after) →
      s.forking j = some (p, after) ∧ p ≠ np := by
    intro j p after now
    rcases Interleaving.moved_to now with ⟨_, new⟩ | ⟨self, old⟩
    · cases new
    · refine ⟨old, ?_⟩
      rintro rfl
      exact self (held.single j i p after stage old forking)
  refine Held.of_known ?_ ?_ fun p => ?_
  · intro j p after now
    obtain ⟨old, other⟩ := news now
    obtain ⟨child, parent, zero, owes⟩ := held.child j p after old
    have away : j ≠ np := by
      rintro rfl
      exact parent.ne_embryo born
    simp only [Ptable.goto, Ptable.set, Function.update_of_ne away, Function.update_of_ne other]
    exact ⟨child, parent, zero, owes⟩
  · intro j k p a b first second
    exact held.single j k p a b (news first).1 (news second).1
  · by_cases self : p = np
    · subst self
      have stored : ((s.set p entry).goto i none).proc p = entry := Function.update_self ..
      refine ⟨fun child => absurd (stored ▸ child) grown, fun used _ => ?_, fun used _ => ?_⟩
      · rw [stored] at used ⊢
        exact (values used).1
      · rw [stored] at used ⊢
        exact (values used).2
    · exact (held.known p).elsewhere self (forks_kept forking self)

theorem Ptable.set_self (s : Ptable) (i : Slot) : s.set i (s.proc i) = s := by
  simp only [Ptable.set, Function.update_eq_self]

/-- What a fork has written when it is at a stage. -/
theorem Held.written (held : Held d o s) (forking : s.forking i = some (np, stage)) :
    (stage.hasTimes = true → (s.proc np).timesScheduled = wrap32 (d np)) ∧
      (stage.hasTickets = true → (s.proc np).tickets = o np) := by
  obtain ⟨born, -⟩ := held.child i np stage forking
  have used : (s.proc np).state ≠ .unused := by
    rw [born]
    decide
  have only : ∀ {j other}, s.forking j = some (np, other) → other = stage := by
    intro j other also
    obtain rfl := held.single j i np other stage also forking
    cases forking.symm.trans also
    rfl
  exact ⟨fun times => held.times np used fun j other also => only also ▸ times,
    fun tickets => held.tickets np used fun j other also => only also ▸ tickets⟩

/-- During a fork the parent has the tickets that the child is owed. -/
theorem Held.parent_tickets (held : Held d o s) (forking : s.forking i = some (np, stage)) :
    (s.proc i).tickets = o np := by
  obtain ⟨-, alive, -, owes⟩ := held.child i np stage forking
  have own := held.tickets i alive.ne_unused fun j stage also => absurd also (held.not_child alive.ne_embryo)
  exact own.trans owes.symm

theorem Held.forkNext (held : Held d o s) (forking : s.forking i = some (np, stage)) :
    Held d o (forkNext s i np stage) := by
  obtain ⟨born, -, zero, -⟩ := held.child i np stage forking
  obtain ⟨times, tickets⟩ := held.written forking
  cases stage with
  | kstack =>
    have next : Held d o ((s.set np (s.proc np)).goto i (some (np, .copyuvm))) :=
      held.advance forking born nofun nofun
    rwa [Ptable.set_self] at next
  | copyuvm =>
    have next : Held d o ((s.set np (s.proc np)).goto i (some (np, .parent))) := held.advance forking born nofun nofun
    rwa [Ptable.set_self] at next
  | parent => exact held.advance forking born nofun nofun
  | tickets => exact held.advance forking born nofun fun _ => held.parent_tickets forking
  | timesScheduled =>
    refine held.advance forking born (fun _ => ?_) tickets
    rw [zero]
    exact wrap32_zero.symm
  | publish => exact held.leave forking nofun fun _ => ⟨times rfl, tickets rfl⟩

end Held

section Run
variable {s t : Ptable} {es : List Event} {e : Event}

theorem drawLoop_runnable {i : Slot} {ps : List Slot} {randomNum : Int} (drawn : drawLoop s ps randomNum = some i) :
    (s.proc i).state = .runnable := by
  induction ps generalizing randomNum with
  | nil => cases drawn
  | cons p ps ih =>
    by_cases runnable : (s.proc p).state = .runnable
    · rw [drawLoop, if_pos runnable] at drawn
      split at drawn
      · exact Option.some.inj drawn ▸ runnable
      · exact ih drawn
    · rw [drawLoop, if_neg runnable] at drawn
      exact ih drawn

theorem winner_runnable {i : Slot} {x : Nat} (wins : winner s x = some i) : (s.proc i).state = .runnable := by
  obtain ⟨r, -, drawn⟩ := Option.bind_eq_some_iff.mp wins
  exact drawLoop_runnable drawn

theorem held_boot : Held (fun p => dispatched p []) (fun p => owed p []) boot := by
  have only : ∀ p, (boot.proc p).state ≠ .unused → p = initproc := fun p used => by
    by_contra other
    exact used (congrArg Entry.state (if_neg other))
  refine ⟨nofun, nofun, ?_, fun p used _ => ?_, fun p used _ => ?_⟩
  · intro p
    simp only [boot]
    split
    · nofun
    · nofun
  · rw [only p used]
    rfl
  · rw [only p used]
    rfl

theorem Held.moved (held : Held (fun p => dispatched p es) (fun p => owed p es) s) (moved : Moved s e t) :
    Held (fun p => dispatched p (e :: es)) (fun p => owed p (e :: es)) t := by
  cases moved with
  | @dispatch i x random wins =>
    have runnable := winner_runnable wins
    have count : wrap32 ((s.proc i).timesScheduled + 1) = wrap32 (dispatched i es + 1 : Nat) := by
      rw [held.times i (by rw [runnable]; decide) fun j stage also => absurd also
        (held.not_child (by rw [runnable]; decide))]
      exact Int.bmod_add_bmod ..
    have amount := held.tickets i (by rw [runnable]; decide) fun j stage also =>
      absurd also (held.not_child (by rw [runnable]; decide))
    have kept : Held (Function.update (fun p => dispatched p es) i (dispatched i es + 1))
        (Function.update (fun p => owed p es) i (owed i es)) (s.set i { s.proc i with
          state := .running
          timesScheduled := wrap32 ((s.proc i).timesScheduled + 1) }) :=
      held.set (by rw [runnable]; decide) (show ProcState.running ≠ .embryo by decide) (fun _ => ⟨count, amount⟩)
        (.inr ⟨.inl rfl, rfl⟩)
    rw [Function.update_eq_self] at kept
    rw [dispatched_dispatch]
    exact kept
  | yield running => exact held.setState (.inl running) (.inr (.inl rfl))
  | sleep running => exact held.setState (.inl running) (.inr (.inr rfl))
  | wakeup sleeping => exact held.setState (.inr (.inr sleeping)) (.inr (.inl rfl))
  | @settickets i arg calls lower upper =>
    obtain ⟨running, idle⟩ := calls
    have count := held.times i (by rw [running]; decide) fun j stage also =>
      absurd also (held.not_child (by rw [running]; decide))
    have kept : Held (Function.update (fun p => dispatched p es) i (dispatched i es))
        (Function.update (fun p => owed p es) i (arg.getD 10)) (s.set i { s.proc i with tickets := arg.getD 10 }) :=
      held.set (by rw [running]; decide) (by rw [running]; decide) (fun _ => ⟨count, rfl⟩) (.inl idle)
    rw [Function.update_eq_self] at kept
    rw [owed_settickets]
    exact kept
  | @allocproc i np calls first =>
    have unused : (s.proc np).state = .unused := of_decide_eq_true (Fin.find?_eq_some_iff.mp first).1
    have new : Held (Function.update (fun p => dispatched p es) np 0)
        (Function.update (fun p => owed p es) np (owed i es))
        ((s.set np { s.proc np with state := .embryo, pid := s.nextpid }).goto i (some (np, .kstack))) :=
      held.allocproc (.inl calls.1) calls.2 unused rfl
    rw [dispatched_allocproc, owed_allocproc]
    exact ⟨new.child, new.single, new.embryo, new.times, new.tickets⟩
  | forkStep running forking => exact held.forkNext forking
  | forkFail running forking early => exact held.leave forking nofun nofun
  | @exit i calls other =>
    obtain ⟨running, idle⟩ := calls
    have state : ((Lottery.passChildren s i).proc i).state = .running := (passChildren_proc s i i).1.trans running
    exact (held.passChildren i).keep (by rw [state]; decide) (by rw [state]; decide) nofun rfl rfl (.inl idle)
  | @wait i j calls first =>
    have zombie : (s.proc j).state = .zombie := (of_decide_eq_true (Fin.find?_eq_some_iff.mp first).1).2
    have idle : s.forking j = none := held.idle (by rw [zombie]; decide)
    have freed : Held (Function.update (fun p => dispatched p es) j (dispatched j es))
        (Function.update (fun p => owed p es) j (owed j es))
        (s.set j { s.proc j with state := .unused, pid := 0, parent := none }) :=
      held.set (by rw [zombie]; decide) (show ProcState.unused ≠ .embryo by decide)
        (fun used => absurd rfl used) (.inl idle)
    rw [Function.update_eq_self, Function.update_eq_self] at freed
    exact freed

theorem Run.held (run : Run es s) : Held (fun p => dispatched p es) (fun p => owed p es) s := by
  induction run with
  | boot => exact held_boot
  | next e before stepped ih => exact ih.moved (step_moved stepped)

end Run

section Snapshot
variable {s : Ptable} {es : List Event}

/-- The information lists each slot that is not `UNUSED` once, in the order of the table, with the
count and the tickets of its process. -/
def Truthful (es : List Event) (s : Ptable) (info : ProcessesInfo) : Prop :=
  ∃ slots : List Slot, slots.Pairwise (· < ·) ∧ (∀ p, p ∈ slots ↔ (s.proc p).state ≠ .unused) ∧
    info.numProcesses = slots.length ∧ info.pids = slots.map (fun p => (s.proc p).pid) ∧
    info.timesScheduled = slots.map (fun p => (dispatched p es : Int)) ∧ info.tickets = slots.map (fun p => owed p es)

/-- No count has passed the largest `int`, and a slot that a fork has not written yet holds by
chance what the fork will write. -/
structure Settled (es : List Event) (s : Ptable) : Prop where
  few : ∀ p, (s.proc p).state ≠ .unused → dispatched p es < 2 ^ 31
  fresh : ∀ i np stage, s.forking i = some (np, stage) →
    (stage.hasTimes = false → (s.proc np).timesScheduled = 0) ∧
      (stage.hasTickets = false → (s.proc np).tickets = (s.proc i).tickets)

theorem infoLoop_eq (ps : List Slot) (info : ProcessesInfo) :
    infoLoop s ps info =
      let slots := ps.filter fun p => (s.proc p).state ≠ .unused
      ⟨info.numProcesses + slots.length, info.pids ++ slots.map fun p => (s.proc p).pid,
        info.timesScheduled ++ slots.map fun p => (s.proc p).timesScheduled,
        info.tickets ++ slots.map fun p => (s.proc p).tickets⟩ := by
  induction ps generalizing info with
  | nil => simp [infoLoop]
  | cons p ps ih =>
    by_cases unused : (s.proc p).state = .unused
    · simp [infoLoop, unused, ih]
    · simp [infoLoop, unused, ih, Nat.add_assoc, Nat.add_comm 1]

theorem getprocesseshelper_eq : getprocesseshelper s =
    ⟨(listed s).length, (listed s).map fun p => (s.proc p).pid, (listed s).map fun p => (s.proc p).timesScheduled,
      (listed s).map fun p => (s.proc p).tickets⟩ := by
  rw [getprocesseshelper, infoLoop_eq]
  simp only [Nat.zero_add, List.nil_append, listed]

theorem mem_listed {p : Slot} : p ∈ listed s ↔ (s.proc p).state ≠ .unused := by
  simp [listed]

theorem listed_sorted : (listed s).Pairwise (· < ·) := (List.pairwise_lt_finRange _).filter _

/-- The truth about a snapshot is the truth about each slot in use. -/
theorem truthful_iff : Truthful es s (getprocesseshelper s) ↔
    ∀ p, (s.proc p).state ≠ .unused → (s.proc p).timesScheduled = dispatched p es ∧
      (s.proc p).tickets = owed p es := by
  rw [getprocesseshelper_eq]
  constructor
  · rintro ⟨slots, sorted, used, -, -, times, tickets⟩ p use
    have same : slots = listed s :=
      List.Perm.eq_of_pairwise (fun a b _ _ before after => absurd before (lt_asymm after)) sorted listed_sorted
        ((List.perm_ext_iff_of_nodup (sorted.imp ne_of_lt) (listed_sorted.imp ne_of_lt)).mpr fun q =>
          (used q).trans mem_listed.symm)
    subst same
    exact ⟨List.map_inj_left.mp times p (mem_listed.mpr use), List.map_inj_left.mp tickets p (mem_listed.mpr use)⟩
  · intro each
    exact ⟨listed s, listed_sorted, fun p => mem_listed, rfl, rfl,
      List.map_inj_left.mpr fun p use => (each p (mem_listed.mp use)).1,
      List.map_inj_left.mpr fun p use => (each p (mem_listed.mp use)).2⟩

/-- In every state of every run a snapshot is true exactly when the counters are settled. -/
theorem Run.snapshot_iff (run : Run es s) : Truthful es s (getprocesseshelper s) ↔ Settled es s := by
  have held := run.held
  rw [truthful_iff]
  constructor
  · intro each
    constructor
    · intro p used
      by_cases child : ∃ i stage, s.forking i = some (p, stage)
      · obtain ⟨i, stage, forking⟩ := child
        obtain ⟨-, -, zero, -⟩ := held.child i p stage forking
        omega
      · have count := held.times p used fun i stage forking => absurd ⟨i, stage, forking⟩ child
        have range := wrap32_range (dispatched p es)
        have same := (each p used).1
        omega
    · intro i np stage forking
      obtain ⟨embryo, -, zero, -⟩ := held.child i np stage forking
      obtain ⟨times, tickets⟩ := each np (by rw [embryo]; decide)
      exact ⟨fun _ => times.trans (congrArg Nat.cast zero), fun _ => tickets.trans (held.parent_tickets forking).symm⟩
  · intro settled p used
    have fits : wrap32 (dispatched p es) = dispatched p es := by
      have few := settled.few p used
      exact wrap32_of_range (by omega) (by omega)
    by_cases child : ∃ i stage, s.forking i = some (p, stage)
    · obtain ⟨i, stage, forking⟩ := child
      obtain ⟨-, -, zero, -⟩ := held.child i p stage forking
      obtain ⟨times, tickets⟩ := held.written forking
      obtain ⟨noTimes, noTickets⟩ := settled.fresh i p stage forking
      constructor
      · cases written : stage.hasTimes with
        | true => exact (times written).trans fits
        | false => exact (noTimes written).trans (congrArg Nat.cast zero).symm
      · cases written : stage.hasTickets with
        | true => exact tickets written
        | false => exact (noTickets written).trans (held.parent_tickets forking)
    · have count := held.times p used fun i stage forking => absurd ⟨i, stage, forking⟩ child
      have amount := held.tickets p used fun i stage forking => absurd ⟨i, stage, forking⟩ child
      exact ⟨count.trans fits, amount⟩

def firstChild : Slot := ⟨1, by decide⟩

def secondChild : Slot := ⟨2, by decide⟩

/-- Two processors: the first child of init runs while init makes its second child. -/
def secondFork : List Event :=
  .dispatch initproc 1 :: .allocproc initproc firstChild :: List.replicate 6 (.forkStep initproc) ++
    [.yield initproc, .dispatch firstChild 1022611260, .dispatch initproc 1, .allocproc initproc secondChild]

/-- The child may ask for the table now, and is told that its new sibling has no tickets. -/
theorem embryo_without_tickets :
    ∃ s, Run secondFork.reverse s ∧ s.Calls firstChild ∧ ¬ Truthful secondFork.reverse s (getprocesseshelper s) := by
  obtain ⟨s, run, calls, used, none⟩ : ∃ s, Run secondFork.reverse s ∧ s.Calls firstChild ∧
      (s.proc secondChild).state ≠ .unused ∧ (s.proc secondChild).tickets = 0 :=
    replay_reaches (by decide +kernel)
  refine ⟨s, run, calls, ?_⟩
  intro truth
  have owes := (truthful_iff.mp truth secondChild used).2
  rw [none] at owes
  revert owes
  decide +kernel

/-- Init makes a child with its 30 tickets, and the child, which then sets its own, runs beside it. -/
def finishedFork : List Event :=
  .dispatch initproc 1 :: .settickets initproc (some 30) :: .allocproc initproc firstChild ::
    List.replicate 6 (.forkStep initproc) ++
    [.yield initproc, .dispatch firstChild 2000000000, .settickets firstChild (some 5), .dispatch initproc 1]

/-- The child is told the truth when no fork is under way. -/
theorem snapshot_forked : ∃ s, Run finishedFork.reverse s ∧ s.Calls firstChild ∧
    (getprocesseshelper s).timesScheduled = [2, 1] ∧ (getprocesseshelper s).tickets = [30, 5] ∧
    Truthful finishedFork.reverse s (getprocesseshelper s) := by
  obtain ⟨s, run, calls, idle, few, times, tickets⟩ : ∃ s, Run finishedFork.reverse s ∧ s.Calls firstChild ∧
      (∀ i, s.forking i = none) ∧ (∀ p, dispatched p finishedFork.reverse < 2 ^ 31) ∧
      (getprocesseshelper s).timesScheduled = [2, 1] ∧ (getprocesseshelper s).tickets = [30, 5] :=
    replay_reaches (by decide +kernel)
  refine ⟨s, run, calls, times, tickets, run.snapshot_iff.mpr ⟨fun p _ => few p, ?_⟩⟩
  intro i np stage forking
  cases (idle i).symm.trans forking

end Snapshot

end OsLabs.Xv6.Lottery
