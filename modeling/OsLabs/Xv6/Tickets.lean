import Mathlib.Data.Fin.Tuple.Basic
import Mathlib.Tactic.Ring
import OsLabs.Lib.Interleaving
import OsLabs.Xv6.Lottery

namespace OsLabs.Xv6.Lottery
open ByteMemory

/-- A pass of `scheduler` in this state neither overflows, nor divides by 0, nor rejects all
numbers. -/
structure PassOk (s : Ptable) : Prop where
  exact : NoOverflow s (List.finRange NPROC) 0
  bound : ticketBound s + 1 ≤ 2 ^ 31
  divides : numBins (ticketBound s) ≠ 0 ∧ binSize (ticketBound s) ≠ 0
  ends : ∃ x, IsRandom x ∧ rejects (ticketBound s) x = false

section Sums
variable {s : Ptable} {ps : List Slot} {total most n : Int}

theorem sumLoop_range (lower : -2 ^ 31 ≤ total) (upper : total < 2 ^ 31) :
    -2 ^ 31 ≤ sumLoop s ps total ∧ sumLoop s ps total < 2 ^ 31 := by
  induction ps generalizing total with
  | nil => exact ⟨lower, upper⟩
  | cons p ps ih =>
    simp only [sumLoop]
    split
    · exact ih (wrap32_range _).1 (wrap32_range _).2
    · exact ih lower upper

theorem totalTickets_range (s : Ptable) : -2 ^ 31 ≤ totalTickets s ∧ totalTickets s < 2 ^ 31 :=
  sumLoop_range (by decide) (by decide)

/-- Small tickets that are not negative keep the sum exact. -/
theorem sumLoop_small (small : ∀ p, 0 ≤ (s.proc p).tickets ∧ (s.proc p).tickets ≤ most) (lower : 0 ≤ total)
    (room : total + ps.length * most < 2 ^ 31) : NoOverflow s ps total ∧ 0 ≤ sumLoop s ps total := by
  induction ps generalizing total with
  | nil => exact ⟨trivial, lower⟩
  | cons p ps ih =>
    obtain ⟨positive, bounded⟩ := small p
    have rest : 0 ≤ ps.length * most := Int.mul_nonneg (Int.natCast_nonneg _) (by omega)
    have split : ((ps.length + 1 : Nat) : Int) * most = ps.length * most + most := by push_cast; ring
    rw [List.length_cons, split] at room
    by_cases runnable : (s.proc p).state = .runnable
    · have same : wrap32 (total + (s.proc p).tickets) = total + (s.proc p).tickets :=
        wrap32_of_range (by omega) (by omega)
      simp only [NoOverflow, sumLoop, if_pos runnable, same]
      obtain ⟨exact, sum⟩ := @ih (total + (s.proc p).tickets) (by omega) (by omega)
      exact ⟨⟨⟨by omega, by omega⟩, exact⟩, sum⟩
    · simp only [NoOverflow, sumLoop, if_neg runnable]
      exact ih lower (by omega)

/-- Without overflow equal tickets add up to their product. -/
theorem sumLoop_equal (equal : ∀ p, (s.proc p).state = .runnable ∧ (s.proc p).tickets = n)
    (exact : NoOverflow s ps total) : sumLoop s ps total = total + ps.length * n := by
  induction ps generalizing total with
  | nil => simp [sumLoop]
  | cons p ps ih =>
    obtain ⟨runnable, tickets⟩ := equal p
    simp only [NoOverflow, if_pos runnable, tickets] at exact
    obtain ⟨⟨lower, upper⟩, rest⟩ := exact
    simp only [sumLoop, if_pos runnable, tickets]
    rw [ih rest, wrap32_of_range lower upper]
    push_cast [List.length_cons]
    ring

end Sums

theorem ticketBound_of_nonneg {s : Ptable} (positive : 0 ≤ totalTickets s) :
    (ticketBound s : Int) = totalTickets s ∧ ticketBound s < 2 ^ 31 := by
  have range := totalTickets_range s
  unfold ticketBound
  omega

/-- A number of bins up to 2^31 is never 0 and accepts the number 1. -/
theorem randomAtMost_defined {max : Nat} (bound : max < 2 ^ 31) :
    (numBins max ≠ 0 ∧ binSize max ≠ 0) ∧ rejects max 1 = false := by
  have bins : numBins max = max + 1 := Nat.mod_eq_of_lt (by omega)
  have whole := Nat.div_add_mod numRand (max + 1)
  have small : numRand % (max + 1) < max + 1 := Nat.mod_lt _ (by omega)
  have size : 0 < numRand / (max + 1) := Nat.div_pos (by unfold numRand; omega) (by omega)
  have least : max + 1 ≤ (max + 1) * (numRand / (max + 1)) := Nat.le_mul_of_pos_right _ size
  refine ⟨⟨by omega, by unfold binSize; rw [bins]; omega⟩, ?_⟩
  unfold rejects defect
  rw [bins]
  unfold numRand at *
  generalize 2 ^ 31 % (max + 1) = rest at *
  generalize (max + 1) * (2 ^ 31 / (max + 1)) = bulk at *
  simp only [decide_eq_false_iff_not]
  omega

theorem passOk_iff {s : Ptable} : PassOk s ↔ NoOverflow s (List.finRange NPROC) 0 ∧ 0 ≤ totalTickets s := by
  constructor
  · rintro ⟨exact, bound, -, -⟩
    have range := totalTickets_range s
    unfold ticketBound at bound
    exact ⟨exact, by omega⟩
  · rintro ⟨exact, positive⟩
    obtain ⟨-, bound⟩ := ticketBound_of_nonneg positive
    obtain ⟨divides, accepts⟩ := randomAtMost_defined bound
    exact ⟨exact, by omega, divides, 1, by decide, accepts⟩

section Bounded

/-- The most tickets that 64 processes may have without an overflow. -/
def mostTickets : Int := 33554431

def Bounded (s : Ptable) : Prop := ∀ p, 0 ≤ (s.proc p).tickets ∧ (s.proc p).tickets ≤ mostTickets

variable {s t : Ptable} {i np : Slot} {e : Event} {entry : Entry}

theorem Bounded.passOk (bounded : Bounded s) : PassOk s :=
  passOk_iff.mpr (sumLoop_small bounded (Int.le_refl _) (by decide))

theorem Bounded.set (bounded : Bounded s) (lower : 0 ≤ entry.tickets) (upper : entry.tickets ≤ mostTickets) :
    Bounded (s.set i entry) :=
  Interleaving.forall_moved (P := fun (_ : Slot) (entry : Entry) => 0 ≤ entry.tickets ∧ entry.tickets ≤ mostTickets)
    ⟨lower, upper⟩ fun p _ => bounded p

theorem Bounded.keep (bounded : Bounded s) (same : entry.tickets = (s.proc i).tickets) : Bounded (s.set i entry) :=
  bounded.set (same ▸ (bounded i).1) (same ▸ (bounded i).2)

theorem Bounded.forkNext (bounded : Bounded s) (stage : Stage) : Bounded (forkNext s i np stage) := by
  cases stage with
  | kstack | copyuvm => exact bounded
  | parent | timesScheduled | publish => exact bounded.keep rfl
  | tickets => exact bounded.set (bounded i).1 (bounded i).2

theorem Bounded.passChildren (bounded : Bounded s) : Bounded (passChildren s i) := by
  intro p
  simp only [Lottery.passChildren]
  split
  · exact bounded p
  · exact bounded p

theorem Bounded.moved (bounded : Bounded s) (moved : Moved s e t)
    (allowed : ∀ i n, e = .settickets i (some n) → 0 ≤ n ∧ n ≤ mostTickets) : Bounded t := by
  cases moved with
  | dispatch | yield | sleep | wakeup | forkFail | wait => exact bounded.keep rfl
  | allocproc =>
    exact bounded.keep rfl
  | @settickets i arg =>
    cases arg with
    | none => exact bounded.set (show (0 : Int) ≤ 10 by decide) (show (10 : Int) ≤ mostTickets by decide)
    | some n => exact bounded.set (allowed i n rfl).1 (allowed i n rfl).2
  | forkStep => exact bounded.forkNext _
  | exit => exact bounded.passChildren.keep rfl

theorem Run.bounded {es : List Event} (run : Run es s)
    (allowed : ∀ i n, .settickets i (some n) ∈ es → 0 ≤ n ∧ n ≤ mostTickets) : Bounded s := by
  induction run with
  | boot =>
    intro p
    simp only [Lottery.boot]
    split
    · decide
    · decide
  | next e before stepped ih =>
    have earlier := ih fun i n member => allowed i n (List.mem_cons_of_mem _ member)
    exact earlier.moved (step_moved stepped) fun i n same => allowed i n (same ▸ List.mem_cons_self)

end Bounded

/-- The argument of a `settickets` of a run is an `int`. -/
theorem Run.settickets_range {es : List Event} {s : Ptable} {i : Slot} {n : Int} (run : Run es s)
    (member : .settickets i (some n) ∈ es) : -2 ^ 31 ≤ n ∧ n < 2 ^ 31 := by
  induction run with
  | boot => cases member
  | next e before stepped ih =>
    rcases List.mem_cons.mp member with last | earlier
    · subst last
      cases step_moved stepped with
      | settickets calls lower upper => exact ⟨lower, upper⟩
    · exact ih earlier

section Forks
variable {s : Ptable} {i np : Slot} {n : Int} {k : Nat}

/-- The events of a `fork` that nothing disturbs. -/
def forkEvents (i np : Slot) : List Event := .allocproc i np :: List.replicate 6 (.forkStep i)

theorem replay_fork (calls : s.Calls i) (first : firstUnused s = some np) :
    ∃ t, replay s (forkEvents i np) = some t ∧ (t.proc np).state = .runnable ∧
      (t.proc np).tickets = (s.proc i).tickets ∧ (∀ p, p ≠ np → t.proc p = s.proc p) ∧ t.forking i = none := by
  have unused : (s.proc np).state = .unused := by
    have found := (Fin.find?_eq_some_iff.mp first).1
    simpa using found
  have other : i ≠ np := by
    rintro rfl
    cases unused.symm.trans calls.1
  let t0 : Ptable := { s.set np { s.proc np with state := .embryo, pid := s.nextpid } with
    nextpid := wrap32 (s.nextpid + 1) }.goto i (some (np, .kstack))
  let t1 := forkNext t0 i np .kstack
  let t2 := forkNext t1 i np .copyuvm
  let t3 := forkNext t2 i np .parent
  let t4 := forkNext t3 i np .tickets
  let t5 := forkNext t4 i np .timesScheduled
  let t6 := forkNext t5 i np .publish
  refine ⟨t6, ?_, ?_, ?_, ?_, ?_⟩
  · simp [forkEvents, replay, step, calls, first, Ptable.goto, Ptable.set, Ptable.setState, forkNext, other,
      calls.1, t6, t5, t4, t3, t2, t1, t0]
  · simp [forkNext, Ptable.goto, Ptable.set, Ptable.setState, t6]
  · simp [forkNext, Ptable.goto, Ptable.set, Ptable.setState, other, t6, t5, t4, t3, t2, t1, t0]
  · intro p away
    simp [forkNext, Ptable.goto, Ptable.set, Ptable.setState, away, t6, t5, t4, t3, t2, t1, t0]
  · simp [forkNext, Ptable.goto, Ptable.set, Ptable.setState, t6]

/-- Process 0 runs with `n` tickets, and has `k` children that may run and inherited them. -/
structure Brood (n : Int) (k : Nat) (s : Ptable) : Prop where
  calls : s.Calls initproc
  tickets : (s.proc initproc).tickets = n
  children : ∀ p : Slot, 0 < p.val → p.val ≤ k → (s.proc p).state = .runnable ∧ (s.proc p).tickets = n
  free : ∀ p : Slot, k < p.val → (s.proc p).state = .unused

theorem Brood.firstUnused (brood : Brood n k s) (room : k + 1 < NPROC) : firstUnused s = some ⟨k + 1, room⟩ := by
  refine Fin.find?_eq_some_iff.mpr ⟨decide_eq_true (brood.free _ (Nat.lt_succ_self k)), ?_⟩
  intro p earlier
  have below : p.val < k + 1 := earlier
  apply decide_eq_false
  by_cases parent : p.val = 0
  · have same : p = initproc := Fin.ext parent
    simp [same, brood.calls.1]
  · simp [(brood.children p (by omega) (by omega)).1]

theorem Brood.fork (brood : Brood n k s) (room : k + 1 < NPROC) :
    ∃ t, replay s (forkEvents initproc ⟨k + 1, room⟩) = some t ∧ Brood n (k + 1) t := by
  obtain ⟨t, played, runnable, tickets, same, idle⟩ := replay_fork brood.calls (brood.firstUnused room)
  have parent : t.proc initproc = s.proc initproc := same _ (by simp [initproc, Fin.ext_iff])
  refine ⟨t, played, ⟨parent ▸ brood.calls.1, idle⟩, parent ▸ brood.tickets, ?_, ?_⟩
  · intro p child bound
    by_cases new : p = ⟨k + 1, room⟩
    · subst new
      exact ⟨runnable, tickets.trans brood.tickets⟩
    · rw [same p new]
      have old : p.val ≠ k + 1 := fun eq => new (Fin.ext eq)
      exact brood.children p child (by omega)
  · intro p bound
    rw [same p (by rw [Ne, Fin.ext_iff]; simp only; omega)]
    exact brood.free p (by omega)

theorem Run.broods {es : List Event} (run : Run es s) (brood : Brood n 0 s) (room : k < NPROC) :
    ∃ forks t, Run (forks ++ es) t ∧ Brood n k t ∧ ∀ i arg, Event.settickets i arg ∉ forks := by
  induction k with
  | zero => exact ⟨[], s, run, brood, by simp⟩
  | succ k ih =>
    obtain ⟨forks, u, before, grown, none⟩ := ih (by omega)
    obtain ⟨t, played, larger⟩ := grown.fork room
    refine ⟨(forkEvents initproc ⟨k + 1, room⟩).reverse ++ forks, t, ?_, larger, ?_⟩
    · rw [List.append_assoc]
      exact before.replay _ played
    · intro i arg member
      rcases List.mem_append.mp member with new | old
      · simp [forkEvents] at new
      · exact none i arg old

end Forks

section Settickets
variable {n : Int}

/-- Init sets its tickets before it makes any child. -/
theorem settickets_first (lower : -2 ^ 31 ≤ n) (upper : n < 2 ^ 31) :
    ∃ s, Run [.settickets initproc (some n), .dispatch initproc 1] s ∧ Brood n 0 s := by
  have set : step running (.settickets initproc (some n)) = _ := if_pos ⟨running_calls, lower, upper⟩
  refine ⟨_, .next _ (.next _ .boot dispatch_boot) set, ⟨rfl, rfl⟩, rfl, ?_, ?_⟩
  · intro p positive zero
    omega
  · intro p positive
    have child : p ≠ initproc := fun same => by simp [same, initproc] at positive
    simp [Ptable.set, running, boot, child]

/-- With `n` tickets for each of 64 processes a pass fails unless `64 * n` fits. -/
theorem settickets_most (lower : -2 ^ 31 ≤ n) (upper : n < 2 ^ 31) :
    ∃ es s, Run es s ∧ (∀ i arg, Event.settickets i arg ∈ es → arg = some n) ∧
      (PassOk s → 0 ≤ n ∧ n ≤ mostTickets) := by
  obtain ⟨s, first, brood⟩ := settickets_first lower upper
  obtain ⟨forks, t, run, full, none⟩ := first.broods brood (show 63 < NPROC by decide)
  have yielded : step t (.yield initproc) = some (t.setState initproc .runnable) := if_pos full.calls.1
  refine ⟨_, _, .next _ run yielded, ?_, ?_⟩
  · intro i arg member
    have own : i = initproc ∧ arg = some n := by simpa [none i arg] using member
    exact own.2
  · intro ok
    obtain ⟨exact, positive⟩ := passOk_iff.mp ok
    have equal : ∀ p, ((t.setState initproc .runnable).proc p).state = .runnable ∧
        ((t.setState initproc .runnable).proc p).tickets = n := by
      refine Interleaving.forall_moved (P := fun (_ : Slot) (entry : Entry) => entry.state = .runnable ∧
        entry.tickets = n)
        ⟨rfl, full.tickets⟩ ?_
      intro p child
      have away : p.val ≠ 0 := fun zero => child (Fin.ext zero)
      exact full.children p (by omega) (by have := p.isLt; simp only [NPROC] at this; omega)
    have sum := sumLoop_equal equal exact
    have range := totalTickets_range (t.setState initproc .runnable)
    rw [totalTickets, sum, List.length_finRange] at range positive
    simp only [NPROC, mostTickets] at range positive ⊢
    omega

end Settickets

/-- Every pass of every run whose `settickets` arguments are allowed is correct exactly when the
allowed arguments are not negative and 64 of them fit in an `int`. -/
theorem passes_ok_iff (allowed : Int → Prop) :
    (∀ es s, Run es s → (∀ i n, .settickets i (some n) ∈ es → allowed n) → PassOk s) ↔
      ∀ n, -2 ^ 31 ≤ n → n < 2 ^ 31 → allowed n → 0 ≤ n ∧ n ≤ mostTickets := by
  constructor
  · intro passes n lower upper may
    obtain ⟨es, s, run, only, ok⟩ := settickets_most lower upper
    apply ok
    apply passes es s run
    intro i m member
    rwa [Option.some.inj (only i (some m) member)]
  · intro small es s run may
    apply Bounded.passOk
    apply run.bounded
    intro i n member
    obtain ⟨lower, upper⟩ := run.settickets_range member
    exact small n lower upper (may i n member)

/-- With the tickets of init at -1 the next pass divides by 0. -/
theorem minus_one_divides :
    ∃ s, Run [.yield initproc, .settickets initproc (some (-1)), .dispatch initproc 1] s ∧
      numBins (ticketBound s) = 0 ∧ ¬ PassOk s := by
  obtain ⟨s, run, zero⟩ : ∃ s, Run [Event.dispatch initproc 1, .settickets initproc (some (-1)), .yield initproc].reverse s ∧
      numBins (ticketBound s) = 0 :=
    replay_reaches (by decide +kernel)
  exact ⟨s, run, zero, fun ok => ok.divides.1 zero⟩

end OsLabs.Xv6.Lottery
