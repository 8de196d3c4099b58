import Mathlib.Data.List.Nodup
import Mathlib.Logic.Function.Basic

namespace RedoLog

variable {A D : Type} [DecidableEq A]

/-- Writing logged blocks to their home addresses, in order. -/
def install (entries : List (A × D)) (store : A → D) : A → D :=
  entries.foldl (fun store entry => Function.update store entry.1 entry.2) store

@[simp] theorem install_nil (store : A → D) : install [] store = store := rfl

@[simp] theorem install_cons (entry : A × D) (entries : List (A × D)) (store : A → D) :
    install (entry :: entries) store = install entries (Function.update store entry.1 entry.2) := rfl

theorem install_other {entries : List (A × D)} {a : A} (store : A → D) (absent : a ∉ entries.map Prod.fst) :
    install entries store a = store a := by
  induction entries generalizing store with
  | nil => rfl
  | cons entry entries ih =>
    rw [List.map_cons, List.mem_cons, not_or] at absent
    rw [install_cons, ih _ absent.2, Function.update_of_ne absent.1]

/-- Where every address is logged once, an installed block is the logged one. -/
theorem install_logged {entries : List (A × D)} {a : A} {d : D} (store : A → D)
    (once : (entries.map Prod.fst).Nodup) (logged : (a, d) ∈ entries) : install entries store a = d := by
  induction entries generalizing store with
  | nil => cases logged
  | cons entry entries ih =>
    rw [List.map_cons, List.nodup_cons] at once
    rcases List.mem_cons.mp logged with rfl | later
    · rw [install_cons, install_other _ once.1, Function.update_self]
    · exact ih _ once.2 later

/-- A store whose writes become durable together: `current` is what reads return, `durable` what a crash
leaves, and `active` the number of operations in progress. -/
structure Store (A D : Type) where
  durable : A → D
  current : A → D
  active : Nat

inductive Event (A D : Type)
  | enter
  | write (a : A) (d : D)
  | leave
  | commit
  | crash

namespace Store

def next (s : Store A D) : Event A D → Store A D
  | .enter => { s with active := s.active + 1 }
  | .write a d => { s with current := Function.update s.current a d }
  | .leave => { s with active := s.active - 1 }
  | .commit => { s with durable := s.current }
  | .crash => ⟨s.durable, s.durable, 0⟩

/-- Only an operation in progress writes or ends, and nothing is committed while one is. -/
def Allowed (s : Store A D) : Event A D → Prop
  | .write _ _ => 0 < s.active
  | .leave => 0 < s.active
  | .commit => s.active = 0
  | _ => True

/-- The histories of a store that starts with the contents `home`. -/
inductive History (home : A → D) : List (Event A D) → Store A D → Prop
  | start : History home [] ⟨home, home, 0⟩
  | next {events : List (Event A D)} {s : Store A D} {event : Event A D} (history : History home events s)
      (allowed : s.Allowed event) : History home (events ++ [event]) (s.next event)

/-- The durable contents are what reads returned at the last commit, or at the start, when no operation was in
progress: no operation is durable in part. -/
theorem History.durable_whole {home : A → D} {events : List (Event A D)} {s : Store A D}
    (history : History home events s) :
    ∃ before after earlier, events = before ++ after ∧ History home before earlier ∧ earlier.active = 0 ∧
      s.durable = earlier.current ∧ Event.commit ∉ after ∧ (before = [] ∨ ∃ past, before = past ++ [.commit]) := by
  induction history with
  | start => exact ⟨[], [], _, rfl, .start, rfl, rfl, List.not_mem_nil, .inl rfl⟩
  | @next events s event history allowed ih =>
    obtain ⟨before, after, earlier, split, past, quiet, same, none, last⟩ := ih
    by_cases commits : event = .commit
    · subst commits
      exact ⟨events ++ [.commit], [], s.next .commit, (List.append_nil _).symm, .next history allowed, allowed, rfl,
        List.not_mem_nil, .inr ⟨events, rfl⟩⟩
    · refine ⟨before, after ++ [event], earlier, by rw [split, List.append_assoc], past, quiet, ?_, ?_, last⟩
      · cases event <;> first | exact same | exact absurd rfl commits
      · simp only [List.mem_append, List.mem_singleton, not_or]
        exact ⟨none, Ne.symm commits⟩

theorem History.last {home : A → D} {events : List (Event A D)} {event : Event A D} {s : Store A D}
    (history : History home (events ++ [event]) s) : ∃ earlier, History home events earlier ∧ s = earlier.next event := by
  generalize same : events ++ [event] = all at history
  cases history with
  | start => exact absurd same (by simp)
  | next history allowed =>
    obtain ⟨rfl, one⟩ := List.append_inj' same rfl
    cases one
    exact ⟨_, history, rfl⟩

end Store

end RedoLog
