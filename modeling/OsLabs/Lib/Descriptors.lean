import Mathlib.Data.List.Basic
import Mathlib.Logic.Function.Basic

namespace Descriptors

/-- An open descriptor: what it refers to, and whether `execv` closes it. -/
structure Descriptor (ω : Type) where
  object : ω
  cloexec : Bool

/-- The descriptors of a process. -/
abbrev Table (ω : Type) := Nat → Option (Descriptor ω)

namespace Table
variable {ω : Type}

/-- The lowest free descriptor below the limit of the process. -/
def lowest (limit : Nat) (t : Table ω) : Option Nat := (List.range limit).find? fun fd => (t fd).isNone

def install (t : Table ω) (fd : Nat) (object : ω) : Table ω := Function.update t fd (some ⟨object, false⟩)

def close (t : Table ω) (fd : Nat) : Table ω := Function.update t fd none

/-- `dup2` to a descriptor below the limit. -/
def dup2 (t : Table ω) (old new : Nat) : Table ω :=
  match t old with
  | none => t
  | some d => if old = new then t else t.install new d.object

/-- `fcntl` with `F_SETFD` and `FD_CLOEXEC`. -/
def setCloexec (t : Table ω) (fd : Nat) : Table ω :=
  match t fd with
  | none => t
  | some d => Function.update t fd (some { d with cloexec := true })

/-- The descriptors that the program of an `execv` finds. -/
def atExec (t : Table ω) : Table ω := fun fd => (t fd).filter fun d => !d.cloexec

/-- What a descriptor refers to. -/
def refers (t : Table ω) (fd : Nat) : Option ω := (t fd).map (·.object)

section Lookup
variable {t : Table ω} {limit fd old new other : Nat} {object : ω}

theorem lowest_eq_some : lowest limit t = some fd ↔ t fd = none ∧ fd < limit ∧ ∀ j < fd, t j ≠ none := by
  simp [lowest, List.find?_range_eq_some, Option.ne_none_iff_isSome]

@[simp] theorem install_self : t.install fd object fd = some ⟨object, false⟩ := Function.update_self ..

theorem install_other (away : other ≠ fd) : t.install fd object other = t other := Function.update_of_ne away ..

@[simp] theorem close_self : t.close fd fd = none := Function.update_self ..

theorem close_other (away : other ≠ fd) : t.close fd other = t other := Function.update_of_ne away ..

theorem dup2_self {d : Descriptor ω} (opened : t old = some d) (away : old ≠ new) :
    t.dup2 old new new = some ⟨d.object, false⟩ := by
  simp only [dup2, opened, if_neg away, install_self]

theorem dup2_other (away : other ≠ new) : t.dup2 old new other = t other := by
  cases opened : t old with
  | none => simp only [dup2, opened]
  | some d =>
    by_cases same : old = new
    · simp only [dup2, opened, if_pos same]
    · simp only [dup2, opened, if_neg same, install_other away]

theorem setCloexec_other (away : other ≠ fd) : t.setCloexec fd other = t other := by
  cases opened : t fd with
  | none => simp only [setCloexec, opened]
  | some d => simp only [setCloexec, opened, Function.update_of_ne away]

theorem setCloexec_self : t.setCloexec fd fd = (t fd).map fun d => { d with cloexec := true } := by
  cases opened : t fd with
  | none => simp only [setCloexec, opened, Option.map_none]
  | some d => simp only [setCloexec, opened, Function.update_self, Option.map_some]

theorem atExec_eq_some {d : Descriptor ω} : t.atExec fd = some d ↔ t fd = some d ∧ d.cloexec = false := by
  simp [atExec, Option.filter_eq_some_iff]

theorem lowest_some (free : t fd = none) (room : fd < limit) : ∃ found, lowest limit t = some found := by
  apply Option.isSome_iff_exists.mp
  rw [lowest, List.find?_isSome]
  exact ⟨fd, List.mem_range.mpr room, by rw [free]; rfl⟩

/-- A free descriptor that all lower ones are open below is what `open` returns. -/
theorem lowest_close_zero (room : 0 < limit) : (t.close 0).lowest limit = some 0 :=
  lowest_eq_some.mpr ⟨close_self, room, by omega⟩

theorem lowest_close_one (room : 1 < limit) (opened : t 0 ≠ none) : (t.close 1).lowest limit = some 1 := by
  refine lowest_eq_some.mpr ⟨close_self, room, ?_⟩
  intro j below
  obtain rfl : j = 0 := by omega
  rwa [close_other (by decide)]

end Lookup

section Sweeps
variable (fds : Nat → Nat)

/-- `close` of each of the first `n` descriptors of a vector. -/
def closeAll (t : Table ω) : Nat → Table ω
  | 0 => t
  | i + 1 => (closeAll t i).close (fds i)

/-- The close-on-exec flag for each of the first `n` descriptors of a vector. -/
def sweep (t : Table ω) : Nat → Table ω
  | 0 => t
  | i + 1 => (sweep t i).setCloexec (fds i)

variable {fds} {t : Table ω} {n fd : Nat}

theorem closeAll_other (away : ∀ i < n, fds i ≠ fd) : t.closeAll fds n fd = t fd := by
  induction n with
  | zero => rfl
  | succ n ih =>
    rw [closeAll, close_other (Ne.symm (away n (Nat.lt_succ_self n)))]
    exact ih fun i below => away i (Nat.lt_succ_of_lt below)

theorem closeAll_mem (member : ∃ i < n, fds i = fd) : t.closeAll fds n fd = none := by
  induction n with
  | zero => obtain ⟨i, below, -⟩ := member; omega
  | succ n ih =>
    by_cases last : fds n = fd
    · rw [closeAll, last, close_self]
    · obtain ⟨i, below, same⟩ := member
      have earlier : i ≠ n := fun eq => last (eq ▸ same)
      rw [closeAll, close_other (Ne.symm last)]
      exact ih ⟨i, by omega, same⟩

theorem sweep_other (away : ∀ i < n, fds i ≠ fd) : t.sweep fds n fd = t fd := by
  induction n with
  | zero => rfl
  | succ n ih =>
    rw [sweep, setCloexec_other (Ne.symm (away n (Nat.lt_succ_self n)))]
    exact ih fun i below => away i (Nat.lt_succ_of_lt below)

/-- No swept descriptor is there after an `execv`. -/
theorem sweep_mem (member : ∃ i < n, fds i = fd) {d : Descriptor ω} (opened : t.sweep fds n fd = some d) :
    d.cloexec = true := by
  induction n generalizing d with
  | zero => obtain ⟨i, below, -⟩ := member; omega
  | succ n ih =>
    by_cases last : fds n = fd
    · rw [sweep, last, setCloexec_self] at opened
      obtain ⟨before, -, rfl⟩ := Option.map_eq_some_iff.mp opened
      rfl
    · obtain ⟨i, below, same⟩ := member
      have earlier : i ≠ n := fun eq => last (eq ▸ same)
      rw [sweep, setCloexec_other (Ne.symm last)] at opened
      exact ih ⟨i, by omega, same⟩ opened

end Sweeps

end Table

end Descriptors
