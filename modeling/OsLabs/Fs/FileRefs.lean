import OsLabs.Fs.FileProcs
import OsLabs.Lib.Totals

namespace OsLabs.Files
open Totals

/-- 1 for the reference that `x` is to `a`. -/
def hit {α : Type} [DecidableEq α] (x : Option α) (a : α) : Nat := if x = some a then 1 else 0

section Slots
variable {ofile : Fin NOFILE → Option (Fin NFILE)} {fd : Fin NOFILE} {v : Option (Fin NFILE)} {f : Fin NFILE}

/-- The descriptors that refer to `f`, but for one to skip. -/
def slots (skip : Option (Fin NOFILE)) (ofile : Fin NOFILE → Option (Fin NFILE)) (f : Fin NFILE) : Nat :=
  ∑ fd, if some fd = skip then 0 else hit (ofile fd) f

theorem slots_skip (ofile : Fin NOFILE → Option (Fin NFILE)) (fd : Fin NOFILE) (f : Fin NFILE) :
    slots (some fd) ofile f + hit (ofile fd) f = slots none ofile f := by
  have one : hit (ofile fd) f = ∑ k, if k = fd then hit (ofile k) f else 0 := by
    rw [Finset.sum_ite_eq' Finset.univ fd, if_pos (Finset.mem_univ fd)]
  rw [one, slots, slots, ← Finset.sum_add_distrib]
  refine Finset.sum_congr rfl fun k _ => ?_
  by_cases same : k = fd
  · rw [if_pos (congrArg some same), if_pos same, if_neg nofun, Nat.zero_add]
  · rw [if_neg (fun is => same (Option.some.inj is)), if_neg same, if_neg nofun, Nat.add_zero]

theorem slots_update : slots (some fd) (Function.update ofile fd v) f = slots (some fd) ofile f := by
  refine Finset.sum_congr rfl fun k _ => ?_
  by_cases same : k = fd
  · rw [if_pos (congrArg some same), if_pos (congrArg some same)]
  · rw [Function.update_of_ne same]

/-- A descriptor is set or cleared. -/
theorem slots_set (ofile : Fin NOFILE → Option (Fin NFILE)) (fd : Fin NOFILE) (v : Option (Fin NFILE))
    (f : Fin NFILE) :
    slots none (Function.update ofile fd v) f + hit (ofile fd) f = slots none ofile f + hit v f := by
  rw [← slots_skip (Function.update ofile fd v) fd, slots_update, Function.update_self, ← slots_skip ofile fd]
  omega

theorem hit_le_slots {skip : Option (Fin NOFILE)} (counted : some fd ≠ skip) :
    hit (ofile fd) f ≤ slots skip ofile f := by
  have one := Finset.single_le_sum (f := fun k => if some k = skip then 0 else hit (ofile k) f)
      (fun _ _ => Nat.zero_le _)
    (Finset.mem_univ fd)
  rwa [if_neg counted] at one

theorem hit_self {α : Type} [DecidableEq α] {x : Option α} {a : α} (is : x = some a) : hit x a = 1 := if_pos is

theorem hit_none {α : Type} [DecidableEq α] (a : α) : hit none a = 0 := rfl

theorem count_cons_hit (g : Fin NFILE) (rest : List (Fin NFILE)) :
    (g :: rest).count f = rest.count f + hit (some g) f := by
  rw [List.count_cons, hit]
  congr 1
  simp

end Slots

section Table
variable {π : Type} {before after : Ftable π} {f g : Fin NFILE} {file : File π}

/-- A held file can be given another reference. -/
theorem filedup_ok (held : 1 ≤ (before g).ref) : filedup g before = .ok
    (Function.update before g { before g with ref := (before g).ref + 1 }) := if_neg (Nat.not_lt.mpr held)

theorem ref_gained (more : file.ref = (before g).ref + 1) :
    (Function.update before g file f).ref = (before f).ref + hit (some g) f := by
  by_cases same : f = g
  · rw [same, Function.update_self, hit_self rfl, more]
  · rw [Function.update_of_ne same, hit, if_neg fun is => same (Option.some.inj is).symm]
    rfl

theorem ref_lost (less : file.ref + 1 = (before g).ref) :
    (Function.update before g file f).ref + hit (some g) f = (before f).ref := by
  by_cases same : f = g
  · rw [same, Function.update_self, hit_self rfl, less]
  · rw [Function.update_of_ne same, hit, if_neg fun is => same (Option.some.inj is).symm]
    rfl

theorem update_changed (change : Function.update before g file f ≠ before f) : f = g := by
  by_contra apart
  exact change (Function.update_of_ne apart ..)

theorem filealloc_some (run : filealloc before = some (g, after)) :
    (before g).ref = 0 ∧ after = Function.update before g { before g with ref := 1 } := by
  obtain ⟨f, found, same⟩ := Option.map_eq_some_iff.mp run
  obtain ⟨rfl, rfl⟩ := Prod.mk.inj same
  have free := List.find?_some found
  exact ⟨of_decide_eq_true free, rfl⟩

theorem pending_none : (FileType.FD_NONE : FileType π).pending = none := rfl

variable [DecidableEq π]

/-- The files that are the end `e` of a pipe. -/
def filesOf (files : Ftable π) (e : π × Bool) : Nat := ∑ f, hit (files f).type.pending e

theorem filesOf_update (e : π × Bool) : filesOf (Function.update before g file) e + hit (before g).type.pending e =
    filesOf before e + hit file.type.pending e :=
  sum_moved (fun file : File π => hit file.type.pending e) before g file

theorem filesOf_same {e : π × Bool} (same : file.type.pending = (before g).type.pending) :
    filesOf (Function.update before g file) e = filesOf before e := by
  have moved := @filesOf_update π before g file _ e
  rw [same] at moved
  exact Nat.add_right_cancel moved

/-- `fileclose` of a held file takes one reference, and with the last one the file itself. -/
structure Closed (before after : Ftable π) (g : Fin NFILE) (type : FileType π) : Prop where
  ref : ∀ f, (after f).ref + hit (some g) f = (before f).ref
  other : ∀ f, f ≠ g → after f = before f
  unref : (after g).ref = 0 → (after g).type = .FD_NONE
  types : ∀ e, filesOf after e + hit type.pending e = filesOf before e

theorem fileclose_ok (held : 1 ≤ (before g).ref) :
    ∃ after type, fileclose g before = .ok (after, type) ∧ Closed before after g type := by
  unfold fileclose
  rw [if_neg (Nat.not_lt.mpr held)]
  split
  · rename_i more
    refine ⟨_, _, rfl, fun f => ref_lost (show _ - 1 + 1 = _ by omega), fun f other => Function.update_of_ne other ..,
      fun zero => ?_, fun e => ?_⟩
    · rw [Function.update_self] at zero
      change (before g).ref - 1 = 0 at zero
      omega
    · rw [pending_none, hit_none, Nat.add_zero]
      exact filesOf_same rfl
  · rename_i last
    refine ⟨_, _, rfl, fun f => ref_lost (show 0 + 1 = _ by omega),
      fun f other => Function.update_of_ne other .., fun _ => ?_,
      fun e => ?_⟩
    · rw [Function.update_self]
    · have moved := @filesOf_update π before g ⟨0, .FD_NONE⟩ _ e
      rw [pending_none, hit_none, Nat.add_zero] at moved
      exact moved

end Table

section Counts
variable {ι π : Type}

/-- The descriptor that is set without a reference of its own, or has lost it. -/
def Pos.skips : Pos ι → Option (Fin NOFILE)
  | .dup _ fd => some fd
  | .exited fd => some fd
  | _ => none

/-- The files that the kernel code of a process has references to. -/
def Pos.holds : Pos ι → List (Fin NFILE)
  | .close files => files
  | .opens f => [f]
  | .pipe1 f0 => [f0]
  | .pipe2 f0 f1 => [f0, f1]
  | .piped f0 f1 => [f0, f1]
  | _ => []

/-- Of these the ones that nothing else knows of yet. -/
def Pos.fresh : Pos ι → List (Fin NFILE)
  | .opens f => [f]
  | .pipe1 f0 => [f0]
  | .pipe2 f0 f1 => [f0, f1]
  | _ => []

/-- The references of a process to `f`: its descriptors and what its kernel code holds. -/
def Proc.refs (p : Proc ι π) (f : Fin NFILE) : Nat := slots p.pos.skips p.ofile f + p.pos.holds.count f

theorem fresh_held {pos : Pos ι} {f : Fin NFILE} (member : f ∈ pos.fresh) : 1 ≤ pos.holds.count f := by
  cases pos <;> first | exact List.count_pos_iff.mpr member | cases member

def openEnd (pipes : π → Option Ends) (p : π) (writable : Bool) : Bool :=
  match pipes p with
  | none => false
  | some ends => ends.isOpen writable

variable [DecidableEq ι] [DecidableEq π] [Fintype ι]

/-- The references to an end of a pipe: files of it, and calls of `pipeclose` to come. -/
def State.endRefs (s : State ι π) (e : π × Bool) : Nat :=
  filesOf s.files e + ∑ i, hit (s.procs i).pending e

structure Counts (s : State ι π) : Prop where
  calm : s.panicked = none
  refs : ∀ f, ∑ i, (s.procs i).refs f = (s.files f).ref
  unref : ∀ f, (s.files f).ref = 0 → (s.files f).type = .FD_NONE
  once : ∀ i, (s.procs i).pos.fresh.Nodup
  fresh : ∀ i, ∀ f ∈ (s.procs i).pos.fresh, (s.files f).ref = 1 ∧ (s.files f).type = .FD_NONE
  ends : ∀ p w, s.endRefs (p, w) = (openEnd s.pipes p w).toNat
  live : ∀ p ends, s.pipes p = some ends → ends.readopen = true ∨ ends.writeopen = true

variable {s t : State ι π} {i j : ι} {x : Proc ι π} {f g : Fin NFILE} {files : Ftable π} {pipes : π → Option Ends}

/-- A file that one process alone knows of has no reference elsewhere. -/
theorem Counts.alone (counts : Counts s) (apart : i ≠ j) (held : 1 ≤ (s.procs i).refs f) :
    f ∉ (s.procs j).pos.fresh := by
  intro member
  have other : 1 ≤ (s.procs j).refs f := Nat.le_trans (fresh_held member) (Nat.le_add_left ..)
  have both := add_le_sum (fun p : Proc ι π => p.refs f) s.procs apart
  rw [counts.refs, (counts.fresh j f member).1] at both
  omega

/-- A process moves, with what it does to files and pipes. -/
theorem Counts.move (counts : Counts s)
    (balance : ∀ f, x.refs f + (s.files f).ref = (s.procs i).refs f + (files f).ref)
    (unref : ∀ f, files f ≠ s.files f → (files f).ref = 0 → (files f).type = .FD_NONE)
    (apart : ∀ f, files f ≠ s.files f → ∀ j, j ≠ i → f ∉ (s.procs j).pos.fresh)
    (once : x.pos.fresh.Nodup) (fresh : ∀ f ∈ x.pos.fresh, (files f).ref = 1 ∧ (files f).type = .FD_NONE)
    (ends : ∀ p w, filesOf files (p, w) + hit x.pending (p, w) + (openEnd s.pipes p w).toNat =
      filesOf s.files (p, w) + hit (s.procs i).pending (p, w) + (openEnd pipes p w).toNat)
    (live : ∀ p ends, pipes p = some ends → ends.readopen = true ∨ ends.writeopen = true) :
    Counts { s.move i x with files := files, pipes := pipes } where
  calm := counts.calm
  refs f := by
    have moved := sum_moved (fun p : Proc ι π => p.refs f) s.procs i x
    have total := counts.refs f
    have local_ := balance f
    show ∑ j, (Function.update s.procs i x j).refs f = (files f).ref
    omega
  unref f none := by
    by_cases same : files f = s.files f
    · dsimp only at none ⊢
      rw [same] at none ⊢
      exact counts.unref f none
    · exact unref f same none
  once j := by
    show (Function.update s.procs i x j).pos.fresh.Nodup
    by_cases here : j = i
    · rwa [here, Function.update_self]
    · rw [Function.update_of_ne here]
      exact counts.once j
  fresh j f member := by
    change f ∈ (Function.update s.procs i x j).pos.fresh at member
    by_cases here : j = i
    · rw [here, Function.update_self] at member
      exact fresh f member
    · rw [Function.update_of_ne here] at member
      by_cases same : files f = s.files f
      · dsimp only
        rw [same]
        exact counts.fresh j f member
      · exact absurd member (apart f same j here)
  ends p w := by
    have moved := sum_moved (fun q : Proc ι π => hit q.pending (p, w)) s.procs i x
    have total := counts.ends p w
    have local_ := ends p w
    unfold State.endRefs at total
    show filesOf files (p, w) + ∑ j, hit (Function.update s.procs i x j).pending (p, w) =
      (openEnd pipes p w).toNat
    omega
  live := live

/-- A process moves by itself. -/
theorem Counts.still (counts : Counts s) (balance : ∀ f, x.refs f = (s.procs i).refs f) (once : x.pos.fresh = [])
    (pending : x.pending = (s.procs i).pending) : Counts (s.move i x) :=
  counts.move (fun f => by rw [balance]) (fun _ same => absurd rfl same) (fun _ same => absurd rfl same)
    (once ▸ List.nodup_nil) (fun f member => by rw [once] at member; cases member)
    (fun p w => by rw [pending]) counts.live

end Counts

end OsLabs.Files
