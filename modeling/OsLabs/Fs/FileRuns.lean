import OsLabs.Fs.FileSteps
import Mathlib.Logic.Relation

namespace OsLabs.Files
open Totals

section Steps
variable {ι π : Type} {p : Proc ι π} {old pos : Pos ι} {f : Fin NFILE} {fd : Fin NOFILE} {v : Option (Fin NFILE)}

/-- The files that a process has by a descriptor, or is about to give one. -/
def Proc.Knows (p : Proc ι π) (f : Fin NFILE) : Prop :=
  (∃ fd, p.ofile fd = some f ∧ p.pos ≠ .exited fd) ∨ ∃ g, p.pos = .piped f g ∨ p.pos = .piped g f

theorem Proc.Knows.held (knows : p.Knows f) (legal : p.Legal) : 1 ≤ p.refs f := by
  unfold Proc.Legal at legal
  rcases knows with ⟨fd, slot, kept⟩ | ⟨g, first | second⟩
  · by_cases counted : some fd ≠ p.pos.skips
    · have one : hit (p.ofile fd) f ≤ slots p.pos.skips p.ofile f := hit_le_slots counted
      rw [hit_self slot] at one
      exact Nat.le_trans one (Nat.le_add_right ..)
    · have skipped : some fd = p.pos.skips := not_not.mp counted
      cases here : p.pos with
      | dup g fd₀ =>
        -- the descriptor that was duplicated refers to the same file
        rw [here] at skipped legal
        obtain rfl := Option.some.inj skipped
        obtain ⟨slot₀, fd', other, slot'⟩ := legal
        obtain rfl := Option.some.inj (slot.symm.trans slot₀)
        exact dup_held here other slot'
      | exited fd₀ =>
        rw [here] at skipped kept
        obtain rfl := Option.some.inj skipped
        exact absurd rfl kept
      | _ =>
        rw [here] at skipped
        cases skipped
  · rw [refs_here first]
    exact Nat.le_trans (List.count_pos_iff.mpr List.mem_cons_self) (Nat.le_add_left ..)
  · rw [refs_here second]
    exact Nat.le_trans (List.count_pos_iff.mpr (List.mem_cons_of_mem g List.mem_cons_self)) (Nat.le_add_left ..)

theorem knows_at (here : p.pos = old) (knows : (p.at pos).Knows f) (settled : ∀ fd, old ≠ .exited fd)
    (plain : ∀ f g, pos ≠ .piped f g) : p.Knows f := by
  rcases knows with ⟨fd, slot, -⟩ | ⟨g, first | second⟩
  · exact .inl ⟨fd, slot, here ▸ settled fd⟩
  · exact absurd first (plain f g)
  · exact absurd second (plain g f)

theorem knows_install (knows : (p.install fd v pos).Knows f) (plain : ∀ f g, pos ≠ .piped f g) :
    v = some f ∨ ∃ fd', fd' ≠ fd ∧ p.ofile fd' = some f := by
  rcases knows with ⟨fd', slot, -⟩ | ⟨g, first | second⟩
  · change Function.update p.ofile fd v fd' = some f at slot
    by_cases same : fd' = fd
    · rw [same, Function.update_self] at slot
      exact .inl slot
    · rw [Function.update_of_ne same] at slot
      exact .inr ⟨fd', same, slot⟩
  · exact absurd first (plain f g)
  · exact absurd second (plain g f)

theorem knows_slot (here : p.pos = old) (settled : ∀ fd, old ≠ .exited fd) (slot : p.ofile fd = some f) : p.Knows f :=
  .inl ⟨fd, slot, here ▸ settled fd⟩

variable [DecidableEq π] [Fintype ι] {s t : State ι π} {i : ι}

/-- An end that is still to be closed is open, and no file is that end. -/
theorem Counts.closing (counts : Counts s) {p : π} {w : Bool} (here : (s.procs i).pending = some (p, w)) :
    openEnd s.pipes p w = true := by
  have one := le_sum (fun q : Proc ι π => hit q.pending (p, w)) s.procs i
  have total := counts.ends p w
  unfold State.endRefs at total
  rw [hit_self here] at one
  cases opened : openEnd s.pipes p w with
  | true => rfl
  | false =>
    rw [opened, Bool.toNat_false] at total
    omega

/-- `pipeclose` closes one end and leaves the other as it is. -/
theorem openEnd_pipeclose {pipes : π → Option Ends} {p : π} {ends : Ends} (live : pipes p = some ends)
    (w v : Bool) (q : π) :
    openEnd (Function.update pipes p (pipeclose ends w)) q v = (openEnd pipes q v && !decide ((q, v) = (p, w))) := by
  by_cases same : q = p
  · subst same
    rw [openEnd, Function.update_self, openEnd, live]
    obtain ⟨r, o⟩ := ends
    cases w <;> cases v <;> cases r <;> cases o <;> simp [pipeclose, Ends.isOpen]
  · have other : (q, v) ≠ (p, w) := fun both => same (Prod.mk.inj both).1
    rw [openEnd, Function.update_of_ne same, decide_eq_false other, Bool.not_false, Bool.and_true, openEnd]

theorem pipeclose_some {ends left : Ends} {w : Bool} (found : pipeclose ends w = some left) :
    left.readopen = true ∨ left.writeopen = true := by
  simp only [pipeclose, Option.ite_none_right_eq_some, Option.some.injEq] at found
  obtain ⟨some, rfl⟩ := found
  exact Bool.or_eq_true_iff.mp some

/-- The end of a pipe that a file is, is open. -/
theorem Counts.opened (counts : Counts s) {page : π} {w : Bool} (type : (s.files f).type = .FD_PIPE page w) :
    openEnd s.pipes page w = true := by
  have one := le_sum (fun file : File π => hit file.type.pending (page, w)) s.files f
  have total := counts.ends page w
  have its : hit (s.files f).type.pending (page, w) = 1 := by
    rw [type]
    exact hit_self rfl
  unfold State.endRefs filesOf at total
  rw [its] at one
  cases opened : openEnd s.pipes page w with
  | true => rfl
  | false =>
    rw [opened, Bool.toNat_false] at total
    omega

variable [DecidableEq ι]

/-- A process moves between two places of its system call that have the same references. -/
theorem Counts.walk (counts : Counts s) {old new : Pos ι} (here : (s.procs i).pos = old)
    (skips : new.skips = old.skips)
    (holds : new.holds = old.holds) (fresh : new.fresh = []) : Counts (s.move i ((s.procs i).at new)) := by
  refine counts.still (fun f => ?_) fresh rfl
  rw [refs_here here, ← skips, ← holds]
  rfl

theorem Counts.act (counts : Counts s) (loc : Local s.procs) (ready : (s.procs i).pending = none) (act : Act i s t) :
    Counts t := by
  have legal := loc.legal i
  unfold Proc.Legal at legal
  have dups : ∀ {f fd}, (s.procs i).pos = .dup f fd → (s.procs i).ofile fd = some f ∧ 1 ≤ (s.procs i).refs f := by
    intro f fd here
    rw [here] at legal
    obtain ⟨slot, fd', other, slot'⟩ := legal
    exact ⟨slot, dup_held here other slot'⟩
  have listed : ∀ {f rest}, (s.procs i).pos = .close (f :: rest) → 1 ≤ (s.procs i).refs f := fun here => by
    rw [refs_here here]
    exact Nat.le_trans (List.count_pos_iff.mpr List.mem_cons_self) (Nat.le_add_left ..)
  have slotted : ∀ {pos : Pos ι} {f fd}, (s.procs i).pos = pos → pos.skips = none → (s.procs i).ofile fd = some f →
      1 ≤ (s.procs i).refs f := by
    intro pos f fd here skips slot
    have one : hit ((s.procs i).ofile fd) f ≤ slots none (s.procs i).ofile f := hit_le_slots nofun
    rw [hit_self slot] at one
    rw [refs_here here, skips]
    exact Nat.le_trans one (Nat.le_add_right ..)
  cases act with
  | use f fd here slot => exact counts.walk here rfl rfl rfl
  | used f here => exact counts.walk here rfl rfl rfl
  | dup f fd fd' here slot found => exact counts.dup here (fdalloc_free found)
  | dupRef f fd files here run =>
    rw [here] at legal
    obtain ⟨slot, fd', other, slot'⟩ := legal
    exact counts.dupRef here slot other slot' run
  | dupPanic f fd msg here run =>
    rw [filedup_ok (counts.held (dups here).2)] at run
    cases run
  | close f fd here slot => exact counts.close here slot
  | closeRef f rest files type here run => exact counts.closeRef here ready run
  | closePanic f rest msg here run =>
    obtain ⟨files, type, works, -⟩ := fileclose_ok (counts.held (listed here))
    rw [works] at run
    cases run
  | openAlloc f files here run => exact counts.openAlloc here run rfl rfl rfl
  | openSlot f fd here found => exact counts.openSlot here (fdalloc_free found)
  | openFail f here full => exact counts.walk here rfl rfl rfl
  | pipeFirst f files here run => exact counts.openAlloc here run rfl rfl rfl
  | pipeSecond f0 f1 files here run => exact counts.pipeSecond here run
  | pipeFull f0 here full => exact counts.walk here rfl rfl rfl
  | pipePage f0 f1 p here kalloc => exact counts.pipePage here kalloc
  | pipeNoPage f0 f1 here => exact counts.walk here rfl rfl rfl
  | pipeSlots f0 f1 fd0 fd1 here found found' => exact counts.pipeSlots here (fdalloc_free found) (fdalloc_free found')
  | pipeFail f0 f1 here full => exact counts.walk here rfl rfl rfl
  | fork c here slot =>
    have apart : c ≠ i := by
      rintro rfl
      rw [here] at slot
      cases slot
    exact counts.pair apart (fun f => (refs_here here).symm) (fun f => (refs_here slot).symm) rfl rfl rfl rfl
  | forkCopy c f files fd here slot run => exact counts.forkCopy here (loc.child i c fd here) slot run
  | forkPanic c f msg fd here slot run =>
    rw [filedup_ok (counts.held (slotted here rfl slot))] at run
    cases run
  | forkSkip c fd here slot => exact counts.walk here rfl rfl rfl
  | forked c here =>
    have child := loc.child i c NOFILE here
    exact counts.pair (child.apart here) (fun f => (refs_here here).symm) (fun f => (refs_here child.embryo).symm)
      rfl rfl rfl rfl
  | exit here => exact counts.walk here rfl rfl rfl
  | exitRef f files type fd here slot run => exact counts.exitRef here slot ready run
  | exitPanic f msg fd here slot run =>
    obtain ⟨files, type, works, -⟩ := fileclose_ok (counts.held (slotted here rfl slot))
    rw [works] at run
    cases run
  | exitClear fd here => exact counts.exitClear here
  | exitSkip fd here slot => exact counts.walk here rfl rfl rfl
  | gone here => exact counts.walk here rfl rfl rfl

theorem Counts.pipeclose {p : π} {w : Bool} {ends : Ends} (counts : Counts s)
    (here : (s.procs i).pending = some (p, w))
    (live : s.pipes p = some ends) :
    Counts { s.move i { s.procs i with pending := none } with
      pipes := Function.update s.pipes p (pipeclose ends w) } := by
  have opened := counts.closing here
  refine counts.move (fun f => rfl) (fun f change => absurd rfl change) (fun f change => absurd rfl change)
    (counts.once i)
    (counts.fresh i) (fun q v => ?_) (fun q left found => ?_)
  · show filesOf s.files (q, v) + hit none (q, v) + _ = filesOf s.files (q, v) + hit (s.procs i).pending (q, v) + _
    rw [openEnd_pipeclose live, here, hit_none]
    by_cases same : (q, v) = (p, w)
    · obtain ⟨rfl, rfl⟩ := Prod.mk.inj same
      rw [opened, hit_self rfl, decide_eq_true rfl, Bool.not_true, Bool.and_false, Bool.toNat_true, Bool.toNat_false]
    · rw [decide_eq_false same, hit, if_neg fun both => same (Option.some.inj both).symm, Bool.not_false,
        Bool.and_true]
  · by_cases same : q = p
    · rw [same, Function.update_self] at found
      exact pipeclose_some found
    · rw [Function.update_of_ne same] at found
      exact counts.live q left found

theorem Counts.step (counts : Counts s) (loc : Local s.procs) (step : Step s t) : Counts t := by
  cases step with
  | act _ i calm ready act => exact counts.act loc ready act
  | pipeclose i p w ends calm here live => exact counts.pipeclose here live
  | freed i p w calm here gone =>
    have opened := counts.closing here
    rw [openEnd, gone] at opened
    cases opened

end Steps

section Types
variable {ι π : Type} [DecidableEq ι] {s t : State ι π} {i : ι} {x : Proc ι π} {f g : Fin NFILE}
    {files after : Ftable π}
  {pipes : π → Option Ends} {type : FileType π} {file : File π}

/-- The files that processes know are in use as a pipe or as an inode. -/
def Typed (s : State ι π) : Prop := ∀ i f, (s.procs i).Knows f → (s.files f).type ≠ .FD_NONE

theorem Typed.move (typed : Typed s)
    (kept : ∀ j f, (Function.update s.procs i x j).Knows f → (files f).type = .FD_NONE → (s.files f).type = .FD_NONE)
    (origin : ∀ f, x.Knows f → (∃ k, (s.procs k).Knows f) ∨ (files f).type ≠ .FD_NONE) :
    Typed { s.move i x with files := files, pipes := pipes } := by
  intro j f knows unused
  change (Function.update s.procs i x j).Knows f at knows
  have before := kept j f knows unused
  by_cases self : j = i
  · rw [self, Function.update_self] at knows
    rcases origin f knows with ⟨k, known⟩ | used
    · exact typed k f known before
    · exact used unused
  · rw [Function.update_of_ne self] at knows
    exact typed j f knows before

theorem Typed.still (typed : Typed s) (origin : ∀ f, x.Knows f → ∃ k, (s.procs k).Knows f) : Typed (s.move i x) :=
  typed.move (fun _ _ _ unused => unused) fun f knows => .inl (origin f knows)

theorem Typed.walk (typed : Typed s) {old new : Pos ι} (here : (s.procs i).pos = old)
    (settled : ∀ fd, old ≠ .exited fd)
    (plain : ∀ f g, new ≠ .piped f g) : Typed (s.move i ((s.procs i).at new)) :=
  typed.still fun _ knows => ⟨i, knows_at here knows settled plain⟩

theorem type_kept (unused : (Function.update files g file f).type = .FD_NONE)
    (same : file.type = .FD_NONE → (files g).type = .FD_NONE) : (files f).type = .FD_NONE := by
  by_cases is : f = g
  · rw [is, Function.update_self] at unused
    rw [is]
    exact same unused
  · rwa [Function.update_of_ne is] at unused

/-- A process moves on with other counts in the file table. -/
theorem Typed.count (typed : Typed s) {n : Nat} {old new : Pos ι} (here : (s.procs i).pos = old)
    (settled : ∀ fd, old ≠ .exited fd) (plain : ∀ f g, new ≠ .piped f g) :
    Typed { s.move i ((s.procs i).at new) with files := Function.update s.files g { s.files g with ref := n } } :=
  typed.move (fun _ _ _ unused => type_kept unused id) fun _ knows => .inl ⟨i, knows_at here knows settled plain⟩

theorem fileclose_kept (run : fileclose g files = .ok (after, type)) (used : 1 ≤ (after f).ref) :
    (after f).type = (files f).type := by
  unfold fileclose at run
  split at run
  · cases run
  · split at run
    · obtain ⟨rfl, -⟩ := Prod.mk.inj (Except.ok.inj run)
      by_cases is : f = g
      · rw [is, Function.update_self]
      · rw [Function.update_of_ne is]
    · obtain ⟨rfl, -⟩ := Prod.mk.inj (Except.ok.inj run)
      by_cases is : f = g
      · rw [is, Function.update_self] at used
        cases used
      · rw [Function.update_of_ne is]

/-- Two processes move of which neither learns of a file. -/
theorem Typed.pair {c : ι} {y : Proc ι π} (typed : Typed s) (apart : c ≠ i)
    (origin : ∀ f, x.Knows f → (s.procs i).Knows f) (origin' : ∀ f, y.Knows f → (s.procs c).Knows f) :
    Typed ((s.move i x).move c y) := by
  have same : (s.move i x).procs c = s.procs c := Function.update_of_ne apart ..
  have moved : Typed (s.move i x) := typed.still fun f knows => ⟨i, origin f knows⟩
  exact moved.still fun f knows => ⟨c, same ▸ origin' f knows⟩

variable [DecidableEq π] [Fintype ι]

/-- `fileclose` takes the type of a file only when no process knows it any more. -/
theorem Typed.close (typed : Typed s) {old new : Pos ι} (here : (s.procs i).pos = old)
    (settled : ∀ fd, old ≠ .exited fd)
    (plain : ∀ f g, new ≠ .piped f g) (run : fileclose g s.files = .ok (files, type))
    (loc : Local (s.move i { (s.procs i).at new with pending := type.pending }).procs)
    (counts : Counts { s.move i { (s.procs i).at new with pending := type.pending } with files := files }) :
    Typed { s.move i { (s.procs i).at new with pending := type.pending } with files := files } := by
  refine typed.move (fun j f knows unused => ?_) fun f knows => .inl ⟨i, knows_at here knows settled plain⟩
  have used := counts.held (i := j) (Proc.Knows.held knows (loc.legal j))
  rwa [fileclose_kept run used] at unused

theorem Typed.act (typed : Typed s) (act : Act i s t) (before : Local s.procs) (loc : Local t.procs)
    (counts : Counts t) :
    Typed t := by
  cases act with
  | use f fd here slot => exact typed.walk here nofun nofun
  | used f here => exact typed.walk here nofun nofun
  | dup f fd fd' here slot found =>
    refine typed.still fun g knows => ⟨i, ?_⟩
    rcases knows_install knows nofun with same | ⟨fd'', -, slot'⟩
    · exact knows_slot here nofun (slot.trans same)
    · exact knows_slot here nofun slot'
  | dupRef f fd files here run =>
    unfold filedup at run
    split at run
    · cases run
    · obtain rfl := Except.ok.inj run
      exact typed.count here nofun nofun
  | dupPanic f fd msg here run => exact typed
  | close f fd here slot =>
    refine typed.still fun g knows => ⟨i, ?_⟩
    rcases knows_install knows nofun with same | ⟨fd', -, slot'⟩
    · cases same
    · exact knows_slot here nofun slot'
  | closeRef f rest files type here run =>
    have plain : ∀ f g, (Pos.closed rest : Pos ι) ≠ .piped f g := by cases rest <;> nofun
    exact typed.close here nofun plain run loc counts
  | closePanic f rest msg here run => exact typed
  | openAlloc f files here run =>
    obtain ⟨-, rfl⟩ := filealloc_some run
    exact typed.count here nofun nofun
  | openSlot f fd here found =>
    refine typed.move (fun _ _ _ unused => type_kept unused nofun) fun g knows => ?_
    rcases knows_install knows nofun with same | ⟨fd', -, slot'⟩
    · obtain rfl := Option.some.inj same
      rw [Function.update_self]
      exact .inr nofun
    · exact .inl ⟨i, knows_slot here nofun slot'⟩
  | openFail f here full => exact typed.walk here nofun nofun
  | pipeFirst f files here run =>
    obtain ⟨-, rfl⟩ := filealloc_some run
    exact typed.count here nofun nofun
  | pipeSecond f0 f1 files here run =>
    obtain ⟨-, rfl⟩ := filealloc_some run
    exact typed.count here nofun nofun
  | pipeFull f0 here full => exact typed.walk here nofun nofun
  | pipePage f0 f1 p here kalloc =>
    refine typed.move (fun _ _ _ unused => type_kept (type_kept unused nofun) nofun) fun g knows => ?_
    rcases knows with ⟨fd, slot, -⟩ | ⟨g', first | second⟩
    · exact .inl ⟨i, knows_slot here nofun slot⟩
    · cases first
      refine .inr ?_
      by_cases same : f0 = f1
      · rw [same, Function.update_self]
        nofun
      · rw [Function.update_of_ne same, Function.update_self]
        nofun
    · cases second
      rw [Function.update_self]
      exact .inr nofun
  | pipeNoPage f0 f1 here => exact typed.walk here nofun nofun
  | pipeSlots f0 f1 fd0 fd1 here found found' =>
    refine typed.still fun g knows => ⟨i, ?_⟩
    rcases knows_install knows nofun with same | ⟨fd, -, slot⟩
    · obtain rfl := Option.some.inj same
      exact .inr ⟨f0, .inr here⟩
    · rcases knows_install (show ((s.procs i).install fd0 (some f0) .user).Knows g from .inl
        ⟨fd, slot, nofun⟩) nofun with same | ⟨fd', -, slot'⟩
      · obtain rfl := Option.some.inj same
        exact .inr ⟨f1, .inl here⟩
      · exact knows_slot here nofun slot'
  | pipeFail f0 f1 here full => exact typed.walk here nofun nofun
  | fork c here slot =>
    have apart : c ≠ i := by
      rintro rfl
      rw [here] at slot
      cases slot
    exact typed.pair apart (fun _ knows => knows_at here knows nofun nofun) fun _ knows =>
      knows_at slot knows nofun nofun
  | forkCopy c f files fd here slot run =>
    unfold filedup at run
    split at run
    · cases run
    obtain rfl := Except.ok.inj run
    have apart := (before.child i c fd here).apart here
    have moved : Typed (s.move i ((s.procs i).at (.fork c (fd + 1)))) := typed.walk here nofun nofun
    have parent : (s.move i ((s.procs i).at (.fork c (fd + 1)))).procs i = (s.procs i).at (.fork c (fd + 1)) :=
      Function.update_self ..
    have child : (s.move i ((s.procs i).at (.fork c (fd + 1)))).procs c = s.procs c := Function.update_of_ne apart ..
    refine moved.move (fun _ _ _ unused => type_kept unused id) fun g knows => .inl ?_
    rcases knows_install knows nofun with same | ⟨fd', -, slot'⟩
    · refine ⟨i, ?_⟩
      rw [parent]
      exact knows_slot rfl nofun (slot.trans same)
    · refine ⟨c, ?_⟩
      rw [child]
      exact knows_slot (before.child i c fd here).embryo nofun slot'
  | forkPanic c f msg fd here slot run => exact typed
  | forkSkip c fd here slot => exact typed.walk here nofun nofun
  | forked c here =>
    have child := before.child i c NOFILE here
    exact typed.pair (child.apart here) (fun _ knows => knows_at here knows nofun nofun) fun _ knows =>
      knows_at child.embryo knows nofun nofun
  | exit here => exact typed.walk here nofun nofun
  | exitRef f files type fd here slot run => exact typed.close here nofun nofun run loc counts
  | exitPanic f msg fd here slot run => exact typed
  | exitClear fd here =>
    refine typed.still fun g knows => ⟨i, ?_⟩
    rcases knows_install knows nofun with same | ⟨fd', other, slot'⟩
    · cases same
    · refine .inl ⟨fd', slot', fun same => other ?_⟩
      rw [here] at same
      cases same
      rfl
  | exitSkip fd here slot => exact typed.walk here nofun nofun
  | gone here => exact typed.walk here nofun nofun

theorem Typed.step (typed : Typed s) (step : Step s t) (before : Local s.procs) (counts : Counts t) : Typed t := by
  have loc := before.step step
  cases step with
  | act _ i calm ready act => exact typed.act act before loc counts
  | pipeclose i p w ends calm here live => exact typed.still fun f knows => ⟨i, knows⟩
  | freed i p w calm here gone => exact typed

end Types

section Runs
variable {ι π : Type} [DecidableEq ι] {s : State ι π} {first : ι}

theorem boot_local : Local (State.boot first : State ι π).procs := by
  have calm : ∀ i c k, ((State.boot first : State ι π).procs i).pos ≠ .fork c k := by
    intro i c k
    show (if i = first then Pos.user else .absent) ≠ .fork c k
    split <;> nofun
  refine ⟨fun i => ?_, fun i c k forks => absurd forks (calm i c k)⟩
  show Proc.Legal ⟨fun _ => none, if i = first then .user else .absent, none⟩
  split
  · trivial
  · exact ⟨rfl, fun _ => rfl⟩

theorem boot_refs (i : ι) (f : Fin NFILE) : ((State.boot first : State ι π).procs i).refs f = 0 := by
  have clear : slots none (fun _ : Fin NOFILE => (none : Option (Fin NFILE))) f = 0 :=
    Finset.sum_eq_zero fun _ _ => rfl
  show Proc.refs (⟨fun _ => none, if i = first then .user else .absent, none⟩ : Proc ι π) f = 0
  split <;> exact (refs_bare rfl rfl rfl).trans clear

theorem boot_typed : Typed (State.boot first : State ι π) := by
  intro i f knows
  rcases knows with ⟨fd, slot, -⟩ | ⟨g, piped⟩
  · cases slot
  · change (if i = first then Pos.user else .absent) = _ ∨ (if i = first then Pos.user else .absent) = _ at piped
    split at piped <;> rcases piped with here | here <;> cases here

variable [DecidableEq π] [Fintype ι]

theorem boot_counts : Counts (State.boot first : State ι π) where
  calm := rfl
  refs f := Finset.sum_eq_zero fun i _ => boot_refs i f
  unref _ _ := rfl
  once i := by
    show (if i = first then Pos.user else .absent).fresh.Nodup
    split <;> exact List.nodup_nil
  fresh i f member := by
    change f ∈ (if i = first then Pos.user else .absent).fresh at member
    split at member <;> cases member
  ends p w := by
    have files : filesOf (State.boot first : State ι π).files (p, w) = 0 := Finset.sum_eq_zero fun _ _ => rfl
    have pending : ∑ i, hit ((State.boot first : State ι π).procs i).pending (p, w) = 0 :=
      Finset.sum_eq_zero fun _ _ => rfl
    rw [State.endRefs, files, pending]
    rfl
  live _ _ found := nomatch found

theorem run_keeps (run : Relation.ReflTransGen Step (State.boot first) s) : Local s.procs ∧ Counts s ∧ Typed s := by
  induction run with
  | refl => exact ⟨boot_local, boot_counts, boot_typed⟩
  | tail _ step ih =>
    obtain ⟨loc, counts, typed⟩ := ih
    exact ⟨loc.step step, counts.step loc step, typed.step step loc (counts.step loc step)⟩

/-- Under every interleaving `f->ref` is the number of references to `f`, the kernel does not panic, and the file of a
descriptor is not reused while the descriptor is set, except at the moment when `exit` is about to clear it. -/
theorem refs_exact (run : Relation.ReflTransGen Step (State.boot first) s) :
    s.panicked = none ∧ (∀ f, (s.files f).ref = ∑ i, (s.procs i).refs f) ∧
      ∀ i fd f, (s.procs i).ofile fd = some f → (s.procs i).pos ≠ .exited fd → 1 ≤ (s.files f).ref := by
  obtain ⟨loc, counts, -⟩ := run_keeps run
  exact ⟨counts.calm, fun f => (counts.refs f).symm, fun i fd f slot kept =>
    counts.held (Proc.Knows.held (.inl ⟨fd, slot, kept⟩) (loc.legal i))⟩

/-- An end of a pipe is open exactly while one file is this end or a call of `pipeclose` for it is to come, and the
page of the pipe is in use exactly while an end is open. -/
theorem ends_exact (run : Relation.ReflTransGen Step (State.boot first) s) (p : π) :
    (∀ w, s.endRefs (p, w) = if openEnd s.pipes p w then 1 else 0) ∧
      (s.pipes p ≠ none ↔ ∃ w, openEnd s.pipes p w = true) := by
  obtain ⟨-, counts, -⟩ := run_keeps run
  refine ⟨fun w => ?_, fun used => ?_, ?_⟩
  · rw [counts.ends]
    cases openEnd s.pipes p w <;> rfl
  · obtain ⟨ends, live⟩ := Option.ne_none_iff_exists'.mp used
    rcases counts.live p ends live with reads | writes
    · exact ⟨false, by rw [openEnd, live]; exact reads⟩
    · exact ⟨true, by rw [openEnd, live]; exact writes⟩
  · rintro ⟨w, opened⟩ none
    rw [openEnd, none] at opened
    cases opened

/-- A file that `fileread`, `filewrite` or `filestat` works on is a pipe or an inode, and the end of its pipe is open. -/
theorem uses_typed (run : Relation.ReflTransGen Step (State.boot first) s) {i : ι} {f : Fin NFILE}
    (here : (s.procs i).pos = .uses f) :
    (s.files f).type ≠ .FD_NONE ∧ ∀ p w, (s.files f).type = .FD_PIPE p w → openEnd s.pipes p w = true := by
  obtain ⟨loc, counts, typed⟩ := run_keeps run
  have legal := loc.legal i
  unfold Proc.Legal at legal
  rw [here] at legal
  obtain ⟨fd, slot⟩ := legal
  exact ⟨typed i f (knows_slot here nofun slot), fun p w type => counts.opened type⟩

instance : NeZero NFILE := ⟨by decide⟩
instance : NeZero NOFILE := ⟨by decide⟩

/-- `sys_pipe` of the first process. -/
theorem piped_first : ∃ s : State Bool Unit, Relation.ReflTransGen Step (State.boot true) s ∧
    (s.procs true).ofile 0 = some 0 ∧ ((s.procs true).pos = .user ∧ (s.procs true).pending = none) ∧
      s.pipes () = some ⟨true, true⟩ := by
  have first := Relation.ReflTransGen.single (Step.act (State.boot (ι := Bool) (π := Unit) true) _ true rfl rfl
    (.pipeFirst _ 0 _ rfl (Option.map_eq_some_iff.mpr ⟨0, by decide +kernel, rfl⟩)))
  have second := first.tail (.act _ _ true rfl rfl
    (.pipeSecond _ 0 1 _ rfl (Option.map_eq_some_iff.mpr ⟨1, by decide +kernel, rfl⟩)))
  have page := second.tail (.act _ _ true rfl rfl (.pipePage _ 0 1 () rfl rfl))
  have slots := page.tail (.act _ _ true rfl rfl (.pipeSlots _ 0 1 0 1 rfl (by decide +kernel) (by decide +kernel)))
  exact ⟨_, slots, rfl, ⟨rfl, rfl⟩, rfl⟩

theorem refs_exact_piped : ∃ s : State Bool Unit, (s.procs true).ofile 0 = some 0 ∧
    s.panicked = none ∧ (∀ f, (s.files f).ref = ∑ i, (s.procs i).refs f) ∧
      ∀ i fd f, (s.procs i).ofile fd = some f → (s.procs i).pos ≠ .exited fd → 1 ≤ (s.files f).ref := by
  obtain ⟨s, run, slot, -⟩ := piped_first
  exact ⟨s, slot, refs_exact run⟩

theorem ends_exact_piped : ∃ s : State Bool Unit, s.pipes () = some ⟨true, true⟩ ∧
    (∀ w, s.endRefs ((), w) = if openEnd s.pipes () w then 1 else 0) ∧
      (s.pipes () ≠ none ↔ ∃ w, openEnd s.pipes () w = true) := by
  obtain ⟨s, run, -, -, live⟩ := piped_first
  exact ⟨s, live, ends_exact run ()⟩

theorem uses_typed_piped : ∃ s : State Bool Unit, (s.procs true).pos = .uses 0 ∧
    (s.files 0).type ≠ .FD_NONE ∧ ∀ p w, (s.files 0).type = .FD_PIPE p w → openEnd s.pipes p w = true := by
  obtain ⟨s, run, slot, user, -⟩ := piped_first
  have used := run.tail (.act s _ true (run_keeps run).2.1.calm user.2 (.use s 0 0 user.1 slot))
  have here : ((s.move true ((s.procs true).at (.uses 0))).procs true).pos = .uses 0 := rfl
  exact ⟨_, here, uses_typed used here⟩

end Runs

end OsLabs.Files
