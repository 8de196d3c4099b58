import OsLabs.Fs.FileRefs

namespace OsLabs.Files
open Totals

section Moves
variable {ι π : Type} {s t : State ι π} {i c : ι} {p x : Proc ι π} {pos : Pos ι} {f g : Fin NFILE} {fd : Fin NOFILE}
  {v : Option (Fin NFILE)} {files : Ftable π} {type : FileType π}

theorem refs_here (here : p.pos = pos) : p.refs f = slots pos.skips p.ofile f + pos.holds.count f := by
  rw [Proc.refs, here]

/-- A process whose kernel code holds nothing. -/
theorem refs_bare (here : p.pos = pos) (skips : pos.skips = none) (holds : pos.holds = []) :
    p.refs f = slots none p.ofile f := by
  rw [refs_here here, skips, holds, List.count_nil, Nat.add_zero]

theorem refs_skip (here : p.pos = pos) (skips : pos.skips = some fd) (holds : pos.holds = []) :
    p.refs f + hit (p.ofile fd) f = slots none p.ofile f := by
  rw [refs_here here, skips, holds, List.count_nil, Nat.add_zero, slots_skip]

theorem refs_keep (here : p.pos = pos) (skips : pos.skips = none) {held : List (Fin NFILE)}
    (holds : pos.holds = held) :
    p.refs f = slots none p.ofile f + held.count f := by
  rw [refs_here here, skips, holds]

theorem install_bare (p : Proc ι π) (fd : Fin NOFILE) (v : Option (Fin NFILE)) (f : Fin NFILE) {pos : Pos ι}
    (skips : pos.skips = none) :
      (p.install fd v pos).refs f + hit (p.ofile fd) f = slots none p.ofile f + hit v f + pos.holds.count f := by
  have set := slots_set p.ofile fd v f
  have new : (p.install fd v pos).refs f = slots none (Function.update p.ofile fd v) f + pos.holds.count f :=
    refs_keep rfl skips rfl
  omega

theorem count_one : [g].count f = hit (some g) f := by
  rw [count_cons_hit, List.count_nil, Nat.zero_add]

theorem dup_held {fd' : Fin NOFILE} (here : p.pos = .dup g fd) (other : fd' ≠ fd) (slot : p.ofile fd' = some g) :
    1 ≤ p.refs g := by
  have one : hit (p.ofile fd') g ≤ slots (some fd) p.ofile g := hit_le_slots fun same => other (Option.some.inj same)
  rw [hit_self slot] at one
  rw [refs_here here]
  exact Nat.le_trans one (Nat.le_add_right ..)

theorem closed_pos (rest : List (Fin NFILE)) :
    (Pos.closed rest : Pos ι).skips = none ∧ (Pos.closed rest : Pos ι).holds = rest ∧
      (Pos.closed rest : Pos ι).fresh = [] := by
  cases rest <;> exact ⟨rfl, rfl, rfl⟩

theorem move_pipes [DecidableEq ι] : (s.move i x).pipes = s.pipes := rfl

variable [DecidableEq π] [Fintype ι]

theorem Counts.held (counts : Counts s) (some : 1 ≤ (s.procs i).refs g) : 1 ≤ (s.files g).ref :=
  counts.refs g ▸ Nat.le_trans some (le_sum (fun p : Proc ι π => p.refs g) s.procs i)

variable [DecidableEq ι]

/-- A process gets one more reference to a file that is referred to. -/
theorem Counts.gain (counts : Counts s) (balance : ∀ f, x.refs f = (s.procs i).refs f + hit (some g) f)
    (known : ∀ j, j ≠ i → g ∉ (s.procs j).pos.fresh) (old : x.pos.fresh = [])
    (pending : x.pending = (s.procs i).pending) :
    Counts { s.move i x with files := Function.update s.files g { s.files g with ref := (s.files g).ref + 1 } } := by
  refine counts.move (fun f => ?_) (fun f change zero => ?_) (fun f change j apart => ?_) (old ▸ List.nodup_nil)
    (fun f member => by rw [old] at member; cases member) (fun p w => ?_) counts.live
  · rw [balance, ref_gained rfl]
    omega
  · rw [update_changed change, Function.update_self] at zero
    cases zero
  · rw [update_changed change]
    exact known j apart
  · rw [pending, @filesOf_same π s.files g { s.files g with ref := (s.files g).ref + 1 } _ (p, w) rfl, move_pipes]

/-- A process gives up a reference, by `fileclose`. -/
theorem Counts.lose (counts : Counts s) (balance : ∀ f, x.refs f + hit (some g) f = (s.procs i).refs f)
    (closed : Closed s.files files g type) (old : x.pos.fresh = []) (ready : (s.procs i).pending = none)
    (pending : x.pending = type.pending) : Counts { s.move i x with files := files } := by
  have held : 1 ≤ (s.procs i).refs g := by
    have one := balance g
    rw [hit_self rfl] at one
    omega
  have only : ∀ f, files f ≠ s.files f → f = g := fun f change => by
    by_contra apart
    exact change (closed.other f apart)
  refine counts.move (fun f => ?_) (fun f change zero => ?_) (fun f change j apart => ?_) (old ▸ List.nodup_nil)
    (fun f member => by rw [old] at member; cases member) (fun p w => ?_) counts.live
  · have lost := closed.ref f
    have gone := balance f
    omega
  · rw [only f change] at zero ⊢
    exact closed.unref zero
  · rw [only f change]
    exact counts.alone apart.symm held
  · rw [pending, ready, hit_none, closed.types, move_pipes, Nat.add_zero]

/-- A process takes an unused file. -/
theorem Counts.create (counts : Counts s) (unused : (s.files g).ref = 0)
    (balance : ∀ f, x.refs f = (s.procs i).refs f + hit (some g) f)
    (fresh : x.pos.fresh.Perm (g :: (s.procs i).pos.fresh))
    (pending : x.pending = (s.procs i).pending) :
    Counts { s.move i x with files := Function.update s.files g { s.files g with ref := 1 } } := by
  have unknown : ∀ j, g ∉ (s.procs j).pos.fresh := fun j member => by
    have one := (counts.fresh j g member).1
    omega
  refine counts.move (fun f => ?_) (fun f change zero => ?_) (fun f change j apart => ?_)
    (fresh.nodup_iff.mpr (List.nodup_cons.mpr ⟨unknown i, counts.once i⟩)) (fun f member => ?_)
    (fun p w => ?_) counts.live
  · rw [balance, ref_gained (show 1 = _ + 1 by rw [unused])]
    omega
  · rw [update_changed change, Function.update_self] at zero
    cases zero
  · rw [update_changed change]
    exact unknown j
  · rcases List.mem_cons.mp (fresh.mem_iff.mp member) with rfl | old
    · rw [Function.update_self]
      exact ⟨rfl, counts.unref f unused⟩
    · have apart : f ≠ g := fun same => unknown i (same ▸ old)
      rw [Function.update_of_ne apart]
      exact counts.fresh i f old
  · rw [pending, @filesOf_same π s.files g { s.files g with ref := 1 } _ (p, w) rfl, move_pipes]

theorem Counts.dup (counts : Counts s) (here : (s.procs i).pos = .user) (free : (s.procs i).ofile fd = none) :
    Counts (s.move i ((s.procs i).install fd (some g) (.dup g fd))) := by
  refine counts.still (fun f => ?_) rfl rfl
  have old : (s.procs i).refs f = slots none (s.procs i).ofile f := refs_bare here rfl rfl
  have new : ((s.procs i).install fd (some g) (.dup g fd)).refs f +
      hit (Function.update (s.procs i).ofile fd (some g) fd) f =
        slots none (Function.update (s.procs i).ofile fd (some g)) f :=
    refs_skip rfl rfl rfl
  have set := slots_set (s.procs i).ofile fd (some g) f
  rw [free, hit_none] at set
  rw [Function.update_self] at new
  omega

theorem Counts.dupRef (counts : Counts s) {fd' : Fin NOFILE} (here : (s.procs i).pos = .dup g fd)
    (slot : (s.procs i).ofile fd = some g) (other : fd' ≠ fd) (slot' : (s.procs i).ofile fd' = some g)
    (run : filedup g s.files = .ok files) : Counts { s.move i ((s.procs i).at .user) with files := files } := by
  have held := dup_held here other slot'
  obtain rfl := Except.ok.inj ((filedup_ok (counts.held held)).symm.trans run)
  refine counts.gain (fun f => ?_) (fun j apart => counts.alone apart.symm held) rfl rfl
  have old : (s.procs i).refs f + hit ((s.procs i).ofile fd) f = slots none (s.procs i).ofile f :=
    refs_skip here rfl rfl
  have new : ((s.procs i).at .user).refs f = slots none (s.procs i).ofile f := refs_bare rfl rfl rfl
  rw [slot] at old
  omega

theorem Counts.close (counts : Counts s) (here : (s.procs i).pos = .user) (slot : (s.procs i).ofile fd = some g) :
    Counts (s.move i ((s.procs i).install fd none (.close [g]))) := by
  refine counts.still (fun f => ?_) rfl rfl
  have old : (s.procs i).refs f = slots none (s.procs i).ofile f := refs_bare here rfl rfl
  have new := install_bare (s.procs i) fd none f (show (Pos.close (ι := ι) [g]).skips = none from rfl)
  rw [slot, hit_none] at new
  change _ = _ + 0 + [g].count f at new
  rw [count_one] at new
  omega

theorem Counts.closeRef (counts : Counts s) {rest : List (Fin NFILE)} (here : (s.procs i).pos = .close (g :: rest))
    (ready : (s.procs i).pending = none) (run : fileclose g s.files = .ok (files, type)) :
    Counts { s.move i { (s.procs i).at (.closed rest) with pending := type.pending } with files := files } := by
  have old : ∀ f, (s.procs i).refs f = slots none (s.procs i).ofile f + (g :: rest).count f :=
    fun f => refs_keep here rfl rfl
  have held : 1 ≤ (s.procs i).refs g := by
    rw [old, count_cons_hit, hit_self rfl]
    omega
  obtain ⟨files', type', run', closed⟩ := fileclose_ok (counts.held held)
  obtain ⟨rfl, rfl⟩ := Prod.mk.inj (Except.ok.inj (run'.symm.trans run))
  obtain ⟨skips, holds, fresh⟩ := @closed_pos ι rest
  refine counts.lose (fun f => ?_) closed fresh ready rfl
  have new : ({ (s.procs i).at (.closed rest) with pending := type'.pending } : Proc ι π).refs f =
      slots none (s.procs i).ofile f + rest.count f := refs_keep rfl skips holds
  rw [new, old, count_cons_hit]
  omega

theorem Counts.exitRef (counts : Counts s) (here : (s.procs i).pos = .exit fd) (slot : (s.procs i).ofile fd = some g)
    (ready : (s.procs i).pending = none) (run : fileclose g s.files = .ok (files, type)) :
    Counts { s.move i { (s.procs i).at (.exited fd) with pending := type.pending } with files := files } := by
  have old : ∀ f, (s.procs i).refs f = slots none (s.procs i).ofile f := fun f => refs_bare here rfl rfl
  have split := slots_skip (s.procs i).ofile fd
  rw [slot] at split
  have held : 1 ≤ (s.procs i).refs g := by
    have one := split g
    rw [hit_self rfl] at one
    rw [old]
    omega
  obtain ⟨files', type', run', closed⟩ := fileclose_ok (counts.held held)
  obtain ⟨rfl, rfl⟩ := Prod.mk.inj (Except.ok.inj (run'.symm.trans run))
  refine counts.lose (fun f => ?_) closed rfl ready rfl
  have new : ({ (s.procs i).at (.exited fd) with pending := type'.pending } : Proc ι π).refs f + hit
      ((s.procs i).ofile fd) f =
      slots none (s.procs i).ofile f := refs_skip rfl rfl rfl
  rw [slot] at new
  rw [old]
  exact new

theorem Counts.exitClear (counts : Counts s) (here : (s.procs i).pos = .exited fd) :
    Counts (s.move i ((s.procs i).install fd none (.exit (fd + 1)))) := by
  refine counts.still (fun f => ?_) rfl rfl
  have old : (s.procs i).refs f + hit ((s.procs i).ofile fd) f = slots none (s.procs i).ofile f :=
    refs_skip here rfl rfl
  have new := install_bare (s.procs i) fd none f
    (show (Pos.exit (ι := ι) (fd + 1)).skips = none from rfl)
  rw [hit_none] at new
  change _ = _ + 0 + 0 at new
  omega

theorem Counts.openAlloc (counts : Counts s) (here : (s.procs i).pos = .user)
    (run : filealloc s.files = some (g, files))
    (holds : pos.holds = [g]) (fresh : pos.fresh = [g]) (skips : pos.skips = none) :
    Counts { s.move i ((s.procs i).at pos) with files := files } := by
  obtain ⟨unused, rfl⟩ := filealloc_some run
  refine counts.create unused (fun f => ?_) ?_ rfl
  · have old : (s.procs i).refs f = slots none (s.procs i).ofile f := refs_bare here rfl rfl
    have new : ((s.procs i).at pos).refs f = slots none (s.procs i).ofile f + [g].count f := refs_keep rfl skips holds
    rw [new, old, count_one]
  · show pos.fresh.Perm _
    rw [fresh, here]
    rfl

theorem Counts.pipeSecond {f0 : Fin NFILE} (counts : Counts s) (here : (s.procs i).pos = .pipe1 f0)
    (run : filealloc s.files = some (g, files)) :
      Counts { s.move i ((s.procs i).at (.pipe2 f0 g)) with files := files } := by
  obtain ⟨unused, rfl⟩ := filealloc_some run
  refine counts.create unused (fun f => ?_) ?_ rfl
  · have old : (s.procs i).refs f = slots none (s.procs i).ofile f + [f0].count f := refs_keep here rfl rfl
    have new : ((s.procs i).at (.pipe2 f0 g)).refs f = slots none (s.procs i).ofile f + [f0, g].count f :=
      refs_keep rfl rfl rfl
    rw [new, old, count_cons_hit, count_one, count_one]
    omega
  · show [f0, g].Perm _
    rw [here]
    exact List.Perm.swap ..

theorem Counts.openSlot (counts : Counts s) (here : (s.procs i).pos = .opens g) (free : (s.procs i).ofile fd = none) :
    Counts { s.move i ((s.procs i).install fd (some g) .user) with
      files := Function.update s.files g { s.files g with type := .FD_INODE } } := by
  have member : g ∈ (s.procs i).pos.fresh := by
    rw [here]
    exact List.mem_singleton_self g
  obtain ⟨one, bare⟩ := counts.fresh i g member
  have held : 1 ≤ (s.procs i).refs g := Nat.le_trans (fresh_held member) (Nat.le_add_left ..)
  refine counts.move (fun f => ?_) (fun f change zero => ?_) (fun f change j apart => ?_) List.nodup_nil
    (fun f member => nomatch member) (fun p w => ?_) counts.live
  · have old : (s.procs i).refs f = slots none (s.procs i).ofile f + [g].count f := refs_keep here rfl rfl
    have new := install_bare (s.procs i) fd (some g) f (show (Pos.user (ι := ι)).skips = none from rfl)
    have same : (Function.update s.files g { s.files g with type := .FD_INODE } f).ref = (s.files f).ref := by
      by_cases is : f = g
      · rw [is, Function.update_self]
      · rw [Function.update_of_ne is]
    rw [free, hit_none] at new
    change _ + 0 = _ + 0 at new
    rw [same, old, count_one]
    omega
  · rw [update_changed change, Function.update_self] at zero
    change (s.files g).ref = 0 at zero
    omega
  · rw [update_changed change]
    exact counts.alone apart.symm held
  · have types : filesOf (Function.update s.files g { s.files g with type := .FD_INODE }) (p, w) =
      filesOf s.files (p, w) :=
      filesOf_same (by rw [bare]; rfl)
    rw [types]
    rfl

theorem Counts.pipePage {f0 f1 : Fin NFILE} {page : π} (counts : Counts s) (here : (s.procs i).pos = .pipe2 f0 f1)
    (kalloc : s.pipes page = none) :
    Counts { s.move i ((s.procs i).at (.piped f0 f1)) with
      files := Function.update (Function.update s.files f0 { s.files f0 with type := .FD_PIPE page false }) f1
        { s.files f1 with type := .FD_PIPE page true }
      pipes := Function.update s.pipes page (some ⟨true, true⟩) } := by
  have once := counts.once i
  have fresh := counts.fresh i
  have held : ∀ f ∈ [f0, f1], 1 ≤ (s.procs i).refs f := fun f member =>
    Nat.le_trans (fresh_held (by rw [here]; exact member)) (Nat.le_add_left ..)
  rw [here] at once fresh
  have apart : f1 ≠ f0 := fun same => (List.nodup_cons.mp once).1 (same ▸ List.mem_singleton_self f1)
  obtain ⟨one₀, bare₀⟩ := fresh f0 List.mem_cons_self
  obtain ⟨one₁, bare₁⟩ := fresh f1 (List.mem_cons_of_mem _ List.mem_cons_self)
  generalize first : (Function.update s.files f0 { s.files f0 with type := .FD_PIPE page false } : Ftable π) = mid
  have mid₁ : mid f1 = s.files f1 := by rw [← first, Function.update_of_ne apart]
  have types₀ : ∀ e, filesOf mid e = filesOf s.files e + hit (some (page, false)) e := fun e => by
    have moved := @filesOf_update π s.files f0 { s.files f0 with type := .FD_PIPE page false } _ e
    rw [bare₀, pending_none, hit_none, first, Nat.add_zero] at moved
    exact moved
  generalize second : (Function.update mid f1 { s.files f1 with type := .FD_PIPE page true } : Ftable π) = last
  have types₁ : ∀ e, filesOf last e = filesOf mid e + hit (some (page, true)) e := fun e => by
    have moved := @filesOf_update π mid f1 { s.files f1 with type := .FD_PIPE page true } _ e
    rw [mid₁, bare₁, pending_none, hit_none, second, Nat.add_zero] at moved
    exact moved
  have refs : ∀ f, (last f).ref = (s.files f).ref := by
    intro f
    rw [← second, ← first]
    by_cases is₁ : f = f1
    · rw [is₁, Function.update_self]
    · rw [Function.update_of_ne is₁]
      by_cases is₀ : f = f0
      · rw [is₀, Function.update_self]
      · rw [Function.update_of_ne is₀]
  have only : ∀ f, last f ≠ s.files f → f ∈ [f0, f1] := by
    intro f change
    by_contra other
    obtain ⟨not₀, rest⟩ := not_or.mp (mt List.mem_cons.mpr other)
    refine change ?_
    rw [← second, ← first, Function.update_of_ne (fun is => rest (List.mem_singleton.mpr is)),
      Function.update_of_ne not₀]
  refine counts.move (fun f => ?_) (fun f change zero => ?_)
    (fun f change j away => counts.alone away.symm (held f (only f change)))
    List.nodup_nil (fun f member => nomatch member) (fun q w => ?_) (fun q ends found => ?_)
  · have old : (s.procs i).refs f = slots none (s.procs i).ofile f + [f0, f1].count f := refs_keep here rfl rfl
    have new : ((s.procs i).at (.piped f0 f1)).refs f = slots none (s.procs i).ofile f + [f0, f1].count f :=
      refs_keep rfl rfl rfl
    rw [old, new, refs]
  · have used := counts.held (held f (only f change))
    rw [refs] at zero
    omega
  · rw [types₁, types₀]
    show _ + hit (s.procs i).pending (q, w) + _ = _
    by_cases is : q = page
    · subst is
      have closed : openEnd s.pipes q w = false := by rw [openEnd, kalloc]
      have opened : openEnd (Function.update s.pipes q (some ⟨true, true⟩)) q w = true := by
        rw [openEnd, Function.update_self]
        cases w <;> rfl
      rw [closed, opened]
      cases w <;> simp only [hit, Option.some.injEq, Prod.mk.injEq, true_and, Bool.false_eq_true,
        Bool.true_eq_false, if_true,
        if_false, Bool.toNat_true, Bool.toNat_false] <;> omega
    · have same : openEnd (Function.update s.pipes page (some ⟨true, true⟩)) q w = openEnd s.pipes q w := by
        rw [openEnd, Function.update_of_ne is, openEnd]
      have none : ∀ v, hit (some (page, v)) (q, w) = 0 := fun v => if_neg fun both =>
        is (Prod.mk.inj (Option.some.inj both)).1.symm
      rw [same, none, none]
      omega
  · by_cases is : q = page
    · rw [is, Function.update_self] at found
      obtain rfl := Option.some.inj found
      exact .inl rfl
    · rw [Function.update_of_ne is] at found
      exact counts.live q ends found

theorem Counts.pipeSlots {f0 f1 : Fin NFILE} {fd0 fd1 : Fin NOFILE} (counts : Counts s)
    (here : (s.procs i).pos = .piped f0 f1) (free : (s.procs i).ofile fd0 = none)
    (free' : Function.update (s.procs i).ofile fd0 (some f0) fd1 = none) :
    Counts (s.move i (((s.procs i).install fd0 (some f0) .user).install fd1 (some f1) .user)) := by
  refine counts.still (fun f => ?_) rfl rfl
  have old : (s.procs i).refs f = slots none (s.procs i).ofile f + [f0, f1].count f := refs_keep here rfl rfl
  have first := install_bare (s.procs i) fd0 (some f0) f (show (Pos.user (ι := ι)).skips = none from rfl)
  have second := install_bare ((s.procs i).install fd0 (some f0) .user) fd1 (some f1) f
    (show (Pos.user (ι := ι)).skips = none from rfl)
  have bare : ((s.procs i).install fd0 (some f0) .user).refs f =
      slots none ((s.procs i).install fd0 (some f0) .user).ofile f :=
    refs_bare rfl rfl rfl
  have empty : ((s.procs i).install fd0 (some f0) .user).ofile fd1 = none := free'
  rw [free, hit_none] at first
  rw [empty, hit_none] at second
  change _ + 0 = _ + 0 at first
  change _ + 0 = _ + 0 at second
  rw [old, count_cons_hit, count_one]
  omega

/-- Two processes of which neither's references change. -/
theorem Counts.pair {y : Proc ι π} (counts : Counts s) (apart : c ≠ i) (balance : ∀ f, x.refs f = (s.procs i).refs f)
    (balance' : ∀ f, y.refs f = (s.procs c).refs f) (fresh : x.pos.fresh = []) (fresh' : y.pos.fresh = [])
    (pending : x.pending = (s.procs i).pending) (pending' : y.pending = (s.procs c).pending) :
    Counts ((s.move i x).move c y) := by
  have same : (s.move i x).procs c = s.procs c := Function.update_of_ne apart ..
  exact (counts.still balance fresh pending).still (fun f => by rw [same, balance']) fresh' (by rw [same, pending'])

theorem Counts.forkCopy (counts : Counts s) (here : (s.procs i).pos = .fork c fd) (child : Child s.procs i c fd)
    (slot : (s.procs i).ofile fd = some g) (run : filedup g s.files = .ok files) :
    Counts { (s.move i ((s.procs i).at (.fork c (fd + 1)))).move c ((s.procs c).install fd (some g) .embryo) with
      files := files } := by
  have apart := child.apart here
  have old : ∀ f, (s.procs i).refs f = slots none (s.procs i).ofile f := fun f => refs_bare here rfl rfl
  have held : 1 ≤ (s.procs i).refs g := by
    have one : hit ((s.procs i).ofile fd) g ≤ slots none (s.procs i).ofile g := hit_le_slots nofun
    rwa [hit_self slot, ← old] at one
  obtain rfl := Except.ok.inj ((filedup_ok (counts.held held)).symm.trans run)
  have moved : Counts (s.move i ((s.procs i).at (.fork c (fd + 1)))) :=
    counts.still (fun f => (refs_here here).symm) rfl rfl
  have same : (s.move i ((s.procs i).at (.fork c (fd + 1)))).procs c = s.procs c := Function.update_of_ne apart ..
  refine moved.gain (g := g) (fun f => ?_) (fun j away => ?_) rfl (by rw [same]; rfl)
  · have bare : (s.procs c).refs f = slots none (s.procs c).ofile f := refs_bare child.embryo rfl rfl
    have new := install_bare (s.procs c) fd (some g) f (show (Pos.embryo (ι := ι)).skips = none from rfl)
    rw [child.rest fd (Nat.le_refl _), hit_none] at new
    change _ + 0 = _ + 0 at new
    rw [same, bare]
    omega
  · show g ∉ (Function.update s.procs i ((s.procs i).at (.fork c (fd + 1))) j).pos.fresh
    by_cases self : j = i
    · rw [self, Function.update_self]
      exact List.not_mem_nil
    · rw [Function.update_of_ne self]
      exact counts.alone (Ne.symm self) held

end Moves

end OsLabs.Files
