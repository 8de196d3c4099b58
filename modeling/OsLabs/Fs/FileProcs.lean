import OsLabs.Fs.FileTable

namespace OsLabs.Files

section Procs
variable {ι π : Type} {procs : ι → Proc ι π} {i c : ι} {p x y : Proc ι π}

/-- What holds of a process by itself. -/
def Proc.Legal (p : Proc ι π) : Prop :=
  match p.pos with
  | .absent => p.pending = none ∧ ∀ fd, p.ofile fd = none
  | .embryo => p.pending = none
  | .uses f => ∃ fd, p.ofile fd = some f
  | .dup f fd => p.ofile fd = some f ∧ ∃ fd', fd' ≠ fd ∧ p.ofile fd' = some f
  | .exit k => ∀ fd : Fin NOFILE, fd < k → p.ofile fd = none
  | .exited k => ∀ fd : Fin NOFILE, fd < k → p.ofile fd = none
  | _ => True

/-- A child that `fork` builds has one parent, and no descriptors but those copied so far. -/
structure Child (procs : ι → Proc ι π) (i c : ι) (k : Nat) : Prop where
  embryo : (procs c).pos = .embryo
  rest : ∀ fd : Fin NOFILE, k ≤ fd → (procs c).ofile fd = none
  parent : ∀ j k', (procs j).pos = .fork c k' → j = i

structure Local (procs : ι → Proc ι π) : Prop where
  legal : ∀ i, (procs i).Legal
  child : ∀ i c k, (procs i).pos = .fork c k → Child procs i c k

theorem Child.apart {k : Nat} (child : Child procs i c k) (here : (procs i).pos = .fork c k) : c ≠ i := by
  rintro rfl
  have embryo := child.embryo
  rw [here] at embryo
  cases embryo

theorem fdalloc_free {ofile : Fin NOFILE → Option (Fin NFILE)} {fd : Fin NOFILE} (found : fdalloc ofile = some fd) :
    ofile fd = none := by
  have free := List.find?_some found
  exact of_decide_eq_true free

variable [DecidableEq ι]

/-- A process moves by itself, neither a child being built nor one that starts to build a child. -/
theorem Local.move (loc : Local procs) (legal : x.Legal) (grown : (procs i).pos ≠ .embryo)
    (same : ∀ c k, x.pos = .fork c k → ∃ k₀ ≤ k, (procs i).pos = .fork c k₀) :
    Local (Function.update procs i x) where
  legal j := by
    by_cases here : j = i
    · subst here
      rwa [Function.update_self]
    · rw [Function.update_of_ne here]
      exact loc.legal j
  child j c k forks := by
    have origin : ∀ j c k, (Function.update procs i x j).pos = .fork c k → ∃ k₀ ≤ k, (procs j).pos = .fork c k₀ := by
      intro j c k forks
      by_cases here : j = i
      · subst here
        rw [Function.update_self] at forks
        exact same c k forks
      · rw [Function.update_of_ne here] at forks
        exact ⟨k, Nat.le_refl k, forks⟩
    obtain ⟨k₀, least, before⟩ := origin j c k forks
    obtain ⟨embryo, rest, parent⟩ := loc.child j c k₀ before
    have other : c ≠ i := by
      rintro rfl
      exact grown embryo
    refine ⟨by rwa [Function.update_of_ne other], fun fd high => ?_, fun j' k' forks' => ?_⟩
    · rw [Function.update_of_ne other]
      exact rest fd (Nat.le_trans least high)
    · obtain ⟨k₁, _, before'⟩ := origin j' c k' forks'
      exact parent j' k₁ before'

/-- `fork` takes a slot for the child. -/
theorem Local.fork (loc : Local procs) (here : (procs i).pos = .user) (slot : (procs c).pos = .absent) :
    Local (Function.update (Function.update procs i ((procs i).at (.fork c 0))) c ((procs c).at .embryo)) := by
  have apart : i ≠ c := by
    rintro rfl
    rw [here] at slot
    cases slot
  have free : (procs c).Legal := loc.legal c
  unfold Proc.Legal at free
  rw [slot] at free
  have origin : ∀ j c' k, (Function.update (Function.update procs i ((procs i).at (.fork c 0))) c
      ((procs c).at .embryo) j).pos =
      .fork c' k → j = i ∧ c' = c ∧ k = 0 ∨ j ≠ i ∧ j ≠ c ∧ (procs j).pos = .fork c' k := by
    intro j c' k forks
    by_cases child : j = c
    · subst child
      rw [Function.update_self] at forks
      cases forks
    rw [Function.update_of_ne child] at forks
    by_cases parent : j = i
    · subst parent
      rw [Function.update_self] at forks
      cases forks
      exact .inl ⟨rfl, rfl, rfl⟩
    · rw [Function.update_of_ne parent] at forks
      exact .inr ⟨parent, child, forks⟩
  constructor
  · intro j
    by_cases child : j = c
    · subst child
      rw [Function.update_self]
      exact free.1
    rw [Function.update_of_ne child]
    by_cases parent : j = i
    · subst parent
      rw [Function.update_self]
      trivial
    · rw [Function.update_of_ne parent]
      exact loc.legal j
  · intro j c' k forks
    rcases origin j c' k forks with ⟨rfl, rfl, rfl⟩ | ⟨notParent, notChild, before⟩
    · refine ⟨by rw [Function.update_self]; rfl, fun fd _ => ?_, fun j' k' forks' => ?_⟩
      · rw [Function.update_self]
        exact free.2 fd
      · rcases origin j' _ k' forks' with ⟨is, -⟩ | ⟨-, -, old⟩
        · exact is
        · have busy := (loc.child j' _ k' old).embryo
          rw [slot] at busy
          cases busy
    · obtain ⟨embryo, rest, parent⟩ := loc.child j c' k before
      have other : c' ≠ c := by
        rintro rfl
        rw [slot] at embryo
        cases embryo
      have other' : c' ≠ i := by
        rintro rfl
        rw [here] at embryo
        cases embryo
      refine ⟨by rwa [Function.update_of_ne other, Function.update_of_ne other'], fun fd high => ?_,
        fun j' k' forks' => ?_⟩
      · rw [Function.update_of_ne other, Function.update_of_ne other']
        exact rest fd high
      · rcases origin j' c' k' forks' with ⟨-, same, -⟩ | ⟨-, -, old⟩
        · exact absurd same other
        · exact parent j' k' old

/-- A process that is not in `fork` takes the place of another. -/
theorem fork_origin (plain : ∀ c k, x.pos ≠ .fork c k) (j c' : ι) (k : Nat)
    (forks : (Function.update procs c x j).pos = .fork c' k) : (procs j).pos = .fork c' k := by
  by_cases self : j = c
  · rw [self, Function.update_self] at forks
    exact absurd forks (plain c' k)
  · rwa [Function.update_of_ne self] at forks

/-- `fork` fills a slot of the child that its parent has left behind. -/
theorem Local.copy (loc : Local procs) (fd : Fin NOFILE) (f : Option (Fin NFILE)) (embryo : (procs c).pos = .embryo)
    (passed : ∀ j k, (procs j).pos = .fork c k → fd < k) :
    Local (Function.update procs c ((procs c).install fd f .embryo)) := by
  have origin := @fork_origin _ _ procs c ((procs c).install fd f .embryo) _ nofun
  constructor
  · intro j
    by_cases child : j = c
    · subst child
      have legal := loc.legal j
      unfold Proc.Legal at legal
      rw [embryo] at legal
      rw [Function.update_self]
      exact legal
    · rw [Function.update_of_ne child]
      exact loc.legal j
  · intro j c' k forks
    have before := origin j c' k forks
    obtain ⟨embryo', rest, parent⟩ := loc.child j c' k before
    refine ⟨?_, fun fd' high => ?_, fun j' k' forks' => parent j' k' (origin j' c' k' forks')⟩
    · by_cases child : c' = c
      · rw [child, Function.update_self]
        rfl
      · rwa [Function.update_of_ne child]
    · by_cases child : c' = c
      · subst child
        have low := passed j k before
        rw [Function.update_self]
        refine (Function.update_of_ne ?_ ..).trans (rest fd' high)
        rintro rfl
        omega
      · rw [Function.update_of_ne child]
        exact rest fd' high

/-- `fork` sets its child free. -/
theorem Local.born (loc : Local procs) (embryo : (procs c).pos = .embryo)
    (orphan : ∀ j k, (procs j).pos ≠ .fork c k) :
    Local (Function.update procs c ((procs c).at .user)) := by
  have origin := @fork_origin _ _ procs c ((procs c).at .user) _ nofun
  constructor
  · intro j
    by_cases child : j = c
    · subst child
      rw [Function.update_self]
      trivial
    · rw [Function.update_of_ne child]
      exact loc.legal j
  · intro j c' k forks
    have before := origin j c' k forks
    obtain ⟨embryo', rest, parent⟩ := loc.child j c' k before
    have other : c' ≠ c := by
      rintro rfl
      exact orphan j k before
    exact ⟨by rwa [Function.update_of_ne other],
      fun fd high => by rw [Function.update_of_ne other]; exact rest fd high,
      fun j' k' forks' => parent j' k' (origin j' c' k' forks')⟩

end Procs

section Steps
variable {ι π : Type} [DecidableEq ι] [DecidableEq π] {s t : State ι π} {i : ι}

theorem Local.act (loc : Local s.procs) (ready : (s.procs i).pending = none) (act : Act i s t) : Local t.procs := by
  have idle : ∀ {pos : Pos ι}, (s.procs i).pos = pos → pos ≠ .embryo → (s.procs i).pos ≠ .embryo := fun here other =>
    here.trans_ne other
  have legal := loc.legal i
  unfold Proc.Legal at legal
  cases act with
  | use f fd here slot => exact loc.move ⟨fd, slot⟩ (idle here nofun) nofun
  | used f here => exact loc.move trivial (idle here nofun) nofun
  | dup f fd fd' here slot found =>
    have free := fdalloc_free found
    have apart : fd ≠ fd' := by
      rintro rfl
      rw [slot] at free
      cases free
    exact loc.move ⟨Function.update_self .., fd, apart, (Function.update_of_ne apart ..).trans slot⟩
      (idle here nofun) nofun
  | dupRef f fd files here run => exact loc.move trivial (idle here nofun) nofun
  | dupPanic f fd msg here run => exact loc
  | close f fd here slot => exact loc.move trivial (idle here nofun) nofun
  | closeRef f rest files type here run =>
    cases rest with
    | nil => exact loc.move trivial (idle here nofun) nofun
    | cons g rest => exact loc.move trivial (idle here nofun) nofun
  | closePanic f rest msg here run => exact loc
  | openAlloc f files here run => exact loc.move trivial (idle here nofun) nofun
  | openSlot f fd here found => exact loc.move trivial (idle here nofun) nofun
  | openFail f here full => exact loc.move trivial (idle here nofun) nofun
  | pipeFirst f files here run => exact loc.move trivial (idle here nofun) nofun
  | pipeSecond f0 f1 files here run => exact loc.move trivial (idle here nofun) nofun
  | pipeFull f0 here full => exact loc.move trivial (idle here nofun) nofun
  | pipePage f0 f1 p here kalloc => exact loc.move trivial (idle here nofun) nofun
  | pipeNoPage f0 f1 here => exact loc.move trivial (idle here nofun) nofun
  | pipeSlots f0 f1 fd0 fd1 here found found' => exact loc.move trivial (idle here nofun) nofun
  | pipeFail f0 f1 here full => exact loc.move trivial (idle here nofun) nofun
  | fork c here slot => exact loc.fork here slot
  | forkCopy c f files fd here slot run =>
    have child := loc.child i c fd here
    have apart := child.apart here
    obtain ⟨embryo, -, parent⟩ := child
    have moved := loc.move (x := (s.procs i).at (.fork c (fd + 1))) trivial (idle here nofun) fun c' k same => by
      cases same
      exact ⟨fd, Nat.le_succ _, here⟩
    have copied := moved.copy (c := c) fd (some f) (by rwa [Function.update_of_ne apart]) fun j k forks => by
      by_cases self : j = i
      · subst self
        rw [Function.update_self] at forks
        cases forks
        exact Nat.lt_succ_self _
      · rw [Function.update_of_ne self] at forks
        exact absurd (parent j k forks) self
    rw [Function.update_of_ne apart] at copied
    exact copied
  | forkPanic c f msg fd here slot run => exact loc
  | forkSkip c fd here slot =>
    refine loc.move trivial (idle here nofun) fun c' k same => ?_
    cases same
    exact ⟨fd, Nat.le_succ _, here⟩
  | forked c here =>
    have child := loc.child i c NOFILE here
    have apart := child.apart here
    obtain ⟨embryo, -, parent⟩ := child
    have moved := loc.move (x := (s.procs i).at .user) trivial (idle here nofun) nofun
    have born := moved.born (c := c) (by rwa [Function.update_of_ne apart]) fun j k forks => by
      by_cases self : j = i
      · subst self
        rw [Function.update_self] at forks
        cases forks
      · rw [Function.update_of_ne self] at forks
        exact self (parent j k forks)
    rw [Function.update_of_ne apart] at born
    exact born
  | exit here => exact loc.move (fun fd low => absurd low (Nat.not_lt_zero _)) (idle here nofun) nofun
  | exitRef f files type fd here slot run =>
    rw [here] at legal
    exact loc.move legal (idle here nofun) nofun
  | exitPanic f msg fd here slot run => exact loc
  | exitClear fd here =>
    rw [here] at legal
    refine loc.move (fun fd' low => ?_) (idle here nofun) nofun
    by_cases same : fd' = fd
    · rw [same]
      exact Function.update_self ..
    · exact (Function.update_of_ne same ..).trans (legal fd' (by omega))
  | exitSkip fd here slot =>
    rw [here] at legal
    refine loc.move (fun fd' low => ?_) (idle here nofun) nofun
    by_cases same : fd' = fd
    · rw [same]
      exact slot
    · exact legal fd' (by omega)
  | gone here =>
    rw [here] at legal
    exact loc.move ⟨ready, fun fd => legal fd fd.isLt⟩ (idle here nofun) nofun

theorem Local.step (loc : Local s.procs) (step : Step s t) : Local t.procs := by
  cases step with
  | act _ i calm ready act => exact loc.act ready act
  | pipeclose i p w ends calm here live =>
    have busy : (s.procs i).pending ≠ none := here.trans_ne nofun
    have legal := loc.legal i
    have grown : (s.procs i).pos ≠ .embryo := by
      intro embryo
      unfold Proc.Legal at legal
      rw [embryo] at legal
      exact busy legal
    refine loc.move (x := { s.procs i with pending := none }) ?_ grown fun c k forks => ⟨k, Nat.le_refl k, forks⟩
    unfold Proc.Legal at legal ⊢
    dsimp only
    split at legal
    · exact absurd legal.1 busy
    · exact absurd legal busy
    all_goals exact legal
  | freed i p w calm here gone => exact loc

end Steps

end OsLabs.Files
