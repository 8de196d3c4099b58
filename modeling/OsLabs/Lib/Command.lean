namespace Command

variable {ε σ α β : Type}

/-- Started in `s`, the command either returns with `Q` or stops with an error allowed by `E`. -/
def Yields (c : EStateM ε σ α) (s : σ) (Q : α → σ → Prop) (E : ε → σ → Prop) : Prop :=
  match c s with
  | .ok a s' => Q a s'
  | .error e s' => E e s'

variable {c : EStateM ε σ α} {f : α → EStateM ε σ β} {s : σ} {E F : ε → σ → Prop}

theorem yields_pure {a : α} {Q : α → σ → Prop} (post : Q a s) : Yields (pure a) s Q E := post

theorem yields_throw {e : ε} {Q : α → σ → Prop} (post : E e s) : Yields (throw e) s Q E := post

theorem yields_bind {P : α → σ → Prop} {Q : β → σ → Prop} (first : Yields c s P E)
    (next : ∀ a s', P a s' → Yields (f a) s' Q E) : Yields (c >>= f) s Q E := by
  unfold Yields at *
  change match EStateM.bind c f s with
    | .ok b s' => Q b s'
    | .error e s' => E e s'
  unfold EStateM.bind
  cases run : c s with
  | ok a s' =>
    rw [run] at first
    exact next a s' first
  | error e s' =>
    rw [run] at first
    exact first

/-- The first two commands of a sequence are run as one. -/
theorem yields_bind₂ {γ : Type} {g : α → EStateM ε σ γ} {h : γ → EStateM ε σ β} {P : γ → σ → Prop} {Q : β → σ → Prop}
    (first : Yields (c >>= g) s P E) (next : ∀ a s', P a s' → Yields (h a) s' Q E) :
    Yields (c >>= fun a => g a >>= h) s Q E := by
  rw [← bind_assoc]
  exact yields_bind first next

/-- A command whose result is known is run first. -/
theorem yields_step {a : α} {t : σ} {Q : β → σ → Prop} (result : c s = .ok a t) (next : Yields (f a) t Q E) :
    Yields (c >>= f) s Q E := by
  refine yields_bind (P := fun b u => b = a ∧ u = t) ?_ fun b u same => ?_
  · unfold Yields
    rw [result]
    exact ⟨rfl, rfl⟩
  · rw [same.1, same.2]
    exact next

theorem yields_ok {a : α} {t : σ} {Q : α → σ → Prop} (result : c s = .ok a t) (post : Q a t) : Yields c s Q E := by
  unfold Yields
  rw [result]
  exact post

theorem yields_ite {p : Prop} [Decidable p] {d : EStateM ε σ α} {Q : α → σ → Prop} (yes : p → Yields c s Q E)
    (no : ¬ p → Yields d s Q E) : Yields (if p then c else d) s Q E := by
  by_cases holds : p
  · rw [if_pos holds]
    exact yes holds
  · rw [if_neg holds]
    exact no holds

/-- Nothing is asked of the command. -/
theorem yields_all {Q : α → σ → Prop} (returns : ∀ a t, Q a t) (stops : ∀ e t, E e t) : Yields c s Q E := by
  unfold Yields
  cases c s with
  | ok a t => exact returns a t
  | error e t => exact stops e t

theorem Yields.mono {P Q : α → σ → Prop} (run : Yields c s P E) (weaken : ∀ a s', P a s' → Q a s')
    (errors : ∀ e s', E e s' → F e s') : Yields c s Q F := by
  unfold Yields at *
  cases result : c s with
  | ok a s' =>
    rw [result] at run
    exact weaken a s' run
  | error e s' =>
    rw [result] at run
    exact errors e s' run

theorem Yields.imp {P Q : α → σ → Prop} (run : Yields c s P E) (weaken : ∀ a s', P a s' → Q a s') : Yields c s Q E :=
  run.mono weaken fun _ _ allowed => allowed

theorem Yields.and {P Q : α → σ → Prop} (first : Yields c s P E) (second : Yields c s Q F) :
    Yields c s (fun a s' => P a s' ∧ Q a s') fun e s' => E e s' ∧ F e s' := by
  unfold Yields at *
  cases result : c s with
  | ok a s' =>
    rw [result] at first second
    exact ⟨first, second⟩
  | error e s' =>
    rw [result] at first second
    exact ⟨first, second⟩

/-- What a finished command has returned satisfies its postcondition. -/
theorem Yields.of_ok {a : α} {s' : σ} {Q : α → σ → Prop} (run : Yields c s Q E) (result : c s = .ok a s') :
    Q a s' := by
  unfold Yields at run
  rwa [result] at run

/-- A command whose errors are all excluded returns. -/
theorem Yields.returns {Q : α → σ → Prop} (run : Yields c s Q fun _ _ => False) :
    ∃ a s', c s = .ok a s' ∧ Q a s' := by
  unfold Yields at run
  cases result : c s with
  | ok a s' =>
    rw [result] at run
    exact ⟨a, s', rfl, run⟩
  | error e s' =>
    rw [result] at run
    exact run.elim

/-- A sequence that has returned is taken apart. -/
theorem bind_ok {b : β} {t : σ} (run : (c >>= f) s = .ok b t) : ∃ a u, c s = .ok a u ∧ f a u = .ok b t := by
  change EStateM.bind c f s = .ok b t at run
  unfold EStateM.bind at run
  cases first : c s with
  | ok a u =>
    rw [first] at run
    exact ⟨a, u, rfl, run⟩
  | error e u =>
    rw [first] at run
    cases run

/-- The state a command ends in, whether it returns or stops with an error. -/
def final : EStateM.Result ε σ α → σ
  | .ok _ s' => s'
  | .error _ s' => s'

theorem Yields.final {I : σ → Prop} (run : Yields c s (fun _ t => I t) fun _ t => I t) : I (final (c s)) := by
  unfold Yields at run
  cases result : c s with
  | ok a s' =>
    rw [result] at run
    exact run
  | error e s' =>
    rw [result] at run
    exact run

/-- A command that ends outside the states in which it may stop has returned. -/
theorem Yields.completes {I : σ → Prop} {Q : α → σ → Prop} (run : Yields c s Q fun _ t => I t)
    (outside : ¬ I (Command.final (c s))) : ∃ a t, c s = .ok a t ∧ Q a t := by
  unfold Yields at run
  cases result : c s with
  | ok a t =>
    rw [result] at run
    exact ⟨a, t, rfl, run⟩
  | error e t =>
    rw [result] at run outside
    exact absurd run outside

-- Goals about long commands are never to be evaluated.
attribute [irreducible] Yields

/-- The command never leaves the states in `I`, even if it stops with an error. -/
def Always (I : σ → Prop) (c : EStateM ε σ α) : Prop := ∀ s, I s → Yields c s (fun _ t => I t) fun _ t => I t

section Always
variable {I : σ → Prop}

theorem always_pure {a : α} : Always I (pure a : EStateM ε σ α) := fun _ start => yields_pure start

theorem always_throw {e : ε} : Always I (throw e : EStateM ε σ α) := fun _ start => yields_throw start

theorem always_get {f : σ → EStateM ε σ β} (next : ∀ s, I s → Always I (f s)) : Always I (get >>= f) :=
  fun s start => yields_step rfl (next s start s start)

theorem always_set {t : σ} (kept : I t) : Always I (set t : EStateM ε σ PUnit) := fun _ _ => yields_ok rfl kept

theorem always_modify {g : σ → σ} (kept : ∀ s, I s → I (g s)) : Always I (modify g : EStateM ε σ PUnit) :=
  fun s start => yields_ok rfl (kept s start)

theorem always_bind (first : Always I c) (next : ∀ a, Always I (f a)) : Always I (c >>= f) :=
  fun s start => yields_bind (first s start) fun a t reached => next a t reached

theorem always_ite {p : Prop} [Decidable p] {d : EStateM ε σ α} (yes : p → Always I c) (no : ¬ p → Always I d) :
    Always I (if p then c else d) :=
  fun s start => yields_ite (fun holds => yes holds s start) fun fails => no fails s start

end Always

end Command
