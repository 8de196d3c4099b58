import Mathlib.Logic.Relation
import OsLabs.Fs.BufferRing
import OsLabs.Lib.Interleaving
import OsLabs.Lib.Totals

namespace OsLabs.Bio
open Fs (Block)
open Interleaving Totals

variable {ι : Type} {buf buf' : Fin NBUF → Buf} {use : ι → Use} {lock : Fin NBUF → Option ι}
  {disk stored : Nat → Nat → Block} {u v : ι} {phase phase' : Phase} {b d : Fin NBUF} {dev blockno : Nat}

/-- What a use adds to the counter of a buffer. -/
def Use.count (b : Fin NBUF) (use : Use) : Nat := if use.counted = some b then 1 else 0

@[simp] theorem Use.count_idle (b : Fin NBUF) : Use.idle.count b = 0 := rfl

@[simp] theorem Use.count_self (phase : Phase) (b : Fin NBUF) (dev blockno : Nat) :
    (Use.busy phase b dev blockno).count b = 1 := if_pos rfl

theorem Use.count_other (phase : Phase) (dev blockno : Nat) (other : d ≠ b) :
    (Use.busy phase b dev blockno).count d = 0 := if_neg fun same => other (Option.some.inj same).symm

/-- The buffer stands for this block. -/
def At (buf : Buf) (dev blockno : Nat) : Prop := buf.dev = dev ∧ buf.blockno = blockno

/-- The counters count the uses, each use finds its block, and no block has two buffers. -/
structure Refs [Fintype ι] (buf : Fin NBUF → Buf) (use : ι → Use) : Prop where
  counts : ∀ b, (buf b).refcnt = ∑ u, (use u).count b
  named : ∀ u phase b dev blockno, use u = .busy phase b dev blockno → dev ≠ 0 ∧ At (buf b) dev blockno
  once : ∀ b d dev blockno, dev ≠ 0 → At (buf b) dev blockno → At (buf d) dev blockno → b = d

/-- The sleep lock of a buffer is held by the use that says so. -/
def Locks (lock : Fin NBUF → Option ι) (use : ι → Use) : Prop :=
  ∀ b u, lock b = some u ↔ ∃ phase dev blockno, use u = .busy phase b dev blockno ∧ phase.Holds

/-- Valid buffers hold what was last stored, and the disk does where no buffer is dirty or modified. -/
structure Contents (buf : Fin NBUF → Buf) (disk stored : Nat → Nat → Block) (use : ι → Use) : Prop where
  read : ∀ u phase b dev blockno, use u = .busy phase b dev blockno → phase = .reading ∨ phase = .modified →
    (buf b).valid = true
  kept : ∀ b, (buf b).valid = true → (buf b).dev ≠ 0 ∧ (buf b).data = stored (buf b).dev (buf b).blockno
  dirty : ∀ b, (buf b).dirty = true → (buf b).valid = true
  flushed : ∀ dev blockno, dev ≠ 0 → disk dev blockno = stored dev blockno ∨
    ∃ b, At (buf b) dev blockno ∧ ((buf b).dirty = true ∨ ∃ u, use u = .busy .modified b dev blockno)

structure Inv [Fintype ι] (s : State ι) : Prop where
  ordered : ∃ order, Ordered s.cache s.stamp order
  past : ∀ b, s.stamp b < s.clock
  refs : Refs s.cache.buf s.use
  locks : Locks s.lock s.use
  contents : Contents s.cache.buf s.disk s.stored s.use

/-- A buffer is replaced by one with the same field. -/
theorem update_keeps {β : Type} (field : Buf → β) {new : Buf} (same : field new = field (buf b)) (d : Fin NBUF) :
    field (Function.update buf b new d) = field (buf d) := by
  by_cases here : d = b
  · rw [here, Function.update_self, same]
  · rw [Function.update_of_ne here]

namespace Refs
variable [Fintype ι]

/-- A buffer without references is named by no use. -/
theorem unnamed (refs : Refs buf use) (none : (buf b).refcnt = 0) : use u ≠ .busy phase b dev blockno := by
  intro here
  have zero := sum_zero (f := Use.count b) ((refs.counts b).symm.trans none) u
  rw [here] at zero
  simp [Use.count, Use.counted] at zero

variable [DecidableEq ι]

/-- A use goes on with its buffer. -/
theorem move (refs : Refs buf use) (here : use u = .busy phase b dev blockno)
    (same : ∀ d, (buf' d).dev = (buf d).dev ∧ (buf' d).blockno = (buf d).blockno ∧ (buf' d).refcnt = (buf d).refcnt) :
    Refs buf' (Function.update use u (.busy phase' b dev blockno)) := by
  have ids : ∀ d dev blockno, At (buf' d) dev blockno ↔ At (buf d) dev blockno := fun d dev blockno => by
    rw [At, At, (same d).1, (same d).2.1]
  refine ⟨fun d => ?_, fun v phase d dev blockno seen => ?_, fun d e dev blockno real first second => ?_⟩
  · have total := sum_moved (Use.count d) use u (.busy phase' b dev blockno)
    rw [here] at total
    rw [(same d).2.2, refs.counts d]
    exact (Nat.add_right_cancel total).symm
  · rw [ids]
    rcases moved_to seen with ⟨_, is⟩ | ⟨_, is⟩
    · cases is
      exact refs.named u _ _ _ _ here
    · exact refs.named v _ _ _ _ is
  · exact refs.once d e dev blockno real ((ids ..).mp first) ((ids ..).mp second)

/-- A use takes a reference to a buffer that stands, or now stands, for its block. -/
theorem enter {new : Buf} (refs : Refs buf use) (here : use u = .idle) (real : dev ≠ 0) (holds : At new dev blockno)
    (count : new.refcnt = (buf b).refcnt + 1)
    (stays : ∀ v phase dev blockno, use v = .busy phase b dev blockno → At new dev blockno)
    (alone : ∀ d, d ≠ b → ¬ At (buf d) dev blockno) :
    Refs (Function.update buf b new) (Function.update use u (.busy .queued b dev blockno)) := by
  have only : ∀ d, d ≠ b → ∀ dev' blockno', At new dev' blockno' → ¬ At (buf d) dev' blockno' := by
    rintro d other _ _ ⟨rfl, rfl⟩ held
    exact alone d other ⟨held.1.trans holds.1, held.2.trans holds.2⟩
  refine ⟨fun d => ?_, fun v phase d dev' blockno' seen => ?_, fun d e dev' blockno' real first second => ?_⟩
  · have total := sum_moved (Use.count d) use u (.busy .queued b dev blockno)
    rw [here, Use.count_idle] at total
    by_cases same : d = b
    · rw [same, Use.count_self] at total
      rw [same, Function.update_self, count, refs.counts b]
      exact total.symm
    · rw [Use.count_other _ _ _ same] at total
      rw [Function.update_of_ne same, refs.counts d]
      exact total.symm
  · rcases moved_to seen with ⟨_, is⟩ | ⟨_, is⟩
    · cases is
      rw [Function.update_self]
      exact ⟨real, holds⟩
    · obtain ⟨real', held⟩ := refs.named v _ _ _ _ is
      refine ⟨real', ?_⟩
      by_cases same : d = b
      · subst same
        rw [Function.update_self]
        exact stays v _ _ _ is
      · rwa [Function.update_of_ne same]
  · by_cases firstHere : d = b <;> by_cases secondHere : e = b
    · rw [firstHere, secondHere]
    · rw [firstHere, Function.update_self] at first
      rw [Function.update_of_ne secondHere] at second
      exact absurd second (only e secondHere _ _ first)
    · rw [secondHere, Function.update_self] at second
      rw [Function.update_of_ne firstHere] at first
      exact absurd first (only d firstHere _ _ second)
    · rw [Function.update_of_ne firstHere] at first
      rw [Function.update_of_ne secondHere] at second
      exact refs.once d e _ _ real first second

/-- A use gives its reference back. -/
theorem leave (refs : Refs buf use) (here : use u = .busy phase b dev blockno)
    (same : ∀ d, (buf' d).dev = (buf d).dev ∧ (buf' d).blockno = (buf d).blockno)
    (less : (buf' b).refcnt = (buf b).refcnt - 1) (others : ∀ d, d ≠ b → (buf' d).refcnt = (buf d).refcnt) :
    Refs buf' (Function.update use u .idle) := by
  have ids : ∀ d dev blockno, At (buf' d) dev blockno ↔ At (buf d) dev blockno := fun d dev blockno => by
    rw [At, At, (same d).1, (same d).2]
  refine ⟨fun d => ?_, fun v phase d dev' blockno' seen => ?_, fun d e dev blockno real first second => ?_⟩
  · have total := sum_moved (Use.count d) use u .idle
    rw [here, Use.count_idle] at total
    by_cases this : d = b
    · rw [this, Use.count_self] at total
      rw [this, less, refs.counts b]
      omega
    · rw [Use.count_other _ _ _ this] at total
      rw [others d this, refs.counts d]
      exact total.symm
  · rw [ids]
    rcases moved_to seen with ⟨_, is⟩ | ⟨_, is⟩
    · cases is
    · exact refs.named v _ _ _ _ is
  · exact refs.once d e dev blockno real ((ids ..).mp first) ((ids ..).mp second)

end Refs

namespace Locks
variable [DecidableEq ι]

/-- A use moves without touching the lock. -/
theorem move {x : Use} (locks : Locks lock use)
    (same : ∀ b, (∃ phase dev blockno, x = .busy phase b dev blockno ∧ phase.Holds) ↔
      ∃ phase dev blockno, use u = .busy phase b dev blockno ∧ phase.Holds) :
    Locks lock (Function.update use u x) := by
  intro b v
  rw [locks b v]
  by_cases this : v = u
  · rw [this, Function.update_self, same]
  · rw [Function.update_of_ne this]

theorem acquire (locks : Locks lock use) (free : lock b = none) (here : use u = .busy phase b dev blockno)
    (takes : phase'.Holds) :
    Locks (Function.update lock b (some u)) (Function.update use u (.busy phase' b dev blockno)) := by
  intro d v
  by_cases this : v = u
  · subst this
    rw [Function.update_self]
    by_cases same : d = b
    · subst same
      rw [Function.update_self]
      exact ⟨fun _ => ⟨_, _, _, rfl, takes⟩, fun _ => rfl⟩
    · rw [Function.update_of_ne same, locks d v]
      constructor
      · rintro ⟨_, _, _, is, holds⟩
        rw [here] at is
        cases is
        exact absurd rfl same
      · rintro ⟨_, _, _, is, _⟩
        cases is
        exact absurd rfl same
  · rw [Function.update_of_ne this]
    by_cases same : d = b
    · subst same
      rw [Function.update_self]
      constructor
      · exact fun is => absurd (Option.some.inj is).symm this
      · intro holds
        rw [(locks d v).mpr holds] at free
        cases free
    · rw [Function.update_of_ne same, locks d v]

theorem release (locks : Locks lock use) (here : use u = .busy phase b dev blockno) (held : phase.Holds)
    (without : ¬ phase'.Holds) :
    Locks (Function.update lock b none) (Function.update use u (.busy phase' b dev blockno)) := by
  intro d v
  by_cases this : v = u
  · subst this
    rw [Function.update_self]
    constructor
    · intro is
      by_cases same : d = b
      · rw [same, Function.update_self] at is
        cases is
      · rw [Function.update_of_ne same, locks d v, here] at is
        obtain ⟨_, _, _, is, _⟩ := is
        cases is
        exact absurd rfl same
    · rintro ⟨_, _, _, is, holds⟩
      cases is
      exact absurd holds without
  · rw [Function.update_of_ne this]
    by_cases same : d = b
    · subst same
      rw [Function.update_self]
      refine ⟨nofun, fun holds => ?_⟩
      have other := (locks d v).mpr holds
      rw [(locks d u).mpr ⟨_, _, _, here, held⟩] at other
      exact absurd (Option.some.inj other).symm this
    · rw [Function.update_of_ne same, locks d v]

end Locks

theorem put_same (data : Block) : put dev blockno data disk dev blockno = data := by
  simp [put]

theorem put_other {dev' blockno' : Nat} (data : Block) (other : ¬ (dev' = dev ∧ blockno' = blockno)) :
    put dev blockno data disk dev' blockno' = disk dev' blockno' := by
  by_cases same : dev' = dev
  · subst same
    simp [put, Function.update_of_ne fun same => other ⟨rfl, same⟩]
  · simp [put, Function.update_of_ne same]

namespace Contents
variable [DecidableEq ι]

/-- A use moves, between phases in which it neither reads nor has modified its buffer, or lets a written buffer go. -/
theorem move {x : Use} (contents : Contents buf disk stored use)
    (same : ∀ d, (buf' d).dev = (buf d).dev ∧ (buf' d).blockno = (buf d).blockno ∧ (buf' d).valid = (buf d).valid ∧
      (buf' d).dirty = (buf d).dirty ∧ (buf' d).data = (buf d).data)
    (before : ∀ b dev blockno, use u ≠ .busy .modified b dev blockno)
    (after : ∀ phase b dev blockno, x = .busy phase b dev blockno → phase = .reading ∨ phase = .modified →
      (buf b).valid = true) :
    Contents buf' disk stored (Function.update use u x) := by
  refine ⟨fun v phase d dev blockno seen reads => ?_, fun d valid => ?_, fun d dirty => ?_,
    fun dev blockno real => ?_⟩
  · rw [(same d).2.2.1]
    rcases moved_to seen with ⟨_, is⟩ | ⟨_, is⟩
    · exact after phase d dev blockno is reads
    · exact contents.read v phase d dev blockno is reads
  · obtain ⟨dev, blockno, valid', -, data⟩ := same d
    rw [dev, blockno, data]
    exact contents.kept d (valid' ▸ valid)
  · rw [(same d).2.2.1]
    exact contents.dirty d ((same d).2.2.2.1 ▸ dirty)
  · refine (contents.flushed dev blockno real).imp id ?_
    rintro ⟨d, held, pending⟩
    refine ⟨d, ?_, pending.imp (fun dirty => (same d).2.2.2.1.trans dirty) ?_⟩
    · rw [At, (same d).1, (same d).2.1]
      exact held
    · rintro ⟨v, is⟩
      have other : v ≠ u := fun this => before _ _ _ (this ▸ is)
      exact ⟨v, by rw [Function.update_of_ne other, is]⟩

/-- `bget` recycles a buffer that is neither in use nor dirty. -/
theorem recycle [Fintype ι] {data : Block} (contents : Contents buf disk stored use) (refs : Refs buf use)
    (here : use u = .idle) (none : (buf b).refcnt = 0) (clean : (buf b).dirty = false) :
    Contents (Function.update buf b ⟨false, false, dev, blockno, 1, data⟩) disk stored
      (Function.update use u (.busy .queued b dev blockno)) := by
  refine ⟨fun v phase d dev blockno seen reads => ?_, fun d valid => ?_, fun d dirty => ?_,
    fun dev' blockno' real => ?_⟩
  · rcases moved_to seen with ⟨_, is⟩ | ⟨_, is⟩
    · cases is
      rcases reads with is | is <;> cases is
    · have other : d ≠ b := fun same => refs.unnamed none (same ▸ is)
      rw [Function.update_of_ne other]
      exact contents.read v phase d dev blockno is reads
  · by_cases same : d = b
    · rw [same, Function.update_self] at valid
      cases valid
    · rw [Function.update_of_ne same] at valid ⊢
      exact contents.kept d valid
  · by_cases same : d = b
    · rw [same, Function.update_self] at dirty
      cases dirty
    · rw [Function.update_of_ne same] at dirty ⊢
      exact contents.dirty d dirty
  · refine (contents.flushed dev' blockno' real).imp id ?_
    rintro ⟨d, held, pending⟩
    have other : d ≠ b := by
      rintro rfl
      rcases pending with dirty | ⟨v, is⟩
      · rw [clean] at dirty
        cases dirty
      · exact refs.unnamed none is
    refine ⟨d, by rwa [Function.update_of_ne other], ?_⟩
    rw [Function.update_of_ne other]
    refine pending.imp id ?_
    rintro ⟨v, is⟩
    have away : v ≠ u := by
      rintro rfl
      rw [here] at is
      cases is
    exact ⟨v, by rw [Function.update_of_ne away, is]⟩

/-- A use changes the buffer that it has locked. -/
theorem change [Fintype ι] {new : Buf} {disk' stored' : Nat → Nat → Block} (contents : Contents buf disk stored use)
    (refs : Refs buf use) (here : use u = .busy phase b dev blockno) (same : At new dev blockno)
    (valid : new.valid = true) (data : new.data = stored' dev blockno)
    (elsewhere : ∀ dev' blockno', ¬ (dev' = dev ∧ blockno' = blockno) →
      disk' dev' blockno' = disk dev' blockno' ∧ stored' dev' blockno' = stored dev' blockno')
    (pending : disk' dev blockno = stored' dev blockno ∨ new.dirty = true ∨ phase' = .modified) :
    Contents (Function.update buf b new) disk' stored' (Function.update use u (.busy phase' b dev blockno)) := by
  obtain ⟨real, held⟩ := refs.named u _ _ _ _ here
  have apart : ∀ d, d ≠ b → (buf d).dev ≠ 0 → ¬ ((buf d).dev = dev ∧ (buf d).blockno = blockno) :=
    fun d other real is => other (refs.once d b _ _ (is.1 ▸ real) is held)
  refine ⟨fun v phase d dev blockno seen reads => ?_, fun d is => ?_, fun d dirty => ?_,
    fun dev' blockno' real' => ?_⟩
  · by_cases this : d = b
    · rw [this, Function.update_self, valid]
    · rw [Function.update_of_ne this]
      rcases moved_to seen with ⟨_, is⟩ | ⟨_, is⟩
      · cases is
        exact absurd rfl this
      · exact contents.read v phase d dev blockno is reads
  · by_cases this : d = b
    · rw [this, Function.update_self, same.1, same.2, data]
      exact ⟨real, rfl⟩
    · rw [Function.update_of_ne this] at is ⊢
      obtain ⟨real', kept⟩ := contents.kept d is
      rw [(elsewhere _ _ (apart d this real')).2]
      exact ⟨real', kept⟩
  · by_cases this : d = b
    · rw [this, Function.update_self, valid]
    · rw [Function.update_of_ne this] at dirty ⊢
      exact contents.dirty d dirty
  · by_cases this : dev' = dev ∧ blockno' = blockno
    · obtain ⟨rfl, rfl⟩ := this
      rcases pending with done | dirty | modified
      · exact .inl done
      · exact .inr ⟨b, by rwa [Function.update_self], .inl (by rwa [Function.update_self])⟩
      · exact .inr ⟨b, by rwa [Function.update_self], .inr ⟨u, by rw [Function.update_self, modified]⟩⟩
    · rw [(elsewhere _ _ this).1, (elsewhere _ _ this).2]
      refine (contents.flushed dev' blockno' real').imp id ?_
      rintro ⟨d, inD, old⟩
      have other : d ≠ b := fun is => this ⟨inD.1.symm.trans (is ▸ held.1), inD.2.symm.trans (is ▸ held.2)⟩
      refine ⟨d, by rwa [Function.update_of_ne other], ?_⟩
      rw [Function.update_of_ne other]
      refine old.imp id ?_
      rintro ⟨v, is⟩
      have away : v ≠ u := by
        rintro rfl
        rw [here] at is
        cases is
        exact other rfl
      exact ⟨v, by rw [Function.update_of_ne away, is]⟩

end Contents

section Runs
variable [Fintype ι] [DecidableEq ι] {s t : State ι}

omit [DecidableEq ι] in
theorem Inv.boot : Inv (State.boot (ι := ι) disk) where
  ordered := ⟨_, binit_ordered⟩
  past b := b.isLt
  refs := ⟨fun b => by simp [State.boot, binit], nofun, fun b d dev blockno real held => absurd held.1.symm real⟩
  locks b u := ⟨nofun, nofun⟩
  contents := ⟨nofun, nofun, nofun, fun _ _ _ => .inl rfl⟩

theorem Inv.step (inv : Inv s) (step : Step s t) : Inv t := by
  obtain ⟨⟨order, ordered⟩, past, refs, locks, contents⟩ := inv
  cases step with
  | bget u dev blockno b cache here real found =>
    have idle : Locks s.lock (Function.update s.use u (.busy .queued b dev blockno)) := locks.move fun d => by
      rw [here]
      simp [Phase.Holds]
    have spec := ordered.bget dev blockno
    rw [found] at spec
    cases spec with
    | hit _ holds =>
      refine ⟨⟨order, ordered.setBuf⟩, past, refs.enter here real holds rfl
        (fun v _ _ _ is => (refs.named v _ _ _ _ is).2) fun d other is => other (refs.once d b _ _ real is holds),
        idle, contents.move (fun d => ⟨update_keeps Buf.dev (by rfl) d, update_keeps Buf.blockno (by rfl) d,
          update_keeps Buf.valid (by rfl) d, update_keeps Buf.dirty (by rfl) d,
            update_keeps Buf.data (by rfl) d⟩) (by simp [here]) ?_⟩
      rintro _ _ _ _ ⟨⟩ (is | is) <;> cases is
    | recycle _ missing unused oldest =>
      exact ⟨⟨order, ordered.setBuf⟩, past, refs.enter here real ⟨rfl, rfl⟩ (by rw [unused.1])
        (fun v _ _ _ is => absurd is (refs.unnamed unused.1)) fun d _ => missing d, idle,
        contents.recycle refs here unused.1 unused.2⟩
  | acquire u b dev blockno here free =>
    refine ⟨⟨order, ordered⟩, past, refs.move here (fun _ => ⟨rfl, rfl, rfl⟩), locks.acquire free here trivial,
      contents.move (fun _ => ⟨rfl, rfl, rfl, rfl, rfl⟩) (by simp [here]) ?_⟩
    rintro _ _ _ _ ⟨⟩ (is | is) <;> cases is
  | bread u b dev blockno here =>
    have held : Locks s.lock (Function.update s.use u (.busy .reading b dev blockno)) := locks.move fun d => by
      rw [here]
      simp [Phase.Holds]
    by_cases valid : (s.cache.buf b).valid = true
    · rw [if_pos valid]
      refine ⟨⟨order, ordered⟩, past, refs.move here (fun _ => ⟨rfl, rfl, rfl⟩), held,
        contents.move (fun _ => ⟨rfl, rfl, rfl, rfl, rfl⟩) (by simp [here]) ?_⟩
      rintro _ _ _ _ ⟨⟩ -
      exact valid
    · rw [if_neg valid]
      obtain ⟨real, found⟩ := refs.named u _ _ _ _ here
      have current : s.disk dev blockno = s.stored dev blockno := by
        refine (contents.flushed dev blockno real).resolve_right ?_
        rintro ⟨d, other, pending⟩
        cases refs.once d b _ _ real other found
        rcases pending with dirty | ⟨v, is⟩
        · exact valid (contents.dirty _ dirty)
        · exact valid (contents.read v _ _ _ _ is (.inr rfl))
      refine ⟨⟨order, ordered.setBuf⟩, past, refs.move here (fun d =>
        ⟨update_keeps Buf.dev (by rfl) d, update_keeps Buf.blockno (by rfl) d,
          update_keeps Buf.refcnt (by rfl) d⟩), held,
        contents.change refs here found rfl ?_ (fun _ _ _ => ⟨rfl, rfl⟩) (.inl current)⟩
      exact (congrArg₂ s.disk found.1 found.2).trans current
  | modify u phase b dev blockno data here read =>
    obtain ⟨real, found⟩ := refs.named u _ _ _ _ here
    refine ⟨⟨order, ordered.setBuf⟩, past, refs.move here (fun d =>
      ⟨update_keeps Buf.dev (by rfl) d, update_keeps Buf.blockno (by rfl) d,
        update_keeps Buf.refcnt (by rfl) d⟩), locks.move fun d => ?_,
      contents.change refs here found (contents.read u _ _ _ _ here read) (put_same data).symm
        (fun _ _ other => ⟨rfl, put_other data other⟩) (.inr (.inr rfl))⟩
    · rw [here]
      rcases read with rfl | rfl <;> simp [Phase.Holds]
  | bwrite u phase b dev blockno here read =>
    obtain ⟨real, found⟩ := refs.named u _ _ _ _ here
    obtain ⟨-, current⟩ := contents.kept b (contents.read u _ _ _ _ here read)
    rw [found.1, found.2] at current
    refine ⟨⟨order, ordered.setBuf⟩, past, refs.move here (fun d =>
      ⟨update_keeps Buf.dev (by rfl) d, update_keeps Buf.blockno (by rfl) d,
        update_keeps Buf.refcnt (by rfl) d⟩), locks.move fun d => ?_, ?_⟩
    · rw [here]
      rcases read with rfl | rfl <;> simp [Phase.Holds]
    · refine contents.change refs here found rfl current (fun dev' blockno' other => ⟨?_, rfl⟩) (.inl ?_)
      · simp only [State.setUse, State.bwrite, found.1, found.2]
        exact put_other _ other
      · simp only [State.setUse, State.bwrite, found.1, found.2]
        rw [put_same]
        exact current
  | mark u phase b dev blockno here read =>
    obtain ⟨real, found⟩ := refs.named u _ _ _ _ here
    have valid := contents.read u _ _ _ _ here read
    obtain ⟨-, current⟩ := contents.kept b valid
    rw [found.1, found.2] at current
    refine ⟨⟨order, ordered.setBuf⟩, past, refs.move here (fun d =>
      ⟨update_keeps Buf.dev (by rfl) d, update_keeps Buf.blockno (by rfl) d,
        update_keeps Buf.refcnt (by rfl) d⟩), locks.move fun d => ?_,
      contents.change refs here found valid current (fun _ _ _ => ⟨rfl, rfl⟩) (.inr (.inl rfl))⟩
    · rw [here]
      rcases read with rfl | rfl <;> simp [Phase.Holds]
  | release u b dev blockno here =>
    refine ⟨⟨order, ordered⟩, past, refs.move here (fun _ => ⟨rfl, rfl, rfl⟩), locks.release here trivial id,
      contents.move (fun _ => ⟨rfl, rfl, rfl, rfl, rfl⟩) (by simp [here]) ?_⟩
    rintro _ _ _ _ ⟨⟩ (is | is) <;> cases is
  | brelse u b dev blockno here =>
    have bufs : (brelse b s.cache).buf =
        Function.update s.cache.buf b { s.cache.buf b with refcnt := (s.cache.buf b).refcnt - 1 } := by
      unfold brelse
      dsimp only
      split <;> rfl
    refine ⟨ordered.brelse past, fun d => ?_, refs.leave here (fun d => ?_) ?_ fun d other => ?_,
      locks.move fun d => ?_,
      contents.move (fun d => ?_) (by simp [here]) nofun⟩
    · dsimp only [State.setUse]
      split
      · by_cases same : d = b
        · rw [same, Function.update_self]
          exact Nat.lt_succ_self _
        · rw [Function.update_of_ne same]
          exact Nat.lt_succ_of_lt (past d)
      · exact Nat.lt_succ_of_lt (past d)
    · simp only [State.setUse, bufs]
      exact ⟨update_keeps Buf.dev (by rfl) d, update_keeps Buf.blockno (by rfl) d⟩
    · simp [State.setUse, bufs]
    · simp [State.setUse, bufs, Function.update_of_ne other]
    · rw [here]
      simp [Phase.Holds]
    · simp only [State.setUse, bufs]
      exact ⟨update_keeps Buf.dev (by rfl) d, update_keeps Buf.blockno (by rfl) d, update_keeps Buf.valid (by rfl) d,
        update_keeps Buf.dirty (by rfl) d, update_keeps Buf.data (by rfl) d⟩

theorem Inv.run (run : Relation.ReflTransGen Step (State.boot disk) s) : Inv s :=
  run_keeps run .boot fun _ _ inv step => inv.step step

/-- A use that has read its block finds what was last stored there through any buffer, and no other use has that
block locked; where no buffer is dirty or modified the disk holds it too. -/
theorem bread_transparent (run : Relation.ReflTransGen Step (State.boot disk) s) :
    (∀ u phase b dev blockno, s.use u = .busy phase b dev blockno → phase = .reading ∨ phase = .modified →
      (s.cache.buf b).data = s.stored dev blockno ∧
        ∀ v phase' d, s.use v = .busy phase' d dev blockno → phase'.Holds → v = u) ∧
      ∀ dev blockno, dev ≠ 0 → (∀ b, At (s.cache.buf b) dev blockno → (s.cache.buf b).dirty = false ∧
        ∀ u, s.use u ≠ .busy .modified b dev blockno) → s.disk dev blockno = s.stored dev blockno := by
  obtain ⟨-, -, refs, locks, contents⟩ := Inv.run run
  refine ⟨fun u phase b dev blockno here reads => ?_, fun dev blockno real clean => ?_⟩
  · obtain ⟨real, held⟩ := refs.named u _ _ _ _ here
    obtain ⟨-, current⟩ := contents.kept b (contents.read u _ _ _ _ here reads)
    rw [held.1, held.2] at current
    refine ⟨current, fun v phase' d there holds => ?_⟩
    obtain ⟨-, held'⟩ := refs.named v _ _ _ _ there
    cases refs.once d b _ _ real held' held
    have mine := (locks _ u).mpr ⟨_, _, _, here, by rcases reads with rfl | rfl <;> trivial⟩
    rw [(locks _ v).mpr ⟨_, _, _, there, holds⟩] at mine
    exact Option.some.inj mine
  · refine (contents.flushed dev blockno real).resolve_right ?_
    rintro ⟨b, held, dirty | ⟨u, modified⟩⟩
    · rw [(clean b held).1] at dirty
      cases dirty
    · exact (clean b held).2 u modified

omit [Fintype ι] in
/-- A first use has read a block into the cache. -/
theorem first_use (disk : Nat → Nat → Block) (u : ι) (blockno : Nat) (real : dev ≠ 0) :
    ∃ s : State ι, Relation.ReflTransGen Step (State.boot disk) s ∧
    ∃ b, s.use u = .busy .reading b dev blockno := by
  obtain ⟨b, cache, found⟩ : ∃ b cache, bget dev blockno binit = some (b, cache) := by
    have spec := binit_ordered.bget dev blockno
    cases result : bget dev blockno binit with
    | some pair => exact ⟨pair.1, pair.2, rfl⟩
    | none =>
      rw [result] at spec
      cases spec with
      | panics missing full => exact absurd ⟨rfl, rfl⟩ (full ⟨0, by decide⟩)
  have first := Relation.ReflTransGen.single (Step.bget (State.boot disk) u dev blockno b cache rfl real found)
  have second := first.tail (.acquire _ u b dev blockno (Function.update_self ..) rfl)
  exact ⟨_, second.tail (.bread _ u b dev blockno (Function.update_self ..)), b, Function.update_self ..⟩

theorem bread_transparent_first : ∃ s : State Bool, (∃ b, s.use true = .busy .reading b 1 7) ∧
    (∀ u phase b dev blockno, s.use u = .busy phase b dev blockno → phase = .reading ∨ phase = .modified →
      (s.cache.buf b).data = s.stored dev blockno ∧
        ∀ v phase' d, s.use v = .busy phase' d dev blockno → phase'.Holds → v = u) ∧
      ∀ dev blockno, dev ≠ 0 → (∀ b, At (s.cache.buf b) dev blockno → (s.cache.buf b).dirty = false ∧
        ∀ u, s.use u ≠ .busy .modified b dev blockno) → s.disk dev blockno = s.stored dev blockno := by
  obtain ⟨s, run, there⟩ := first_use (fun _ _ _ => 0) true 7 Nat.one_ne_zero
  exact ⟨s, there, bread_transparent run⟩

/-- In every reachable state `bget`'s loops end. It returns the block's buffer, the only one, or recycles, of the
buffers that no use refers to and that are not dirty, the one released first, or panics when there is none. -/
theorem bget_oldest (run : Relation.ReflTransGen Step (State.boot disk) s) (dev blockno : Nat) :
    ((cachedLoop dev blockno s.cache).isSome ∧ (recycleLoop s.cache).isSome) ∧
      Bget s.cache s.stamp dev blockno (bget dev blockno s.cache) ∧
      (dev ≠ 0 → ∀ b d, Holding s.cache b dev blockno → Holding s.cache d dev blockno → b = d) ∧
      ∀ b, Unused s.cache b ↔ (∀ u, (s.use u).counted ≠ some b) ∧ (s.cache.buf b).dirty = false := by
  obtain ⟨⟨order, ordered⟩, -, refs, -, -⟩ := Inv.run run
  refine ⟨⟨?_, ?_⟩, ordered.bget dev blockno, fun real b d holds holds' => refs.once b d _ _ real holds holds',
    fun b => and_congr_left' ?_⟩
  · rw [ordered.cachedLoop]
    rfl
  · rw [ordered.recycleLoop]
    rfl
  · rw [refs.counts b]
    simp [Use.count]

theorem bget_oldest_first : ∃ s : State Bool, (∃ b, s.use true = .busy .reading b 1 7) ∧
    ((cachedLoop 1 8 s.cache).isSome ∧ (recycleLoop s.cache).isSome) ∧
      Bget s.cache s.stamp 1 8 (bget 1 8 s.cache) ∧
      (1 ≠ 0 → ∀ b d, Holding s.cache b 1 8 → Holding s.cache d 1 8 → b = d) ∧
      ∀ b, Unused s.cache b ↔ (∀ u, (s.use u).counted ≠ some b) ∧ (s.cache.buf b).dirty = false := by
  obtain ⟨s, run, there⟩ := first_use (fun _ _ _ => 0) true 7 Nat.one_ne_zero
  exact ⟨s, there, bget_oldest run 1 8⟩

end Runs

end OsLabs.Bio
