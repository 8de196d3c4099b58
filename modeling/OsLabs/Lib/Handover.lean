import Mathlib.Data.List.Nodup
import Mathlib.Data.List.Perm.Subperm
import Mathlib.Logic.Function.Basic

namespace Handover

variable {ι α : Type} [DecidableEq ι] {k j : ι} {a b : α} {first second : List (ι × α)}

/-- The items an agent has entered in a log it shares with others. -/
def mine (k : ι) (log : List (ι × α)) : List α := (log.filter fun entry => entry.1 = k).map Prod.snd

@[simp] theorem mine_nil : mine k ([] : List (ι × α)) = [] := rfl

@[simp] theorem mine_self : mine k (first ++ [(k, a)]) = mine k first ++ [a] := by
  simp [mine]

theorem mine_other (away : j ≠ k) : mine k (first ++ [(j, a)]) = mine k first := by
  simp [mine, away]

@[simp] theorem mem_mine : a ∈ mine k first ↔ (k, a) ∈ first := by
  simp [mine]

theorem mine_of_only (only : ∀ j, j = k) (log : List (ι × α)) : mine k log = log.map Prod.snd := by
  rw [mine, List.filter_eq_self.mpr fun entry _ => by simp [only entry.1]]

theorem count_mine [DecidableEq α] (k : ι) (a : α) (log : List (ι × α)) :
    (mine k log).count a = log.count (k, a) := by
  induction log with
  | nil => rfl
  | cons entry log ih =>
    obtain ⟨j, b⟩ := entry
    by_cases own : j = k
    · subst own
      have unfolded : mine j ((j, b) :: log) = b :: mine j log := by simp [mine]
      rw [unfolded, List.count_cons, List.count_cons, ih]
      simp
    · have unfolded : mine k ((j, b) :: log) = mine k log := by simp [mine, own]
      rw [unfolded, ih, List.count_cons_of_ne (by simp [own])]

/-- Every agent enters in the second log what it has entered in the first, in the same order,
except for what it is still working on. -/
def Follows (pending : ι → List α) (first second : List (ι × α)) : Prop :=
  ∀ k, mine k first = mine k second ++ pending k

variable {pending : ι → List α}

theorem Follows.start (idle : ∀ k, pending k = []) : Follows pending ([] : List (ι × α)) [] := fun k => by
  simp [idle k]

section Stages
variable {σ : Type} {stages : ι → σ} {work : σ → List α} {stage : σ}

theorem Follows.move (follows : Follows (work ∘ stages) first second) (same : work stage = work (stages k)) :
    Follows (work ∘ Function.update stages k stage) first second := by
  rw [Function.comp_update, same]
  exact (Function.update_eq_self k (work ∘ stages)).symm ▸ follows

/-- An agent with nothing to do enters a new item in the first log. -/
theorem Follows.take (follows : Follows (work ∘ stages) first second) (idle : work (stages k) = [])
    (busy : work stage = [a]) : Follows (work ∘ Function.update stages k stage) (first ++ [(k, a)]) second := by
  intro j
  rw [Function.comp_update, busy]
  by_cases same : j = k
  · subst same
    rw [mine_self, Function.update_self, follows j, Function.comp_apply, idle, List.append_nil]
  · rw [mine_other (Ne.symm same), Function.update_of_ne same, follows j]

/-- An agent enters the item it is working on in the second log. -/
theorem Follows.hand (follows : Follows (work ∘ stages) first second) (busy : work (stages k) = [a])
    (idle : work stage = []) : Follows (work ∘ Function.update stages k stage) first (second ++ [(k, a)]) := by
  intro j
  rw [Function.comp_update, idle]
  by_cases same : j = k
  · subst same
    rw [mine_self, Function.update_self, follows j, Function.comp_apply, busy, List.append_nil]
  · rw [mine_other (Ne.symm same), Function.update_of_ne same, follows j]

end Stages

theorem Follows.mem_iff (follows : Follows pending first second) :
    (k, a) ∈ first ↔ (k, a) ∈ second ∨ a ∈ pending k := by
  rw [← mem_mine, follows k, List.mem_append, mem_mine]

theorem Follows.subperm [DecidableEq α] (follows : Follows pending first second) : second.Subperm first := by
  refine List.subperm_ext_iff.mpr fun entry _ => ?_
  obtain ⟨k, a⟩ := entry
  rw [← count_mine, ← count_mine, follows k, List.count_append]
  exact Nat.le_add_right _ _

theorem subperm_map {β : Type} (f : α → β) {l m : List α} (sub : l.Subperm m) : (l.map f).Subperm (m.map f) := by
  obtain ⟨l', perm, sublist⟩ := sub
  exact ⟨l'.map f, perm.map f, sublist.map f⟩

theorem subperm_nodup {l m : List α} (sub : l.Subperm m) (nodup : m.Nodup) : l.Nodup := by
  obtain ⟨l', perm, sublist⟩ := sub
  exact perm.nodup_iff.mp (nodup.sublist sublist)

omit [DecidableEq ι] in
/-- When no item is entered twice in the first log, an item belongs to one agent. -/
theorem owner_unique (once : (first.map Prod.snd).Nodup) (mem : (k, a) ∈ first) (mem' : (j, a) ∈ first) : k = j :=
  congrArg Prod.fst (List.inj_on_of_nodup_map once mem mem' rfl)

/-- What an agent is working on nobody has entered in the second log. -/
theorem Follows.fresh (follows : Follows pending first second) (once : (first.map Prod.snd).Nodup)
    (busy : a ∈ pending k) : (j, a) ∉ second := by
  intro entered
  obtain rfl := owner_unique once (follows.mem_iff.mpr (.inr busy)) (follows.mem_iff.mpr (.inl entered))
  have twice : (mine k first).Nodup := (once.sublist (List.filter_sublist.map _))
  rw [follows k, List.nodup_append] at twice
  exact twice.2.2 a (mem_mine.mpr entered) a busy rfl

/-- A single agent enters its items in the second log in the order of the first. -/
theorem Follows.in_order (follows : Follows pending first second) (only : ∀ j, j = k) :
    second.map Prod.snd <+: first.map Prod.snd := by
  refine ⟨pending k, ?_⟩
  rw [← mine_of_only only, ← mine_of_only only, follows k]

omit [DecidableEq ι] in
/-- The entries for one item in a log without repetitions. -/
theorem entries_of_mem [DecidableEq α] (once : (first.map Prod.snd).Nodup) (mem : (k, a) ∈ first) :
    first.filter (fun entry => entry.2 = a) = [(k, a)] := by
  have nodup : (first.filter fun entry => entry.2 = a).Nodup := (List.Nodup.of_map _ once).filter _
  refine List.perm_singleton.mp ((List.perm_ext_iff_of_nodup nodup (List.nodup_singleton _)).mpr fun entry => ?_)
  obtain ⟨j, b⟩ := entry
  simp only [List.mem_filter, decide_eq_true_eq, List.mem_singleton, Prod.mk.injEq]
  constructor
  · rintro ⟨inside, rfl⟩
    exact ⟨owner_unique once inside mem, rfl⟩
  · rintro ⟨rfl, rfl⟩
    exact ⟨mem, rfl⟩

omit [DecidableEq ι] in
theorem entries_of_not_mem [DecidableEq α] (absent : ∀ k, (k, a) ∉ first) :
    first.filter (fun entry => entry.2 = a) = [] := by
  refine List.filter_eq_nil_iff.mpr fun entry inside => ?_
  obtain ⟨j, b⟩ := entry
  simp only [decide_eq_true_eq]
  rintro rfl
  exact absent j inside

end Handover
