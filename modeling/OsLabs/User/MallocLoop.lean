import OsLabs.User.MallocBlocks

namespace OsLabs.Umalloc
open ByteMemory Spans Cycle Heap

/-- Given fuel enough, the call returns `r`. -/
def Yields {α : Type} (call : Nat → Option α) (r : α) : Prop := ∃ enough, ∀ fuel, enough ≤ fuel → call fuel = some r

theorem Yields.unique {α : Type} {call : Nat → Option α} {r r' : α} (yields : Yields call r)
    (yields' : Yields call r') :
    r = r' := by
  obtain ⟨enough, run⟩ := yields
  obtain ⟨enough', run'⟩ := yields'
  exact Option.some.inj ((run _ (Nat.le_max_left ..)).symm.trans (run' (max enough enough') (Nat.le_max_right ..)))

section Loop
variable {base : Nat} {h h' : Heap} {free live free' front back : List Span} {s : Span} {granted : Bool}
  {n fuel turns prevp t : Nat} {path : List Nat}

/-- Blocks that are too small are passed by, up to the one where the search began. -/
theorem loop_passes (linked : Linked h.ptr (prevp :: (path ++ [t])))
    (small : ∀ p ∈ path, h.size p < n ∧ p ≠ h.freep) :
    ∃ q ∈ prevp :: path, h.ptr q = t ∧ ∀ fuel turns,
      mallocLoop fuel granted n (path.length + turns) prevp (h.ptr prevp) h =
        mallocLoop fuel granted n turns q t h := by
  induction path generalizing prevp with
  | nil =>
    have next : h.ptr prevp = t := (List.isChain_cons_cons.mp linked).1
    refine ⟨prevp, List.mem_cons_self, next, fun fuel turns => ?_⟩
    rw [next, List.length_nil, Nat.zero_add]
  | cons p path ih =>
    obtain ⟨next, linked⟩ := List.isChain_cons_cons.mp linked
    obtain ⟨q, member, found, run⟩ := ih linked fun p later => small p (List.mem_cons_of_mem _ later)
    obtain ⟨less, other⟩ := small p List.mem_cons_self
    refine ⟨q, List.mem_cons_of_mem _ member, found, fun fuel turns => ?_⟩
    have length : (p :: path).length + turns = path.length + turns + 1 := by
      rw [List.length_cons]
      omega
    rw [length, mallocLoop, next, if_neg (Nat.not_le.mpr less), if_neg other]
    exact run fuel turns

/-- The search goes once round the ring and ends where it began. -/
theorem Shape.round (shape : Shape base h free live) :
    ∃ rest, Linked h.ptr (h.freep :: (rest ++ [h.freep])) ∧
      (rest ++ [h.freep]).Perm (starts (sentinel base :: free)) := by
  obtain ⟨front, back, split⟩ := List.append_of_mem shape.freep
  have ring := shape.ring
  rw [split] at ring ⊢
  refine ⟨back ++ front, ring.linked, ?_⟩
  exact ((List.perm_append_singleton ..).trans (List.perm_append_comm.cons _)).trans List.perm_middle.symm

/-- The first block of the round that is large enough. -/
theorem Shape.first_large (shape : Shape base h free live) (fits : ∃ s ∈ free, n ≤ h.size s.start) :
    ∃ skip t, Linked h.ptr (h.freep :: (skip ++ [t])) ∧ n ≤ h.size t ∧ t ∈ starts (sentinel base :: free) ∧
      skip.length ≤ free.length ∧ ∀ p ∈ skip, p ∈ starts (sentinel base :: free) ∧ h.size p < n ∧ p ≠ h.freep := by
  obtain ⟨rest, linked, perm⟩ := shape.round
  obtain ⟨t, found⟩ : ∃ t, (rest ++ [h.freep]).find? (fun t => n ≤ h.size t) = some t := by
    obtain ⟨s, member, enough⟩ := fits
    have listed : s.start ∈ rest ++ [h.freep] :=
      perm.mem_iff.mpr (List.mem_map_of_mem (List.mem_cons_of_mem _ member))
    exact Option.isSome_iff_exists.mp (List.find?_isSome.mpr ⟨_, listed, decide_eq_true enough⟩)
  obtain ⟨enough, skip, later, path, small⟩ := List.find?_eq_some_iff_append.mp found
  have once := perm.nodup_iff.mpr shape.once
  have length := perm.length_eq
  have all : ∀ p ∈ skip ++ t :: later, p ∈ starts (sentinel base :: free) := fun p member =>
    perm.mem_iff.mp (path ▸ member)
  have last : h.freep ∈ t :: later := by
    have final : (skip ++ t :: later).getLast (by simp) = h.freep := by
      simp only [← path, List.getLast_append_singleton]
    rw [List.getLast_append_of_ne_nil _ (List.cons_ne_nil t later)] at final
    exact final ▸ List.getLast_mem _
  rw [path] at linked once length
  refine ⟨skip, t, ?_, of_decide_eq_true enough, all t (List.mem_append_right _ List.mem_cons_self), ?_,
    fun p member =>
    ⟨all p (List.mem_append_left _ member), Nat.lt_of_not_le (by simpa using small p member), ?_⟩⟩
  · rw [List.append_cons, ← List.cons_append] at linked
    exact List.IsChain.left_of_append linked
  · rw [List.length_append, List.length_cons, starts, List.length_map, List.length_cons] at length
    omega
  · rintro rfl
    exact (List.nodup_append.mp once).2.2 _ member _ last rfl

/-- When a block on the ring is large enough, the first such block behind `freep` gives the units. -/
theorem Shape.loop_fits (shape : Shape base h free live) (positive : 0 < n) (fits : ∃ s ∈ free, n ≤ h.size s.start) :
    ∃ s ∈ free, n ≤ h.size s.start ∧ ∃ h' free', Taken base h h' free free' live (tailOf (8 * n) s) ∧
      ∀ fuel turns, free.length < turns → mallocLoop fuel granted n turns h.freep (h.ptr h.freep) h =
        some ((tailOf (8 * n) s).start + 8, h') := by
  obtain ⟨skip, t, linked, large, listed, short, passed⟩ := shape.first_large fits
  obtain ⟨q, before, next, run⟩ := @loop_passes h granted n h.freep t skip linked fun p member => (passed p member).2
  obtain ⟨s, member, rfl⟩ := List.mem_map.mp listed
  have inside : s ∈ free := by
    refine (List.mem_cons.mp member).resolve_left ?_
    rintro rfl
    have none := shape.sizes _ List.mem_cons_self
    change _ = 0 at none
    omega
  obtain ⟨front, p, back, whole⟩ : ∃ front p back, sentinel base :: free = front ++ p :: s :: back := by
    obtain ⟨front, back, split⟩ := List.append_of_mem inside
    obtain ⟨front', p, last⟩ : ∃ f p, sentinel base :: front = f ++ [p] :=
      ⟨_, _, (List.dropLast_concat_getLast (List.cons_ne_nil _ front)).symm⟩
    refine ⟨front', p, back, ?_⟩
    rw [split, ← List.cons_append, last, List.append_assoc]
    rfl
  obtain rfl : q = p.start := by
    refine shape.ring.injective shape.once ?_ ?_ (next.trans (shape.ptr_eq whole).symm)
    · rcases List.mem_cons.mp before with rfl | other
      · exact shape.freep
      · exact (passed q other).1
    · exact List.mem_map_of_mem (whole ▸ List.mem_append_right _ List.mem_cons_self)
  obtain ⟨h', free', carved, taken⟩ := shape.carve whole positive large
  refine ⟨s, inside, large, h', free', taken, fun fuel turns enough => ?_⟩
  obtain ⟨turns, rfl⟩ : ∃ k, turns = skip.length + (k + 1) := ⟨turns - skip.length - 1, by omega⟩
  rw [run, mallocLoop, if_pos large, carved]

/-- The units that `morecore` asks for. -/
def coreUnits (nu : Nat) : Nat := if nu < 4096 then 4096 else nu

theorem le_coreUnits (n : Nat) : n ≤ coreUnits n := by
  unfold coreUnits
  split <;> omega

/-- The heap of which the kernel has given `coreUnits n` units more, with the header that `morecore` writes. -/
def withCore (h : Heap) (n : Nat) : Heap :=
  ({ h with brk := h.brk + 8 * coreUnits n } : Heap).setSize h.brk (coreUnits n)

/-- The memory that the kernel gives stands apart from all blocks. -/
theorem Shape.fresh (shape : Shape base h free live) (room : h.brk + 8 * coreUnits n ≤ 2 ^ 31)
    (low : base + 8 ≤ h.brk) :
    Shape base (withCore h n) free live ∧ Loose base (withCore h n) free live ⟨h.brk, 8 * coreUnits n⟩ := by
  have units : 4096 ≤ coreUnits n := by
    unfold coreUnits
    split <;> omega
  have brk : (withCore h n).brk = h.brk + 8 * coreUnits n := rfl
  have same : ∀ x : Nat, x < h.brk → (withCore h n).mem x = h.mem x := fun x below => writeInt_outside _ (by omega)
  have size : (withCore h n).size h.brk = coreUnits n := size_setSize_self (by omega)
  refine ⟨shape.congr rfl (fun x _ upper => same x (by omega))
    (fun x used => same x (shape.inside x (.inl used)).2) ?_ ?_
    (brk ▸ room), ⟨?_, ?_, ?_, ?_⟩⟩
  · intro s member x lower upper
    have bound := shape.liveBounds member
    have long := shape.liveFilled s member
    exact same x (by unfold Span.stop at bound; omega)
  · intro x covered
    have := (shape.inside x covered).2
    omega
  · rw [size, Nat.mul_comm]
  · show 8 ≤ 8 * coreUnits n
    omega
  · rintro x ⟨lower, upper⟩
    exact ⟨Nat.le_trans low lower, brk ▸ upper⟩
  · rintro x ⟨lower, -⟩
    exact ⟨fun used => Nat.not_lt.mpr lower (shape.inside x (.inl used)).2,
      fun used => Nat.not_lt.mpr lower (shape.inside x (.inr used)).2⟩

/-- `morecore` puts the memory that the kernel gives onto the ring. -/
theorem Shape.morecore (shape : Shape base h free live) (room : h.brk + 8 * coreUnits n ≤ 2 ^ 31)
    (low : base + 8 ≤ h.brk) :
    ∃ h' free', Placed base (withCore h n) h' free free' live ⟨h.brk, 8 * coreUnits n⟩ ∧
      ∀ fuel, free.length + 1 < fuel → h.morecore fuel true n = some (h'.freep, h') := by
  obtain ⟨shape', loose⟩ := shape.fresh room low
  obtain ⟨h', free', run, placed⟩ := loose.freed shape'
  refine ⟨h', free', placed, fun fuel enough => ?_⟩
  have bytes : coreUnits n * headerSize % 2 ^ 32 = 8 * coreUnits n := by
    unfold headerSize
    omega
  have given : h.sbrk true (coreUnits n * headerSize % 2 ^ 32) =
      (h.brk, { h with brk := h.brk + 8 * coreUnits n }) := by
    rw [bytes, Heap.sbrk, if_pos rfl, Nat.mod_eq_of_lt (by omega)]
  have valid : h.brk ≠ 2 ^ 32 - 1 := by omega
  have freed : ((withCore h n).free fuel (h.brk + headerSize)) = some h' := run fuel enough
  unfold Heap.morecore
  dsimp only
  rw [← coreUnits, given]
  dsimp only
  rw [if_neg valid]
  exact congrArg (·.bind fun h => some (h.freep, h)) freed

/-- With no block large enough the search comes round to where it began, and asks for memory. -/
theorem Shape.loop_round (shape : Shape base h free live) (positive : 0 < n) (none : ∀ s ∈ free, h.size s.start < n) :
    ∃ passed ≤ free.length, ∀ fuel turns, mallocLoop fuel granted n (passed + (turns + 1)) h.freep (h.ptr h.freep) h =
      (h.morecore fuel granted n).bind fun r =>
        if r.1 = 0 then some (0, r.2) else mallocLoop fuel granted n turns r.1 (r.2.ptr r.1) r.2 := by
  obtain ⟨rest, linked, perm⟩ := shape.round
  have small : ∀ p ∈ starts (sentinel base :: free), h.size p < n := by
    intro p member
    obtain ⟨s, inside, rfl⟩ := List.mem_map.mp member
    rcases List.mem_cons.mp inside with rfl | other
    · have zero := shape.sizes _ List.mem_cons_self
      change _ = 0 at zero
      omega
    · exact none s other
  have once := perm.nodup_iff.mpr shape.once
  have apart : ∀ p ∈ rest, p ≠ h.freep := fun p member same =>
    (List.nodup_append.mp once).2.2 p member _ List.mem_cons_self same
  have length := perm.length_eq
  rw [List.length_append, starts, List.length_map, List.length_cons, List.length_cons, List.length_nil] at length
  refine ⟨rest.length, by omega, fun fuel turns => ?_⟩
  obtain ⟨q, -, -, run⟩ := @loop_passes h granted n h.freep h.freep rest linked fun p member =>
    ⟨small p (perm.mem_iff.mp (List.mem_append_left _ member)), apart p member⟩
  rw [run, mallocLoop, if_neg (Nat.not_le.mpr (small _ shape.freep)), if_pos rfl]
  rfl

/-- The kernel refuses: `malloc` returns 0 and leaves all as it is. -/
theorem Shape.loop_refused (shape : Shape base h free live) (positive : 0 < n)
    (none : ∀ s ∈ free, h.size s.start < n) :
    Yields (fun fuel => mallocLoop fuel false n fuel h.freep (h.ptr h.freep) h) (0, h) := by
  obtain ⟨passed, _, run⟩ := @Shape.loop_round base h free live false n shape positive none
  refine ⟨passed + 1, fun fuel enough => ?_⟩
  have turns : fuel = passed + ((fuel - passed - 1) + 1) := by omega
  have refused : h.morecore fuel false n = some (0, h) := rfl
  have round := run fuel (fuel - passed - 1)
  rw [← turns, refused] at round
  exact round

/-- `b` has been handed out, of the free blocks or of memory that the kernel gave. -/
structure Served (base : Nat) (h h' : Heap) (free free' live : List Span) (b : Span) : Prop where
  shape : Shape base h' free' (b :: live)
  covers : ∀ x, Covers free x ∨ h.brk ≤ x ∧ x < h'.brk ↔ Covers free' x ∨ b.Holds x
  mem : ∀ x : Nat, ¬ Covers free x → x < h.brk → x < base ∨ base + 8 ≤ x → h'.mem x = h.mem x
  brk : h.brk ≤ h'.brk

/-- A block is large enough, or the kernel gives the memory: `malloc` hands out the units. -/
theorem Shape.loop_served (shape : Shape base h free live) (positive : 0 < n) (low : base + 8 ≤ h.brk)
    (room : granted = true → h.brk + 8 * coreUnits n ≤ 2 ^ 31)
    (served : (∃ s ∈ free, n ≤ h.size s.start) ∨ granted = true) :
    ∃ b h' free', b.size = 8 * n ∧ Served base h h' free free' live b ∧
      Yields (fun fuel => mallocLoop fuel granted n fuel h.freep (h.ptr h.freep) h) (b.start + 8, h') := by
  by_cases fits : ∃ s ∈ free, n ≤ h.size s.start
  · obtain ⟨s, -, -, h', free', taken, run⟩ := @Shape.loop_fits base h free live granted n shape positive fits
    refine ⟨tailOf (8 * n) s, h', free', rfl,
      ⟨taken.shape, fun x => ?_, fun x used _ => taken.mem x used, taken.brk.ge⟩,
      free.length + 1, fun fuel enough => run fuel fuel enough⟩
    rw [taken.brk, taken.covers]
    refine or_iff_left fun both => ?_
    omega
  · have given : granted = true := served.resolve_left fits
    subst given
    have none : ∀ s ∈ free, h.size s.start < n := fun s member => Nat.lt_of_not_le fun enough =>
        fits ⟨s, member, enough⟩
    obtain ⟨passed, _, run⟩ := @Shape.loop_round base h free live true n shape positive none
    obtain ⟨mid, free₁, placed, core⟩ := shape.morecore (room rfl) low
    have more := le_coreUnits n
    have apart : Apart free₁ := (List.pairwise_cons.mp placed.shape.apart).2
    have covered : ∀ y, h.brk ≤ y → y < h.brk + 8 * n → Covers free₁ y := fun y lower upper =>
      (placed.covers y).mpr (.inr ⟨lower, show y < h.brk + 8 * coreUnits n by omega⟩)
    obtain ⟨s, member, first, last⟩ := apart.inside_one (by omega) covered
    have units := placed.shape.sizes s (List.mem_cons_of_mem _ member)
    obtain ⟨t, -, -, h', free', taken, again⟩ := @Shape.loop_fits base mid free₁ live true n placed.shape positive
      ⟨s, member, by unfold Span.stop at last; omega⟩
    have brk : h'.brk = h.brk + 8 * coreUnits n := taken.brk.trans placed.brk
    refine ⟨tailOf (8 * n) t, h', free', rfl, ⟨taken.shape, fun x => ?_, fun x used below off => ?_, by omega⟩,
      passed + 1 + (free.length + 2) + (free₁.length + 1), fun fuel enough => ?_⟩
    · rw [brk, ← taken.covers, placed.covers]
      rfl
    · have apart : ¬ (⟨h.brk, 8 * coreUnits n⟩ : Span).Holds x := fun holds => Nat.not_lt.mpr holds.1 below
      have unused : ¬ Covers free₁ x := fun covered => ((placed.covers x).mp covered).elim used apart
      rw [taken.mem x unused off, placed.mem x used apart off]
      exact writeInt_outside _ (by omega)
    · have turns : fuel = passed + ((fuel - passed - 1) + 1) := by omega
      have round := run fuel (fuel - passed - 1)
      rw [← turns, core fuel (by omega), Option.bind_some] at round
      have valid : mid.freep ≠ 0 := by
        obtain ⟨s, listed, same⟩ := List.mem_map.mp placed.shape.freep
        have low := placed.shape.base_le listed
        have positive := shape.positive
        omega
      rw [if_neg valid, again fuel _ (by omega)] at round
      exact round

end Loop

end OsLabs.Umalloc
