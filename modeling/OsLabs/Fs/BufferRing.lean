import OsLabs.Fs.BufferCache

namespace OsLabs.Bio
open Fs (Block)

variable {c c' : Bcache} {stamp : Fin NBUF → Nat} {clock dev blockno : Nat} {b : Fin NBUF} {order : List (Fin NBUF)}

/-- The ring holds every buffer once, the one released last in front. -/
structure Ordered (c : Bcache) (stamp : Fin NBUF → Nat) (order : List (Fin NBUF)) : Prop where
  ring : Ring.Ringed c.links.1 c.links.2 none (order.map some)
  all : ∀ b, b ∈ order
  recent : order.Pairwise fun a b => stamp b < stamp a

theorem Ordered.nodup (ordered : Ordered c stamp order) : order.Nodup :=
  ordered.recent.imp fun {a b} (less : stamp b < stamp a) (same : a = b) => by
    rw [same] at less
    exact Nat.lt_irrefl _ less

theorem Ordered.length (ordered : Ordered c stamp order) : order.length = NBUF := by
  have perm : order.Perm (List.finRange NBUF) :=
    (List.perm_ext_iff_of_nodup ordered.nodup (List.nodup_finRange NBUF)).mpr fun b =>
      ⟨fun _ => List.mem_finRange b, fun _ => ordered.all b⟩
  rw [perm.length_eq, List.length_finRange]

theorem some_not_mem_head (fresh : b ∉ order) : some b ∉ (none : Node) :: order.map some := by
  simp only [List.mem_cons, List.mem_map, Option.some.injEq, exists_eq_right, reduceCtorEq, false_or]
  exact fresh

/-- `binit` puts each buffer in front of the earlier ones. -/
theorem binit_ordered : Ordered binit (fun b => b) (List.finRange NBUF).reverse := by
  have grows : ∀ (rest order : List (Fin NBUF)) (links : (Node → Node) × (Node → Node)),
      (order.reverse ++ rest).Nodup → Ring.Ringed links.1 links.2 none (order.map some) →
      Ring.Ringed (rest.foldl (fun links b => Ring.pushFront none (some b) links) links).1
        (rest.foldl (fun links b => Ring.pushFront none (some b) links) links).2 none
        ((rest.reverse ++ order).map some) := by
    intro rest
    induction rest with
    | nil => exact fun _ _ _ ringed => ringed
    | cons b rest ih =>
      intro order links once ringed
      have fresh : b ∉ order := fun member =>
        (List.nodup_append.mp once).2.2 b (List.mem_reverse.mpr member) b List.mem_cons_self rfl
      rw [List.reverse_cons, List.append_assoc, List.singleton_append]
      refine ih (b :: order) _ ?_ (ringed.pushFront (some_not_mem_head fresh))
      rwa [List.reverse_cons, List.append_assoc, List.singleton_append]
  refine ⟨?_, fun b => List.mem_reverse.mpr (List.mem_finRange b), ?_⟩
  · have ringed := grows (List.finRange NBUF) [] (fun _ => none, fun _ => none) (List.nodup_finRange NBUF)
      ⟨List.nodup_singleton _, List.isChain_cons_cons.mpr ⟨⟨rfl, rfl⟩, List.isChain_singleton _⟩⟩
    rwa [List.append_nil] at ringed
  · rw [List.pairwise_reverse]
    exact List.pairwise_lt_finRange NBUF

/-- The buffers in use change only their contents. -/
theorem Ordered.setBuf {buf : Buf} (ordered : Ordered c stamp order) : Ordered (c.setBuf b buf) stamp order :=
  ⟨ordered.ring, ordered.all, ordered.recent⟩

/-- A buffer released for the last time goes to the front. -/
theorem Ordered.front (ordered : Ordered c stamp order) (past : ∀ b, stamp b < clock) :
    Ordered { c with links := Ring.pushFront none (some b) (Ring.unlink (some b) c.links) }
      (Function.update stamp b clock) (b :: order.erase b) := by
  obtain ⟨front, back, rfl⟩ := List.append_of_mem (ordered.all b)
  have once := ordered.nodup
  have apart : b ∉ front := fun member => (List.nodup_append.mp once).2.2 b member b List.mem_cons_self rfl
  have away : b ∉ back := (List.nodup_cons.mp (List.nodup_append.mp once).2.1).1
  have gone : b ∉ front ++ back := by
    rw [List.mem_append, not_or]
    exact ⟨apart, away⟩
  rw [List.erase_append_right _ apart, List.erase_cons_head]
  refine ⟨?_, fun d => ?_, List.pairwise_cons.mpr ⟨fun d member => ?_, ?_⟩⟩
  · have ring := ordered.ring
    rw [List.map_append, List.map_cons] at ring
    have unlinked := ring.unlink
    rw [← List.map_append] at unlinked
    exact unlinked.pushFront (some_not_mem_head gone)
  · have member := ordered.all d
    simp only [List.mem_append, List.mem_cons] at member ⊢
    tauto
  · have other : d ≠ b := fun same => gone (same ▸ member)
    rw [Function.update_self, Function.update_of_ne other]
    exact past d
  · have recent := ordered.recent.sublist (List.Sublist.append_left (List.sublist_cons_self b back) front)
    refine recent.imp_of_mem fun {d e} inD inE less => ?_
    have otherD : d ≠ b := fun same => gone (same ▸ inD)
    have otherE : e ≠ b := fun same => gone (same ▸ inE)
    rwa [Function.update_of_ne otherD, Function.update_of_ne otherE]

/-- `brelse` keeps the ring in order of release. -/
theorem Ordered.brelse (ordered : Ordered c stamp order) (past : ∀ b, stamp b < clock) :
    ∃ order', Ordered (brelse b c) (if (c.buf b).refcnt ≤ 1 then Function.update stamp b clock else stamp)
      order' := by
  have count : ((c.setBuf b { c.buf b with refcnt := (c.buf b).refcnt - 1 }).buf b).refcnt =
      (c.buf b).refcnt - 1 := by
    simp [Bcache.setBuf]
  unfold Bio.brelse
  dsimp only
  rw [count]
  by_cases last : (c.buf b).refcnt ≤ 1
  · rw [if_pos (by omega), if_pos last]
    exact ⟨_, ordered.setBuf.front past⟩
  · rw [if_neg (by omega), if_neg last]
    exact ⟨order, ordered.setBuf⟩

section Bget

theorem find?_map_some (stop : Node → Bool) (order : List (Fin NBUF)) :
    ((order.map some).find? stop).getD none = order.find? fun b => stop (some b) := by
  rw [List.find?_map]
  change _ = order.find? (stop ∘ some)
  cases order.find? (stop ∘ some) <;> rfl

theorem Ordered.walk_next (ordered : Ordered c stamp order) (stop : Node → Bool) (home : stop none = true) :
    Ring.walk c.links.1 stop (NBUF + 1) (c.links.1 none) = some (order.find? fun b => stop (some b)) := by
  rw [ordered.ring.2.walk home (by rw [List.length_map, ordered.length]; exact Nat.lt_succ_self _), find?_map_some]

theorem Ordered.walk_prev (ordered : Ordered c stamp order) (stop : Node → Bool) (home : stop none = true) :
    Ring.walk c.links.2 stop (NBUF + 1) (c.links.2 none) = some (order.reverse.find? fun b => stop (some b)) := by
  have ring := ordered.ring.reverse.2
  rw [← List.map_reverse] at ring
  rw [ring.walk home (by rw [List.length_map, List.length_reverse, ordered.length]; exact Nat.lt_succ_self _),
    find?_map_some]

theorem Ordered.cachedLoop (ordered : Ordered c stamp order) (dev blockno : Nat) :
    cachedLoop dev blockno c = some (order.find? fun b => cachedAt dev blockno c (some b)) :=
  ordered.walk_next _ rfl

theorem Ordered.recycleLoop (ordered : Ordered c stamp order) :
    recycleLoop c = some (order.reverse.find? fun b => unusedAt c (some b)) :=
  ordered.walk_prev _ rfl

/-- A buffer that `bget` may recycle. -/
def Unused (c : Bcache) (b : Fin NBUF) : Prop := (c.buf b).refcnt = 0 ∧ (c.buf b).dirty = false

def Holding (c : Bcache) (b : Fin NBUF) (dev blockno : Nat) : Prop := (c.buf b).dev = dev ∧ (c.buf b).blockno = blockno

theorem cachedAt_iff : cachedAt dev blockno c (some b) = true ↔ Holding c b dev blockno := by
  simp [cachedAt, Holding]

theorem unusedAt_iff : unusedAt c (some b) = true ↔ Unused c b := by
  simp [unusedAt, Unused]

/-- What `bget` does: it finds the block, or recycles the unused buffer that was released first, or panics because
every buffer is in use or dirty. -/
inductive Bget (c : Bcache) (stamp : Fin NBUF → Nat) (dev blockno : Nat) : Option (Fin NBUF × Bcache) → Prop
  | hit (found : Fin NBUF) (holds : Holding c found dev blockno) :
      Bget c stamp dev blockno (some (found, c.setBuf found { c.buf found with refcnt := (c.buf found).refcnt + 1 }))
  | recycle (spare : Fin NBUF) (missing : ∀ d, ¬ Holding c d dev blockno) (unused : Unused c spare)
      (oldest : ∀ d, Unused c d → stamp spare ≤ stamp d) :
      Bget c stamp dev blockno (some (spare, c.setBuf spare ⟨false, false, dev, blockno, 1, (c.buf spare).data⟩))
  | panics (missing : ∀ d, ¬ Holding c d dev blockno) (full : ∀ d, ¬ Unused c d) : Bget c stamp dev blockno none

theorem Ordered.bget (ordered : Ordered c stamp order) (dev blockno : Nat) :
    Bget c stamp dev blockno (Bio.bget dev blockno c) := by
  unfold Bio.bget
  rw [ordered.cachedLoop, ordered.recycleLoop]
  cases found : order.find? fun b => cachedAt dev blockno c (some b) with
  | some b =>
    have holds := List.find?_some found
    exact .hit b (cachedAt_iff.mp holds)
  | none =>
    have missing : ∀ d, ¬ Holding c d dev blockno := fun d holds =>
      List.find?_eq_none.mp found d (ordered.all d) (cachedAt_iff.mpr holds)
    cases spare : order.reverse.find? fun b => unusedAt c (some b) with
    | none =>
      exact .panics missing fun d unused =>
        List.find?_eq_none.mp spare d (List.mem_reverse.mpr (ordered.all d)) (unusedAt_iff.mpr unused)
    | some b =>
      have chosen := List.find?_some spare
      refine .recycle b missing (unusedAt_iff.mp chosen) fun d unused => ?_
      obtain ⟨-, older, newer, split, busy⟩ := List.find?_eq_some_iff_append.mp spare
      have recent := List.pairwise_reverse.mpr ordered.recent
      rw [split] at recent
      have member : d ∈ older ++ b :: newer := split ▸ List.mem_reverse.mpr (ordered.all d)
      rcases List.mem_append.mp member with before | after
      · have not := busy d before
        rw [unusedAt_iff.mpr unused] at not
        cases not
      · rcases List.mem_cons.mp after with same | later
        · rw [same]
        · exact Nat.le_of_lt ((List.pairwise_cons.mp (List.pairwise_append.mp recent).2.1).1 d later)

end Bget

end OsLabs.Bio
