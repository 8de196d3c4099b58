import OsLabs.Inodes.PlacedTree

namespace OsLabs.Inodes
open ByteMemory PointerTree

/-- A subtree of one of the 17 pointers of an inode, with its height. -/
abbrev Sub := (k : Nat) × Tree Int k

def Sub.root (t : Sub) : Int := PointerTree.root t.2
def Sub.nodes (t : Sub) : List Int := PointerTree.nodes t.2
def Sub.leaves (t : Sub) : List Int := PointerTree.leaves t.2

/-- How many pointers lead from slot `j` of an inode to a data block: `dblocks`,
`iblocks`, `i2block` and `i3block` are consecutive words. -/
def slotLevel (j : Nat) : Nat := if j < 12 then 0 else if j < 15 then 1 else if j = 15 then 2 else 3

def Inode.pointer (ip : Inode) (j : Nat) : Int := ip.word (j + 8)

/-- The pointers of the inode are the roots of the subtrees, then zero, below
the `mode` and `nlink` that `place_file` starts with. -/
structure Named (ip : Inode) (subs : List Sub) : Prop where
  mode : ip.mode = 0
  nlink : ip.nlink = 1
  pointers : ∀ j, j < 17 → ip.pointer j = (subs[j]?.map Sub.root).getD 0

/-- As `Named`, where the pointers behind the subtrees are those of the inode `place_file` got from `malloc`. -/
structure NamedOver (base ip : Inode) (subs : List Sub) : Prop where
  mode : ip.mode = 0
  nlink : ip.nlink = 1
  pointers : ∀ j, j < 17 → ip.pointer j = (subs[j]?.map Sub.root).getD (base.pointer j)

theorem NamedOver.named {base ip : Inode} {subs : List Sub} (named : NamedOver base ip subs)
    (zeroed : ∀ j, base.pointer j = 0) : Named ip subs :=
  ⟨named.mode, named.nlink, fun j bound => by rw [named.pointers j bound, zeroed]⟩

/-- `ip'` differs from `ip` at pointer `j` at most, where it names `b`. -/
structure Names (ip ip' : Inode) (j : Nat) (b : Int) : Prop where
  mode : ip'.mode = ip.mode
  nlink : ip'.nlink = ip.nlink
  pointers : ∀ i, i < 17 → ip'.pointer i = if i = j then b else ip.pointer i

/-- The part of a file stored so far: `subs` fill the first pointers of the inode. -/
structure FileGrew (file : List UInt8) (n m : Int) (s s' : Placing) (subs : List Sub) : Prop where
  grows : Grows n m s s' (subs.flatMap Sub.nodes)
  ready : Ready file n m s'
  levels : ∀ j t, subs[j]? = some t → t.1 = slotLevel j
  held : ∀ t ∈ subs, Held (entry s'.rawdata) t.2
  ended : Blank n m s → ∀ t ∈ subs, Ended (entry s'.rawdata) 0 256 t.2
  packed : ∀ t ∈ subs, Packed 256 t.2
  carries : Carries file s'.rawdata 0 (subs.flatMap Sub.leaves)
  position : s'.fpr = min file.length (1024 * (subs.flatMap Sub.leaves).length)
  front : file.length < 2 ^ 31 → ∀ t ∈ subs.dropLast, Full 256 t.2
  tight : file.length < 2 ^ 31 → 1 < subs.length → 1024 * (subs.flatMap Sub.leaves).length < file.length + 1024

theorem NamedOver.append {base ip ip' : Inode} {subs : List Sub} {t : Sub} (named : NamedOver base ip subs)
    (names : Names ip ip' subs.length t.root) : NamedOver base ip' (subs ++ [t]) := by
  refine ⟨names.mode.trans named.mode, names.nlink.trans named.nlink, fun j bound => ?_⟩
  rw [names.pointers j bound, List.getElem?_append]
  by_cases before : j < subs.length
  · rw [if_neg (by omega), if_pos before, named.pointers j bound]
  · rw [if_neg before]
    by_cases here : j = subs.length
    · simp [here]
    · have beyond : subs[j]? = none := List.getElem?_eq_none (by omega)
      have after : [t][j - subs.length]? = none := List.getElem?_eq_none (by simp; omega)
      rw [if_neg here, named.pointers j bound, beyond, after]

section Slots
variable (ip : Inode) (b : Int)

theorem names_dblocks {k : Nat} (within : k < 12) :
    Names ip { ip with dblocks := Function.update ip.dblocks k b } k b := by
  refine ⟨rfl, rfl, fun j bound => ?_⟩
  simp only [Inode.pointer, Inode.word, Function.update_apply]
  split_ifs <;> first | rfl | omega

theorem names_iblocks {k : Nat} (within : k < 3) :
    Names ip { ip with iblocks := Function.update ip.iblocks k b } (12 + k) b := by
  refine ⟨rfl, rfl, fun j bound => ?_⟩
  simp only [Inode.pointer, Inode.word, Function.update_apply]
  split_ifs <;> first | rfl | omega

theorem names_i2block : Names ip { ip with i2block := b } 15 b := by
  refine ⟨rfl, rfl, fun j bound => ?_⟩
  simp only [Inode.pointer, Inode.word]
  split_ifs <;> first | rfl | omega

theorem names_i3block : Names ip { ip with i3block := b } 16 b := by
  refine ⟨rfl, rfl, fun j bound => ?_⟩
  simp only [Inode.pointer, Inode.word]
  split_ifs <;> first | rfl | omega

end Slots

theorem wrap32_le {x : Int} (nonneg : 0 ≤ x) : wrap32 x ≤ x := by
  by_cases small : x < 2 ^ 31
  · rw [wrap32_of_range (by omega) small]
  · have := (wrap32_range x).2
    omega

theorem Grew.ignoreIp {file : List UInt8} {n m fileSize : Int} {u w : Placing} {ip : Inode} {k : Nat}
    {t : Tree Int k} (grew : Grew file n m fileSize { u with ip := ip } w t) : Grew file n m fileSize u w t where
  grows := ⟨grew.grows.area, grew.grows.free, grew.grows.nodup, grew.grows.bitmap, grew.grows.frame⟩
  ready := grew.ready
  held := grew.held
  ended := grew.ended
  packed := grew.packed
  carries := grew.carries
  position := grew.position
  tight := grew.tight

/-- Between the stages of `place_file`: while the file is not stored, exactly
the first `j` pointers are in use and their subtrees are complete. -/
structure Stage (file : List UInt8) (n m : Int) (s u : Placing) (subs : List Sub) (j : Nat) : Prop where
  grew : FileGrew file n m s u subs
  named : NamedOver s.ip u.ip subs
  fits : subs.length ≤ j
  more : u.nbytes < file.length → subs.length = j ∧ (file.length < 2 ^ 31 → ∀ t ∈ subs, Full 256 t.2)

section Bounds
variable {file : List UInt8} {n m : Int} {s u w : Placing} {subs : List Sub} {j : Nat}

theorem FileGrew.append {fileSize : Int} (grew : FileGrew file n m s u subs)
    (full : file.length < 2 ^ 31 → ∀ t ∈ subs, Full 256 t.2) (whole : u.nbytes < file.length ∨ subs = [])
    (sized : file.length < 2 ^ 31 → fileSize = file.length) {k : Nat} {t : Tree Int k}
    (level : k = slotLevel subs.length) (child : Grew file n m fileSize u w t) :
    FileGrew file n m s w (subs ++ [⟨k, t⟩]) := by
  have nodesEq : (subs ++ [(⟨k, t⟩ : Sub)]).flatMap Sub.nodes = subs.flatMap Sub.nodes ++ nodes t := by
    simp [Sub.nodes]
  have leavesEq : (subs ++ [(⟨k, t⟩ : Sub)]).flatMap Sub.leaves = subs.flatMap Sub.leaves ++ leaves t := by
    simp [Sub.leaves]
  have oldNode : ∀ d ∈ subs, ∀ b ∈ nodes d.2, b ∈ subs.flatMap Sub.nodes :=
    fun d member b inside => List.mem_flatMap.mpr ⟨d, member, inside⟩
  have kept : ∀ d ∈ subs, ∀ b ∈ nodes d.2, entry u.rawdata b = entry w.rawdata b := fun d member b inside =>
    entry_congr fun p at_b => grew.grows.untouched child.grows (oldNode d member b inside) at_b
  have count := grew.ready.count
  have position := grew.position
  have start : u.fpr = 1024 * (subs.flatMap Sub.leaves).length := by
    rcases whole with started | rfl
    · omega
    · simpa using position
  have advance := child.position
  refine ⟨?_, child.ready, fun i d found => ?_, fun d member => ?_, fun blank d member => ?_,
    fun d member => ?_, ?_, ?_,
    fun short d member => ?_, fun short several => ?_⟩
  · rw [nodesEq]
    exact grew.grows.trans child.grows
  · rcases PointerTree.snoc_cases found with old | ⟨rfl, rfl⟩
    · exact grew.levels i d old
    · exact level
  · rcases List.mem_append.mp member with earlier | latest
    · exact (grew.held d earlier).congr (kept d earlier)
    · rw [List.mem_singleton.mp latest]
      exact child.held
  · rcases List.mem_append.mp member with earlier | latest
    · exact (grew.ended blank d earlier).congr (kept d earlier)
    · rw [List.mem_singleton.mp latest]
      exact child.ended (blank.grows grew.grows)
  · rcases List.mem_append.mp member with earlier | latest
    · exact grew.packed d earlier
    · rw [List.mem_singleton.mp latest]
      exact child.packed
  · rw [leavesEq]
    refine Carries.append (grew.carries.congr fun b leaf p inside => ?_) ?_
    · obtain ⟨d, member, below⟩ := List.mem_flatMap.mp leaf
      exact grew.grows.untouched child.grows (oldNode d member b (leaves_subset_nodes d.2 below)) inside
    · rw [Nat.zero_add, ← start]
      exact child.carries
  · rw [leavesEq, List.length_append]
    omega
  · exact full short d (by simpa using member)
  · rcases whole with started | rfl
    · have tight := child.tight (by rw [sized short]; exact started)
      rw [sized short] at tight
      rw [leavesEq, List.length_append]
      omega
    · simp at several

/-- Storing one more subtree at the next pointer of the inode. -/
theorem Stage.append {fileSize : Int} (stage : Stage file n m s u subs subs.length)
    (whole : u.nbytes < file.length ∨ subs = []) (sized : file.length < 2 ^ 31 → fileSize = file.length)
    {k : Nat} {t : Tree Int k} (level : k = slotLevel subs.length) (child : Grew file n m fileSize u w t)
    (closed : w.nbytes < fileSize → Full 256 t) (names : Names u.ip w.ip subs.length (root t)) :
    Stage file n m s w (subs ++ [⟨k, t⟩]) (subs ++ [(⟨k, t⟩ : Sub)]).length := by
  have full : file.length < 2 ^ 31 → ∀ t ∈ subs, Full 256 t.2 := by
    rcases whole with started | rfl
    · exact (stage.more started).2
    · simp
  refine ⟨stage.grew.append full whole sized level child, stage.named.append names, le_rfl,
    fun started => ⟨rfl, fun short d member => ?_⟩⟩
  rcases List.mem_append.mp member with earlier | latest
  · exact full short d earlier
  · rw [List.mem_singleton.mp latest]
    exact closed (by rw [sized short]; exact started)

variable (reserved : 0 ≤ m) (ordered : m ≤ n) (small : n * 1024 < 2 ^ 31)
include reserved ordered small

theorem placeDirect_spec (left : Nat) : ∀ (u : Placing) (subs : List Sub),
    Stage file n m s u subs subs.length → (u.nbytes < file.length ∨ subs = []) → subs.length + left = 12 →
    0 < left → placeDirect file n m left u = .ok w → ∃ all, Stage file n m s w all 12 ∧ all ≠ [] := by
  induction left with
  | zero => exact fun _ _ _ _ _ positive => absurd positive (lt_irrefl 0)
  | succ left ih =>
    intro u subs stage whole length _ run
    obtain ⟨⟨b, marked⟩, block, run⟩ := except_bind_ok run
    have slot : 12 - (left + 1) = subs.length := by omega
    simp only [slot] at run
    generalize ipEq : ({ u.ip with dblocks := Function.update u.ip.dblocks subs.length b } : Inode) = ip at run
    generalize next : copyBlock b (readChunk file { u with bitmap := marked, ip := ip }) = v at run
    have grew : Grew file n m file.length u v (leaf b) := by
      rw [← next]
      exact (grew_data (u := { u with ip := ip }) reserved ordered small
        ⟨stage.grew.ready.count, stage.grew.ready.within, stage.grew.ready.room⟩ block).ignoreIp
    have onward := stage.append whole (fun _ => rfl) (k := 0) (by simp [slotLevel]; omega) grew
      (fun _ => full_leaf) (by
        rw [← next, ← ipEq]
        exact names_dblocks u.ip b (by omega))
    have size : (subs ++ [(⟨0, leaf b⟩ : Sub)]).length = subs.length + 1 := by simp
    by_cases done : (file.length : Int) ≤ v.nbytes
    · rw [if_pos done] at run
      cases run
      exact ⟨_, ⟨onward.grew, onward.named, by omega, fun partly => absurd partly (not_lt.mpr done)⟩, by simp⟩
    · rw [if_neg done] at run
      cases left with
      | zero =>
        cases run
        exact ⟨_, ⟨onward.grew, onward.named, by omega, fun partly => ⟨by omega, (onward.more partly).2⟩⟩, by simp⟩
      | succ left =>
        exact ih v _ onward (Or.inl (not_le.mp done)) (by omega) (Nat.succ_pos left) run

/-- A pointer block placed for the next slot of the inode. -/
theorem Stage.pointerBlock (stage : Stage file n m s u subs subs.length) (started : u.nbytes < file.length)
    {k : Nat} (level : k + 1 = slotLevel subs.length) {name : Int → Inode → Inode}
    {step : Int → Placing → Except Exit Placing} (spec : EntrySpec file n m (wrap32 file.length) k step)
    (names : ∀ b, Names u.ip (name b u.ip) subs.length b)
    {b : Int} {returned : Bool}
    (run : placePointerBlock n m name step (wrap32 file.length) u = .ok (b, returned, w)) :
    ∃ t : Sub, Stage file n m s w (subs ++ [t]) (subs ++ [t]).length := by
  have sized : wrap32 file.length ≤ file.length := wrap32_le (Int.natCast_nonneg _)
  obtain ⟨t, rfl, grew, closed, ip⟩ := placePointerBlock_spec reserved ordered small sized spec stage.grew.ready run
  refine ⟨⟨k + 1, t⟩, stage.append (Or.inl started) (fun short => wrap32_of_range (by omega) (by omega)) level grew
    closed ?_⟩
  rw [ip]
  exact names (root t)

theorem placeIndirects_spec (left : Nat) : ∀ (u : Placing) (subs : List Sub),
    Stage file n m s u subs (15 - left) → left ≤ 3 → subs ≠ [] → placeIndirects file n m left u = .ok w →
    ∃ all, Stage file n m s w all 15 ∧ all ≠ [] := by
  induction left with
  | zero =>
    intro u subs stage _ nonempty run
    cases run
    exact ⟨subs, stage, nonempty⟩
  | succ left ih =>
    intro u subs stage bound nonempty run
    unfold placeIndirects at run
    split at run
    · rename_i started
      obtain ⟨⟨value, v⟩, place, run⟩ := except_bind_ok run
      obtain ⟨⟨b, returned, x⟩, pointer, place⟩ := except_bind_ok place
      cases place
      have length : subs.length = 15 - (left + 1) := (stage.more started).1
      have slot : ((3 : Int) - ((left : Int) + 1)).toNat = 2 - left := by omega
      have other : (3 : Int) - ((left : Int) + 1) ≠ 21 := by omega
      have here : subs.length = 12 + (2 - left) := by omega
      have level : 0 + 1 = slotLevel subs.length := by
        unfold slotLevel
        rw [if_neg (by omega), if_pos (by omega)]
      obtain ⟨t, next⟩ := Stage.pointerBlock reserved ordered small (length ▸ stage) started level
        (placeDataEntry_spec reserved ordered small) (fun d => by
          simp only [ne_eq, other, not_false_eq_true, if_true, slot]
          rw [here]
          exact names_iblocks u.ip d (by omega)) pointer
      have size : (subs ++ [t]).length = 15 - left := by simp; omega
      exact ih v _ (size ▸ next) (by omega) (by simp) run
    · rename_i stored
      cases run
      have fits := stage.fits
      exact ⟨subs, ⟨stage.grew, stage.named, by omega, fun partly => absurd partly stored⟩, nonempty⟩

/-- What `place_file` leaves before `place_inode`, when it gets that far. -/
theorem placeBlocks_spec {heap : Heap} {uid gid : Int} {rawdata bitmap : Bytes}
    (run : placeBlocks heap file uid gid m rawdata bitmap n = .ok w) :
    ∃ (s : Placing) (subs : List Sub), s.rawdata = rawdata ∧ s.bitmap = bitmap ∧ FileGrew file n m s w subs ∧
      NamedOver heap.ip w.ip subs ∧ subs ≠ [] ∧ subs.length ≤ 17 ∧ w.nbytes = file.length ∧ w.ip.size = file.length ∧
      w.fpr = file.length ∧ file.length < 2 ^ 31 := by
  obtain ⟨v₁, direct, run⟩ := except_bind_ok run
  obtain ⟨v₂, single, run⟩ := except_bind_ok run
  obtain ⟨v₃, double, run⟩ := except_bind_ok run
  obtain ⟨v₄, triple, run⟩ := except_bind_ok run
  generalize ipEq : ({ heap.ip with
    mode := 0, nlink := 1, uid := uid, gid := gid
    ctime := wrap32 (heap.random 0), mtime := wrap32 (heap.random 1), atime :=
      wrap32 (heap.random 2) } : Inode) = ip at direct
  generalize startEq : Placing.mk rawdata bitmap ip 0 heap.buf 0 = s at direct
  have free := freeCount_le n m bitmap
  have begin_ : Stage file n m s s [] ([] : List Sub).length := by
    subst startEq ipEq
    refine ⟨⟨Grows.refl n m _,
      ⟨rfl, Nat.zero_le _, ?_⟩, by simp, by simp, by simp, by simp, ?_, by simp, by simp, by simp⟩,
      ⟨rfl, rfl, fun j bound => rfl⟩, le_rfl, by simp⟩
    · simp only
      omega
    · intro k b found
      simp at found
  obtain ⟨subs₁, stage₁, nonempty₁⟩ := placeDirect_spec reserved ordered small 12 s [] begin_ (Or.inr rfl) rfl
    (by decide) direct
  obtain ⟨subs₂, stage₂, nonempty₂⟩ :=
    placeIndirects_spec reserved ordered small 3 v₁ subs₁ stage₁ le_rfl nonempty₁ single
  have sized : wrap32 file.length ≤ file.length := wrap32_le (Int.natCast_nonneg _)
  obtain ⟨subs₃, stage₃, nonempty₃⟩ : ∃ all, Stage file n m s v₃ all 16 ∧ all ≠ [] := by
    unfold placeDoubly at double
    split at double
    · rename_i started
      obtain ⟨⟨value, v⟩, place, double⟩ := except_bind_ok double
      cases double
      obtain ⟨⟨b, returned, x⟩, pointer, place⟩ := except_bind_ok place
      cases place
      have length : subs₂.length = 15 := (stage₂.more started).1
      obtain ⟨t, next⟩ := Stage.pointerBlock reserved ordered small (length ▸ stage₂) started
        (by rw [length]; rfl) (placeIndirectEntry_spec reserved ordered small sized)
        (fun d => by rw [length]; exact names_i2block v₂.ip d) pointer
      have size : (subs₂ ++ [t]).length = 16 := by simp [length]
      exact ⟨_, size ▸ next, by simp⟩
    · rename_i stored
      cases double
      exact ⟨subs₂, ⟨stage₂.grew, stage₂.named, stage₂.fits.trans (by decide),
        fun partly => absurd partly stored⟩, nonempty₂⟩
  obtain ⟨subs₄, grew, named, nonempty₄, fits⟩ :
      ∃ all, FileGrew file n m s v₄ all ∧ NamedOver s.ip v₄.ip all ∧ all ≠ [] ∧ all.length ≤ 17 := by
    unfold placeTriply at triple
    split at triple
    · rename_i started
      obtain ⟨⟨b, returned, x⟩, pointer, place⟩ := except_bind_ok triple
      cases place
      have length : subs₃.length = 16 := (stage₃.more started).1
      obtain ⟨t, next⟩ := Stage.pointerBlock reserved ordered small (length ▸ stage₃) started
        (by rw [length]; rfl) (placeDoublyEntry_spec reserved ordered small sized)
        (fun d => by rw [length]; exact names_i3block v₃.ip d) pointer
      exact ⟨_, next.grew, next.named, by simp, by simp [length]⟩
    · cases triple
      exact ⟨subs₃, stage₃.grew, stage₃.named, nonempty₃, stage₃.fits.trans (by decide)⟩
  split at run
  · cases run
  · rename_i stored
    cases run
    have count := grew.ready.count
    have within := grew.ready.within
    have room := grew.ready.room
    have total : v₄.nbytes = file.length := by omega
    refine ⟨s, subs₄, by rw [← startEq], by rw [← startEq], ⟨⟨grew.grows.area, grew.grows.free, grew.grows.nodup,
      grew.grows.bitmap, grew.grows.frame⟩, ⟨count, within, room⟩, grew.levels, grew.held, grew.ended, grew.packed,
      grew.carries, grew.position, grew.front, grew.tight⟩, ⟨named.mode, named.nlink, fun j bound => ?_⟩,
        nonempty₄, fits,
      total, total, ?_, ?_⟩
    · have pointer := named.pointers j bound
      rw [← startEq, ← ipEq] at pointer
      exact pointer
    · simp only
      omega
    · omega

end Bounds

end OsLabs.Inodes
