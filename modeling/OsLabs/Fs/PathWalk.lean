import Mathlib.Data.List.DropRight
import OsLabs.Fs.Path

namespace OsLabs.Path

section Elements
variable {path rest elem : List UInt8} {name name' : Name}

theorem elements_nil : elements [] = [] := rfl

theorem elements_slash : elements (slash :: path) = elements path := by
  have first : (slash :: path).splitOn slash = [] :: path.splitOn slash :=
    List.splitOn_append_cons_self_of_not_mem List.not_mem_nil path
  unfold elements
  rw [first, List.filter_cons_of_neg (by simp)]

theorem elements_dropWhile : elements (path.dropWhile (· = slash)) = elements path := by
  induction path with
  | nil => rfl
  | cons c path ih =>
    by_cases is : c = slash
    · rw [List.dropWhile_cons_of_pos (by simpa using is), ih, is, elements_slash]
    · rw [List.dropWhile_cons_of_neg (by simpa using is)]

/-- An element that ends at a slash or with the path. -/
theorem elements_elem (plain : slash ∉ elem) (some : elem ≠ []) (stop : rest = [] ∨ ∃ tail, rest = slash :: tail) :
    elements (elem ++ rest) = elem.take DIRSIZ :: elements rest := by
  rcases stop with rfl | ⟨tail, rfl⟩
  · unfold elements
    rw [List.append_nil, List.splitOn_eq_singleton plain, List.filter_cons_of_pos (by simpa using some)]
    rfl
  · rw [elements_slash]
    unfold elements
    rw [List.splitOn_append_cons_self_of_not_mem plain, List.filter_cons_of_pos (by simpa using some)]
    rfl

/-- The element that `skipelem` takes. -/
theorem skipelem_elem {start : List UInt8} (whole : path.dropWhile (· = slash) = start) (some : start ≠ []) :
    start.takeWhile (· ≠ slash) ≠ [] ∧ slash ∉ start.takeWhile (· ≠ slash) ∧
      (start.dropWhile (· ≠ slash) = [] ∨ ∃ tail, start.dropWhile (· ≠ slash) = slash :: tail) := by
  refine ⟨fun none => ?_, fun member => ?_, ?_⟩
  · obtain ⟨c, tail, is⟩ := List.exists_cons_of_ne_nil some
    have first := List.head_dropWhile_not (· = slash) (whole ▸ some)
    simp only [whole, is, List.head_cons, decide_eq_false_iff_not] at first
    rw [is, List.takeWhile_cons_of_pos (by simpa using first)] at none
    cases none
  · have other := List.mem_takeWhile_imp member
    simp at other
  · cases left : start.dropWhile (· ≠ slash) with
    | nil => exact .inl rfl
    | cons c tail =>
      have first := List.head_dropWhile_not (· ≠ slash) (by rw [left]; exact List.cons_ne_nil c tail)
      simp only [left, List.head_cons, decide_eq_false_iff_not, not_not] at first
      exact .inr ⟨tail, by rw [first]⟩

theorem skipelem_none (none : skipelem path name = none) : elements path = [] := by
  unfold skipelem at none
  dsimp only at none
  split at none
  · rename_i empty
    rw [← elements_dropWhile, empty, elements_nil]
  · cases none

theorem text_cut (plain : 0 ∉ elem) : text (elem.take DIRSIZ) = elem.take DIRSIZ :=
  List.takeWhile_eq_self_iff.mpr fun c member => by
    simpa using fun zero : c = 0 => plain (zero ▸ List.mem_of_mem_take member)

theorem text_ended (plain : 0 ∉ elem) : text (elem ++ 0 :: rest) = elem := by
  unfold text
  rw [List.takeWhile_append_of_pos fun c member => by simpa using fun zero : c = 0 => plain (zero ▸ member),
    List.takeWhile_cons_of_neg (by simp), List.append_nil]

/-- `skipelem` takes the first element, and leaves the others without a slash in front. -/
theorem skipelem_some (some : skipelem path name = some (rest, name')) (ends : 0 ∉ path)
    (sized : name.length = DIRSIZ) :
    elements path = text name' :: elements rest ∧ (rest = [] ↔ elements rest = []) ∧ 0 ∉ rest ∧
      name'.length = DIRSIZ := by
  unfold skipelem at some
  dsimp only at some
  split at some
  · cases some
  rename_i more
  obtain ⟨rfl, named⟩ := Prod.mk.inj (Option.some.inj some)
  obtain ⟨nonempty, plain, stop⟩ := skipelem_elem rfl more
  generalize start_ : path.dropWhile (· = slash) = start at *
  have inside : ∀ c ∈ start, c ∈ path := fun c member => (start_ ▸ List.dropWhile_sublist _).subset member
  have before : elements path = (start.takeWhile (· ≠ slash)).take DIRSIZ :: elements
      (start.dropWhile (· ≠ slash)) := by
    rw [← elements_dropWhile, start_, ← elements_elem plain nonempty stop, List.takeWhile_append_dropWhile]
  have plain₀ : 0 ∉ start.takeWhile (· ≠ slash) := fun member =>
    ends (inside 0 ((List.takeWhile_sublist _).subset member))
  refine ⟨?_, ⟨fun none => none ▸ elements_nil, fun none => ?_⟩, fun member => ?_, ?_⟩
  · rw [before, elements_dropWhile, ← named]
    congr 1
    split
    · exact (text_cut plain₀).symm
    · rename_i short
      rw [text_ended plain₀, List.take_of_length_le (by omega)]
  · by_contra left
    obtain ⟨nonempty', plain', stop'⟩ := @skipelem_elem _ _ (List.dropWhile_idempotent ..) left
    have one := elements_elem plain' nonempty' stop'
    rw [List.takeWhile_append_dropWhile, none] at one
    cases one
  · exact ends (inside 0 ((List.dropWhile_sublist _).subset ((List.dropWhile_sublist _).subset member)))
  · rw [← named]
    split
    · rw [List.length_take]
      omega
    · rw [List.length_append, List.length_cons, List.length_drop, sized]
      omega

/-- Two name buffers are the same to `namecmp` when they hold the same name. -/
theorem namecmp_iff (same : name.length = name'.length) : namecmp name name' = true ↔ text name = text name' := by
  induction name generalizing name' with
  | nil =>
    cases List.length_eq_zero_iff.mp same.symm
    exact iff_of_true rfl rfl
  | cons c s ih =>
    obtain ⟨d, t, rfl⟩ := List.exists_cons_of_length_eq_add_one same.symm
    unfold namecmp
    by_cases on : c ≠ 0 ∧ c = d
    · obtain ⟨more, rfl⟩ := on
      rw [if_pos ⟨more, rfl⟩, ih (Nat.succ.inj same)]
      unfold text
      rw [List.takeWhile_cons_of_pos (by simpa using more), List.takeWhile_cons_of_pos (by simpa using more)]
      exact ⟨congrArg (c :: ·), fun both => (List.cons.inj both).2⟩
    · rw [if_neg on, decide_eq_true_iff]
      unfold text
      by_cases ended : c = 0
      · by_cases ended' : d = 0
        · rw [ended, ended', List.takeWhile_cons_of_neg (by simp), List.takeWhile_cons_of_neg (by simp)]
          exact iff_of_true rfl rfl
        · rw [ended, List.takeWhile_cons_of_neg (by simp), List.takeWhile_cons_of_pos (by simpa using ended')]
          exact iff_of_false (Ne.symm ended') nofun
      · have apart : c ≠ d := fun is => on ⟨ended, is⟩
        rw [List.takeWhile_cons_of_pos (by simpa using ended)]
        refine iff_of_false apart fun both => ?_
        by_cases ended' : d = 0
        · rw [ended', List.takeWhile_cons_of_neg (by simp)] at both
          cases both
        · rw [List.takeWhile_cons_of_pos (by simpa using ended')] at both
          exact apart (List.cons.inj both).1

theorem dirlookup_find {entries : List (Nat × Name)} (sized : ∀ entry ∈ entries, name.length = entry.2.length) :
    dirlookup name entries = (entries.find? fun entry => entry.1 ≠ 0 ∧ text entry.2 = text name).map Prod.fst := by
  induction entries with
  | nil => rfl
  | cons entry entries ih =>
    obtain ⟨inum, other⟩ := entry
    have rest := ih fun entry member => sized entry (List.mem_cons_of_mem _ member)
    have compare := namecmp_iff (sized _ List.mem_cons_self)
    unfold dirlookup
    by_cases free : inum = 0
    · rw [if_pos free, rest, List.find?_cons_of_neg (by simp [free])]
    rw [if_neg free]
    by_cases found : namecmp name other = true
    · rw [if_pos found, List.find?_cons_of_pos (by simpa using ⟨free, (compare.mp found).symm⟩)]
      rfl
    · rw [if_neg found, rest, List.find?_cons_of_neg]
      simpa [free] using fun same : text other = text name => found (compare.mpr same.symm)

end Elements

section Walks
variable {tree : Tree} {ip : Nat} {path : List UInt8} {name : Name}

theorem dirlookup_child (tree : Tree) (sized : name.length = DIRSIZ) :
    dirlookup name (tree.entries ip) = tree.child ip (text name) :=
  dirlookup_find fun entry member => sized.trans (tree.named ip entry member).symm

/-- The loop of `namei` goes along the elements. -/
theorem namexLoop_walks (tree : Tree) (ends : 0 ∉ path) (sized : name.length = DIRSIZ) :
    (namexLoop tree false ip path name).1 = tree.walk ip (elements path) := by
  induction size : path.length using Nat.strongRecOn generalizing ip path name with
  | ind n ih =>
    rw [namexLoop]
    split
    · rename_i none
      rw [skipelem_none none]
      rfl
    · rename_i rest name' step
      obtain ⟨first, -, ends', sized'⟩ := skipelem_some step ends sized
      rw [first, Tree.walk]
      by_cases dir : tree.isDir ip = true
      · rw [if_neg (by simp [dir]), if_neg (by simp), if_pos dir, dirlookup_child tree sized']
        cases tree.child ip (text name') with
        | none => rfl
        | some next => exact ih _ (size ▸ skipelem_shorter step) ends' sized' rfl
      · rw [if_pos (by simp [dir]), if_neg dir]

/-- The loop of `nameiparent` stops one element early. -/
theorem namexLoop_parent (tree : Tree) (ends : 0 ∉ path) (sized : name.length = DIRSIZ) :
    (namexLoop tree true ip path name).1 =
        (if elements path = [] then none else (tree.walk ip (elements path).dropLast).filter tree.isDir) ∧
      ∀ dir, (namexLoop tree true ip path name).1 = some dir →
        (elements path).getLast? = some (text (namexLoop tree true ip path name).2) := by
  induction size : path.length using Nat.strongRecOn generalizing ip path name with
  | ind n ih =>
    rw [namexLoop]
    split
    · rename_i empty
      rw [skipelem_none empty]
      exact ⟨rfl, fun dir same => absurd (same.symm : some dir = none) (Option.some_ne_none dir)⟩
    · rename_i rest name' step
      obtain ⟨first, last, ends', sized'⟩ := skipelem_some step ends sized
      rw [first, if_neg (List.cons_ne_nil _ _)]
      by_cases dir : tree.isDir ip = true
      · rw [if_neg (by simp [dir])]
        by_cases done : rest = []
        · rw [if_pos (by simp [done]), last.mp done]
          refine ⟨?_, fun _ _ => rfl⟩
          show some ip = Option.filter tree.isDir (some ip)
          rw [Option.filter_some, if_pos dir]
        · obtain ⟨elem, others, more⟩ := List.exists_cons_of_ne_nil (mt last.mpr done)
          rw [if_neg (by simp [done]), dirlookup_child tree sized']
          have walked : tree.walk ip (text name' :: elements rest).dropLast =
              (tree.child ip (text name')).bind fun next => tree.walk next (elements rest).dropLast := by
            rw [more, List.dropLast_cons_cons, Tree.walk, if_pos dir]
          rw [walked]
          cases tree.child ip (text name') with
          | none => exact ⟨rfl, fun dir same => absurd (same.symm : some dir = none) (Option.some_ne_none dir)⟩
          | some next =>
            obtain ⟨found, named⟩ := ih _ (size ▸ skipelem_shorter step) ends' sized' rfl
            rw [if_neg (mt last.mpr done)] at found
            refine ⟨found, fun parent is => ?_⟩
            rw [more, List.getLast?_cons_cons, ← more]
            exact named parent is
      · rw [if_pos (by simp [dir])]
        refine ⟨?_, fun dir same => absurd (same.symm : some dir = none) (Option.some_ne_none dir)⟩
        cases others : elements rest with
        | nil =>
          show none = Option.filter tree.isDir (some ip)
          rw [Option.filter_some, if_neg dir]
        | cons elem others =>
          rw [List.dropLast_cons_cons, Tree.walk, if_neg dir]
          rfl

/-- `namei` goes from the root, or the working directory, along the elements of the path, each cut to `DIRSIZ` bytes. -/
theorem namei_walks (tree : Tree) (cwd : Nat) (path : List UInt8) (name : Name) (ends : 0 ∉ path)
    (sized : name.length = DIRSIZ) : namei tree cwd path name = tree.walk (startAt cwd path) (elements path) :=
  namexLoop_walks tree ends sized

/-- `/a` is a directory with a file `b`. -/
def tinyTree : Tree where
  isDir ip := ip ≤ 2
  entries ip :=
    if ip = 1 then [(2, 97 :: List.replicate 13 0)] else if ip = 2 then [(3, 98 :: List.replicate 13 0)] else []
  named dir entry member := by
    split at member
    · obtain rfl := List.mem_singleton.mp member
      rfl
    · split at member
      · obtain rfl := List.mem_singleton.mp member
        rfl
      · cases member

theorem namei_walks_tiny : tinyTree.walk (startAt 2 [47, 97, 47, 47, 98]) (elements [47, 97, 47, 47, 98]) = some 3 ∧
    namei tinyTree 2 [47, 97, 47, 47, 98] (List.replicate DIRSIZ 0) =
      tinyTree.walk (startAt 2 [47, 97, 47, 47, 98]) (elements [47, 97, 47, 47, 98]) :=
  ⟨by decide, namei_walks tinyTree 2 _ _ (by decide) rfl⟩

/-- `nameiparent` stops one element early, in a directory, and leaves the last element in `name`. -/
theorem nameiparent_walks (tree : Tree) (cwd : Nat) (path : List UInt8) (name : Name) (ends : 0 ∉ path)
    (sized : name.length = DIRSIZ) :
    (nameiparent tree cwd path name).1 =
        (if elements path = [] then none
          else (tree.walk (startAt cwd path) (elements path).dropLast).filter tree.isDir) ∧
      ∀ dir, (nameiparent tree cwd path name).1 = some dir →
        (elements path).getLast? = some (text (nameiparent tree cwd path name).2) :=
  namexLoop_parent tree ends sized

theorem nameiparent_walks_tiny : (tinyTree.walk (startAt 2 [98, 47]) (elements [98, 47]).dropLast).filter
      tinyTree.isDir = some 2 ∧
    (nameiparent tinyTree 2 [98, 47] (List.replicate DIRSIZ 0)).1 =
        (if elements [98, 47] = [] then none
          else (tinyTree.walk (startAt 2 [98, 47]) (elements [98, 47]).dropLast).filter tinyTree.isDir) ∧
      ∀ dir, (nameiparent tinyTree 2 [98, 47] (List.replicate DIRSIZ 0)).1 = some dir →
        (elements [98, 47]).getLast? = some (text (nameiparent tinyTree 2 [98, 47] (List.replicate DIRSIZ 0)).2) :=
  ⟨by decide, nameiparent_walks tinyTree 2 _ _ (by decide) rfl⟩

end Walks

end OsLabs.Path
