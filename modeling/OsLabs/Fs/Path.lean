import Mathlib.Data.List.TakeWhile

namespace OsLabs.Path

def DIRSIZ : Nat := 14

def ROOTINO : Nat := 1

def slash : UInt8 := '/'.toUInt8

/-- `char name[DIRSIZ]`, ended by a zero when it is shorter. -/
abbrev Name := List UInt8

/-- `skipelem`: what follows the first element of `path`, and the name buffer with the element in it. -/
def skipelem (path : List UInt8) (name : Name) : Option (List UInt8 × Name) :=
  let path := path.dropWhile (· = slash)
  if path = [] then none
  else
    let elem := path.takeWhile (· ≠ slash)
    let path := path.dropWhile (· ≠ slash)
    let name := if DIRSIZ ≤ elem.length then elem.take DIRSIZ else elem ++ 0 :: name.drop (elem.length + 1)
    some (path.dropWhile (· = slash), name)

/-- `namecmp(s, t) == 0`, by `strncmp`. -/
def namecmp : Name → Name → Bool
  | c :: s, d :: t => if c ≠ 0 ∧ c = d then namecmp s t else c = d
  | _, _ => true

/-- `dirlookup` over the entries of a directory. -/
def dirlookup (name : Name) : List (Nat × Name) → Option Nat
  | [] => none
  | (inum, entry) :: entries =>
    if inum = 0 then dirlookup name entries
    else if namecmp name entry then some inum
    else dirlookup name entries

/-- The inodes: which are directories, and their entries. -/
structure Tree where
  isDir : Nat → Bool
  entries : Nat → List (Nat × Name)
  named : ∀ dir, ∀ entry ∈ entries dir, entry.2.length = DIRSIZ

theorem skipelem_shorter {path rest : List UInt8} {name name' : Name}
    (some : skipelem path name = some (rest, name')) :
    rest.length < path.length := by
  unfold skipelem at some
  dsimp only at some
  split at some
  · cases some
  rename_i more
  obtain ⟨rfl, -⟩ := Prod.mk.inj (Option.some.inj some)
  obtain ⟨c, tail, whole⟩ := List.exists_cons_of_ne_nil more
  have other : ¬ c = slash := by
    have first := List.head_dropWhile_not (· = slash) more
    simp only [whole, List.head_cons, decide_eq_false_iff_not] at first
    exact first
  have less : (path.dropWhile (· = slash)).length ≤ path.length := (List.dropWhile_sublist _).length_le
  have less' : (tail.dropWhile (· ≠ slash)).length ≤ tail.length := (List.dropWhile_sublist _).length_le
  have less'' := (List.dropWhile_sublist (l := tail.dropWhile (· ≠ slash)) (· = slash)).length_le
  rw [whole, List.length_cons] at less
  rw [whole, List.dropWhile_cons_of_pos (by simpa using other)]
  omega

/-- `namex`'s loop from the inode `ip` on, with what it leaves in `name`. -/
def namexLoop (tree : Tree) (nameiparent : Bool) (ip : Nat) (path : List UInt8) (name : Name) : Option Nat × Name :=
  match _step : skipelem path name with
  | none => (if nameiparent then none else some ip, name)
  | some (rest, name) =>
    if !tree.isDir ip then (none, name)
    else if nameiparent && rest.isEmpty then (some ip, name)
    else
      match dirlookup name (tree.entries ip) with
      | none => (none, name)
      | some next => namexLoop tree nameiparent next rest name
termination_by path.length
decreasing_by exact skipelem_shorter _step

/-- Where a path starts: at the root, or in the working directory. -/
def startAt (cwd : Nat) (path : List UInt8) : Nat := if path.head? = some slash then ROOTINO else cwd

section Calls
variable (tree : Tree) (cwd : Nat) (path : List UInt8) (name : Name)

def namex (nameiparent : Bool) : Option Nat × Name := namexLoop tree nameiparent (startAt cwd path) path name

/-- `name` is what the buffer on the stack holds. -/
def namei : Option Nat := (namex tree cwd path name false).1

def nameiparent : Option Nat × Name := namex tree cwd path name true

end Calls

/-! What a path means. -/

/-- The elements between the slashes, cut to `DIRSIZ` bytes. -/
def elements (path : List UInt8) : List (List UInt8) :=
  ((path.splitOn slash).filter (· ≠ [])).map (·.take DIRSIZ)

/-- The name in a buffer. -/
def text (name : Name) : List UInt8 := name.takeWhile (· ≠ 0)

/-- The inode that a directory has under a name. -/
def Tree.child (tree : Tree) (dir : Nat) (elem : List UInt8) : Option Nat :=
  ((tree.entries dir).find? fun entry => entry.1 ≠ 0 ∧ text entry.2 = elem).map Prod.fst

/-- From directory to directory along the elements. -/
def Tree.walk (tree : Tree) (ip : Nat) : List (List UInt8) → Option Nat
  | [] => some ip
  | elem :: rest => if tree.isDir ip then (tree.child ip elem).bind fun next => tree.walk next rest else none

end OsLabs.Path
