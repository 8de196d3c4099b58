import OsLabs.Inodes.RoundTrip

namespace OsLabs.Inodes
open ByteMemory

/-- The two tasks that write the image file. -/
inductive Task
  | create | insert
  deriving DecidableEq

/-- How a command has ended, and what the image file holds then. -/
structure Ending where
  exit : Option Exit
  imageFile : List UInt8

/-- `main` for an image file that exists. A `-create` has emptied the file with `fopen(…, "wb")` by
the time `place_file` is called; an `-insert` opens it for writing afterwards. -/
def runTask (task : Task) (heap : Heap) (n m : Int) (c : Command) (imageFile : List UInt8) : Ending :=
  match task with
  | .create =>
    let outfile : List UInt8 := []
    match mainCreate heap n m c with
    | .error e => ⟨some e, outfile⟩
    | .ok (rawdata, _) => ⟨none, outfile ++ imageBytes n rawdata⟩
  | .insert =>
    match mainInsert heap n m c imageFile with
    | .error e => ⟨some e, imageFile⟩
    | .ok (rawdata, _) =>
      let outfile : List UInt8 := []
      ⟨none, outfile ++ imageBytes n rawdata⟩

section Failing
variable {task : Task} {heap : Heap} {n m : Int} {c : Command} {imageFile : List UInt8} {e : Exit}

theorem runTask_create_failed (failed : (runTask .create heap n m c imageFile).exit = some e) :
    (runTask .create heap n m c imageFile).imageFile = [] := by
  unfold runTask at failed ⊢
  cases run : mainCreate heap n m c with
  | error e => rfl
  | ok placed => simp [run] at failed

theorem runTask_insert_failed (failed : (runTask .insert heap n m c imageFile).exit = some e) :
    (runTask .insert heap n m c imageFile).imageFile = imageFile := by
  unfold runTask at failed ⊢
  cases run : mainInsert heap n m c imageFile with
  | error e => rfl
  | ok placed => simp [run] at failed

/-- A command that fails in `place_file` leaves the image file alone exactly when it is an
`-insert` or the file was empty. -/
theorem failed_leaves_iff (failed : (runTask task heap n m c imageFile).exit = some e) :
    (runTask task heap n m c imageFile).imageFile = imageFile ↔ task = .insert ∨ imageFile = [] := by
  cases task with
  | create =>
    rw [runTask_create_failed failed]
    simp [eq_comm]
  | insert => simp [runTask_insert_failed failed]

end Failing

/-- An `-insert` without its input file. -/
theorem insert_without_input :
    (runTask .insert blankHeap 1 1 ⟨none, 1, 1, 0, 0⟩ [7]).imageFile = [7] ↔ Task.insert = .insert ∨ [7] = ([] : List UInt8) :=
  @failed_leaves_iff _ _ _ _ _ _ .fileNotFound rfl

/-- A `-create` without its input file leaves an empty image. -/
theorem create_without_input :
    (runTask .create blankHeap 1 1 ⟨none, 1, 1, 0, 0⟩ [7]).exit = some .fileNotFound ∧
    (runTask .create blankHeap 1 1 ⟨none, 1, 1, 0, 0⟩ [7]).imageFile ≠ [7] :=
  ⟨rfl, by decide⟩

end OsLabs.Inodes
