import LeftHand.Files.Directory
import LeftHand.Proofs.Lower.Success

/-!
Files are told apart by where their paths lead, however these are spelled. A file that is written
can be read, and no other file changes.
-/

namespace LeftHand

open List

/-- Where a suffix is put on: behind the stem of the last name. -/
theorem Path.exists_of_withSuffix {path target : Path} {suffix : String}
    (named : path.withSuffix suffix = .ok target) :
    ∃ front name, path.parts = front ++ [name] ∧
      target = { path with parts := front ++ [(splitSuffix name).1 ++ suffix.toList] } := by
  rw [withSuffix] at named
  split at named
  · cases named
  split at named
  · cases named
  · rename_i name last
    obtain ⟨front, parts⟩ := getLast?_eq_some_iff.mp last
    refine ⟨front, name, parts, ?_⟩
    simpa [parts, eq_comm] using named

section Walk

variable {folders : List Location} {place found : Location}

@[simp] theorem walk_cons {name : List Char} {names : List (List Char)} :
    walk folders place (name :: names) = .ok found ↔
      place ∈ folders ∧ walk folders (Path.step place name) names = .ok found := by
  rw [walk]
  split <;> simp_all

theorem foldl_step_eq {names : List (List Char)} (walked : walk folders place names = .ok found) :
    names.foldl Path.step place = found := by
  induction names generalizing place with
  | nil => exact Except.ok.inj walked
  | cons name names ih => exact ih (walk_cons.mp walked).2

/-- Whether there is a way depends on all names but the last. -/
theorem exists_walk {front : List (List Char)} {name : List Char}
    (walked : walk folders place (front ++ [name]) = .ok found) (other : List Char) :
    ∃ beside, walk folders place (front ++ [other]) = .ok beside := by
  induction front generalizing place with
  | nil => exact ⟨_, walk_cons.mpr ⟨(walk_cons.mp walked).1, rfl⟩⟩
  | cons first front ih =>
    obtain ⟨isFolder, walked⟩ := walk_cons.mp walked
    obtain ⟨beside, again⟩ := ih walked
    exact ⟨beside, walk_cons.mpr ⟨isFolder, again⟩⟩

end Walk

namespace Directory

variable {directory changed : Directory} {path : Path} {place : Location} {text : String}

theorem locate_eq_ok : directory.locate path = .ok place ↔
    walk directory.folders (path.start directory.home) path.parts = .ok place :=
  mapError_eq_ok

/-- A path can lead to one place only, whatever is there. -/
theorem location_eq (located : directory.locate path = .ok place) :
    path.location directory.home = place :=
  foldl_step_eq (locate_eq_ok.mp located)

/-- Files that come or go are in nobody's way. -/
theorem locate_put {found : Location} : (directory.put place text).locate path = .ok found ↔
    directory.locate path = .ok found := by
  rw [locate_eq_ok, locate_eq_ok, put]

theorem locate_erase {found : Location} : (directory.erase place).locate path = .ok found ↔
    directory.locate path = .ok found := by
  rw [locate_eq_ok, locate_eq_ok, erase]

theorem isFile_eq_true : directory.isFile path = true ↔
    ∃ place, directory.locate path = .ok place ∧ (directory.text? place).isSome := by
  rw [isFile]
  cases directory.locate path <;> simp [Except.toOption]

theorem text?_erase (directory : Directory) (place other : Location) :
    (directory.erase place).text? other =
      if other = place then none else directory.text? other := by
  rw [text?, text?, erase, find?_filter]
  split
  · rename_i same
    simp [same]
  · rename_i apart
    -- An entry of another place is none of those that are taken out.
    congr 2
    funext entry
    by_cases here : entry.1 = other <;> simp [here, apart]

/-- A file that is put somewhere is there, and all others are as they were. -/
theorem text?_put (directory : Directory) (place : Location) (text : String) (other : Location) :
    (directory.put place text).text? other =
      if other = place then some text else directory.text? other := by
  rw [text?, put, find?_cons]
  by_cases here : other = place
  · simp [here]
  · have erased := text?_erase directory place other
    rw [if_neg here] at erased ⊢
    rw [← erased, text?]
    simp [Ne.symm here]

theorem write_eq_ok : directory.write path text = .ok changed ↔
    ∃ place, directory.locate path = .ok place ∧ directory.folders.contains place = false ∧
      changed = directory.put place text := by
  rw [write, bind_eq_ok]
  refine exists_congr fun place => and_congr_right fun _ => ?_
  cases directory.folders.contains place with
  | true => simp [throw, throwThe, MonadExceptOf.throw, Bind.bind, Except.bind]
  | false => simp [Pure.pure, Except.pure, eq_comm]

theorem read_eq_ok : directory.read path = .ok text ↔
    ∃ place, directory.locate path = .ok place ∧ directory.text? place = some text := by
  rw [read, bind_eq_ok]
  refine exists_congr fun place => and_congr_right fun _ => ?_
  cases directory.text? place <;> simp [throw, throwThe, MonadExceptOf.throw, Pure.pure, Except.pure]

theorem read_write (written : directory.write path text = .ok changed) :
    changed.read path = .ok text := by
  obtain ⟨place, located, _, rfl⟩ := write_eq_ok.mp written
  exact read_eq_ok.mpr ⟨place, locate_put.mpr located, by simp [text?_put]⟩

theorem contains_of_read (found : directory.read path = .ok text) :
    directory.contains path = true := by
  obtain ⟨place, located, here⟩ := read_eq_ok.mp found
  rw [contains, isFile_eq_true.mpr ⟨place, located, by simp [here]⟩, Bool.true_or]

/-- Beside a file that can be read, a file can be written. -/
theorem exists_write {target : Path} {old suffix : String} (found : directory.read path = .ok old)
    (named : path.withSuffix suffix = .ok target) (free : directory.isDirectory target = false)
    (text : String) : ∃ after, directory.write target text = .ok after := by
  obtain ⟨front, name, parts, rfl⟩ := Path.exists_of_withSuffix named
  obtain ⟨place, located, _⟩ := read_eq_ok.mp found
  rw [locate_eq_ok, parts] at located
  obtain ⟨beside, walked⟩ := exists_walk located ((splitSuffix name).1 ++ suffix.toList)
  let target : Path := { path with parts := front ++ [(splitSuffix name).1 ++ suffix.toList] }
  have there : directory.locate target = .ok beside := locate_eq_ok.mpr walked
  refine ⟨_, write_eq_ok.mpr ⟨beside, there, ?_, rfl⟩⟩
  simpa [isDirectory, target, there, Except.toOption] using free

/-- Folders are made without touching any file. -/
theorem makeFolder_files (made : directory.makeFolder path = .ok changed) :
    changed.files = directory.files ∧ changed.home = directory.home := by
  obtain ⟨place, _, made⟩ := bind_eq_ok.mp made
  split at made
  · cases made
    exact ⟨rfl, rfl⟩
  · split at made
    · cases made
    · cases made
      exact ⟨rfl, rfl⟩

theorem makeFolders_files {isAbsolute : Bool} {names : List (List Char)}
    (made : directory.makeFolders isAbsolute names = .ok changed) :
    changed.files = directory.files ∧ changed.home = directory.home := by
  induction names generalizing changed with
  | nil => exact makeFolder_files made
  | cons name above ih =>
    rw [makeFolders] at made
    split at made
    · obtain ⟨between, madeAbove, made⟩ := bind_eq_ok.mp made
      obtain ⟨files, home⟩ := makeFolder_files made
      rw [files, home]
      exact ih madeAbove
    · exact makeFolder_files made

end Directory

end LeftHand
