import LeftHand.Files.Path

/-! The files and folders that a command finds and leaves behind. -/

namespace LeftHand

/-- A directory from which a command is run, with all files and folders that there are. -/
structure Directory where
  files : List (Location × String)
  folders : List Location
  /-- The directory itself, from which paths start. -/
  home : Location
deriving DecidableEq, Repr

/-- Why a file cannot be used. -/
inductive FileError where
  | missing (path : String)
  | isDirectory (path : String)
  | isFile (path : String)
  | notDirectory (path : String)
deriving DecidableEq, Repr

/-- The report of a file error. -/
def FileError.message : FileError → String
  | missing path => "[Errno 2] No such file or directory: " ++ quoteText path
  | isDirectory path => "[Errno 21] Is a directory: " ++ quoteText path
  | isFile path => "[Errno 17] File exists: " ++ quoteText path
  | notDirectory path => "[Errno 20] Not a directory: " ++ quoteText path

/-- The folders on the way to a place, and the place itself. -/
def foldersTo : Location → List Location
  | [] => [[]]
  | name :: names => [] :: (foldersTo names).map (name :: ·)

/-- Goes from a place along some names. All that is left on the way must be a folder; otherwise the
way ends there. -/
def walk (folders : List Location) (place : Location) : List (List Char) → Except Location Location
  | [] => .ok place
  | name :: names =>
    if folders.contains place then walk folders (Path.step place name) names else .error place

namespace Directory

/-- A directory with some files, where there are no folders but those that they need. -/
def holding (files : List (Path × String)) (home : Location := []) : Directory :=
  let located := files.map fun (path, text) => (path.location home, text)
  { files := located
    folders := foldersTo home ++ located.flatMap fun (place, _) => foldersTo place.dropLast
    home }

/-- The text of the file at a place. -/
def text? (directory : Directory) (place : Location) : Option String :=
  (directory.files.find? (·.1 = place)).map (·.2)

/-- Follows a path. -/
def locate (directory : Directory) (path : Path) : Except FileError Location :=
  (walk directory.folders (path.start directory.home) path.parts).mapError fun blocked =>
    if (directory.text? blocked).isSome then .notDirectory path.text else .missing path.text

/-- Whether a path leads to a directory. -/
def isDirectory (directory : Directory) (path : Path) : Bool :=
  (directory.locate path).toOption.any directory.folders.contains

/-- Whether a path leads to a file. -/
def isFile (directory : Directory) (path : Path) : Bool :=
  (directory.locate path).toOption.any fun place => (directory.text? place).isSome

/-- Whether a path leads anywhere. -/
def contains (directory : Directory) (path : Path) : Bool :=
  directory.isFile path || directory.isDirectory path

/-- Why there is no file at a place where a path leads. -/
def noFile (directory : Directory) (path : Path) (place : Location) : FileError :=
  if directory.folders.contains place then .isDirectory path.text else .missing path.text

/-- The text of a file. -/
def read (directory : Directory) (path : Path) : Except FileError String := do
  let place ← directory.locate path
  match directory.text? place with
  | some text => return text
  | none => throw (directory.noFile path place)

/-- Takes away the file at a place. -/
def erase (directory : Directory) (place : Location) : Directory :=
  { directory with files := directory.files.filter (·.1 ≠ place) }

/-- Puts a file at a place, instead of the one that may be there. -/
def put (directory : Directory) (place : Location) (text : String) : Directory :=
  { directory with files := (place, text) :: (directory.erase place).files }

/-- Writes a file, which is made or replaced. -/
def write (directory : Directory) (path : Path) (text : String) : Except FileError Directory := do
  let place ← directory.locate path
  if directory.folders.contains place then throw (.isDirectory path.text)
  return directory.put place text

/-- Removes a file that must be there. -/
def remove (directory : Directory) (path : Path) : Except FileError Directory := do
  let place ← directory.locate path
  if (directory.text? place).isNone then throw (directory.noFile path place)
  return directory.erase place

/-- Makes a folder, unless it is there. -/
def makeFolder (directory : Directory) (path : Path) : Except FileError Directory := do
  let place ← directory.locate path
  if directory.folders.contains place then return directory
  if (directory.text? place).isSome then throw (.isFile path.text)
  return { directory with folders := place :: directory.folders }

/-- Makes a folder, and before it those that it needs; the names of its path are given from the last
to the first. -/
def makeFolders (directory : Directory) (isAbsolute : Bool) :
    List (List Char) → Except FileError Directory
  | [] => directory.makeFolder ⟨isAbsolute, []⟩
  | name :: above =>
    let path : Path := ⟨isAbsolute, (name :: above).reverse⟩
    match directory.makeFolder path with
    | .error (.missing _) => do (← directory.makeFolders isAbsolute above).makeFolder path
    | made => made

/-- Makes the folder in which a path leads to a file. -/
def makeParents (directory : Directory) (path : Path) : Except FileError Directory :=
  directory.makeFolders path.isAbsolute path.parent.parts.reverse

/-- The path to a place, from home if it is below. -/
def pathTo (directory : Directory) (place : Location) : Path :=
  if directory.home.isPrefixOf place then ⟨false, place.drop directory.home.length⟩
  else ⟨true, place⟩

/-- The paths of all files as texts, sorted. -/
def names (directory : Directory) : List String :=
  (directory.files.map fun (place, _) => (directory.pathTo place).text).mergeSort fun a b => !(b < a)

end Directory

end LeftHand
