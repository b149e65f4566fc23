import LeftHand.Text.Quoted

/-! Paths of files, where they lead, and the replacement of their suffix. -/

namespace LeftHand

/-- A path: the names of the directories on the way, and last the name of the file. -/
structure Path where
  isAbsolute : Bool
  parts : List (List Char)
deriving DecidableEq, Repr

/-- Where something is: the names on the way from the root. -/
abbrev Location := List (List Char)

/-- Why a suffix cannot be put on a path. -/
inductive PathError where
  | badSuffix (suffix : String)
  | noName (path : String)
deriving DecidableEq, Repr

/-- The report of a path error. -/
def PathError.message : PathError → String
  | badSuffix suffix => "Invalid suffix " ++ quoteText suffix
  | noName path => "PosixPath(" ++ quoteText path ++ ") has an empty name"

/-- The pieces of a text between separators. -/
def splitOnChar (separator : Char) : List Char → List (List Char)
  | [] => [[]]
  | c :: rest =>
    if c = separator then [] :: splitOnChar separator rest
    else
      match splitOnChar separator rest with
      | [] => [[c]]
      | piece :: pieces => (c :: piece) :: pieces

/-- A name before and from its suffix on. The suffix starts at the last dot, unless that is the
first or the last character. -/
def splitSuffix (name : List Char) : List Char × List Char :=
  let last := (name.reverse.takeWhile (· != '.')).length
  let stem := name.length - last - 1
  if last < name.length ∧ 0 < stem ∧ 0 < last then (name.take stem, name.drop stem) else (name, [])

namespace Path

/-- Reads a path; empty names and single dots say nothing. -/
def ofText (text : String) : Path :=
  ⟨text.toList.head? == some '/',
   (splitOnChar '/' text.toList).filter fun part => part != [] && part != ['.']⟩

/-- A path as text. -/
def text (path : Path) : String :=
  match path.isAbsolute, path.parts with
  | false, [] => "."
  | isAbsolute, parts =>
    (if isAbsolute then "/" else "") ++ "/".intercalate (parts.map String.ofList)

/-- Where a name leads from a place: one dot stays there, two dots lead back. -/
def step (place : Location) (name : List Char) : Location :=
  if name = ['.'] then place
  else if name = ['.', '.'] then place.dropLast
  else place ++ [name]

/-- Where a path starts; only an absolute one does not start at home. -/
def start (home : Location) (path : Path) : Location :=
  if path.isAbsolute then [] else home

/-- Where a path leads. -/
def location (home : Location) (path : Path) : Location :=
  path.parts.foldl step (path.start home)

/-- The path of the directory that holds the file. -/
def parent (path : Path) : Path :=
  { path with parts := path.parts.dropLast }

/-- The path with another suffix, or without one. -/
def withSuffix (path : Path) (suffix : String) : Except PathError Path :=
  let chars := suffix.toList
  if chars.contains '/' || (chars != [] && chars.head? != some '.') || chars == ['.'] then
    .error (.badSuffix suffix)
  else
    match path.parts.getLast? with
    | none => .error (.noName path.text)
    | some name =>
      .ok { path with parts := path.parts.dropLast ++ [(splitSuffix name).1 ++ chars] }

end Path

end LeftHand
