import LeftHand.Command.Arguments

/-!
The command line. It compiles a program file, or with `--layout` in front it lays out files.

The commands themselves are pure; here files are read before them and written after them. What is
written is the code of the module: to make machine code of it is the work of another tool.
-/

namespace LeftHand

/-- The files that can be read, of those that are named. -/
def readFiles (names : List String) : IO Directory := do
  let mut files := []
  for name in names do
    try
      let text ← IO.FS.readFile name
      files := files ++ [(.ofText name, text)]
    catch _ => pure ()
  let home := Path.ofText (← IO.currentDir).toString
  return .holding files home.parts

/-- Writes the files that a command made or changed. -/
def writeFiles (before after : Directory) : IO Unit := do
  for (place, text) in after.files do
    unless before.files.contains (place, text) do
      let path : Path := ⟨true, place⟩
      IO.FS.createDirAll path.parent.text
      IO.FS.writeFile path.text text

/-- Says why a text has no parse. -/
def ParseError.report : ParseError → String
  | .unexpected place found _ => s!"Unexpected character {found} at column {place + 1}"
  | .unfinished _ => "Unexpected end of the text"
  | .ambiguous => "Ambiguities found in code"

/-- Says why a command failed, as far as it has not been printed yet. -/
def CommandError.report : CommandError → String
  | .compile (.source (.parse error)) => error.report
  | .compile (.fault (.reported ..)) => ""
  | .rejected => "The module is not valid"
  | error => error.message

/-- Prints and writes what a command left, and gives the status. -/
def finish (before : Directory) (status : Nat) (result : CommandResult) : IO UInt32 := do
  result.printed.forM IO.println
  writeFiles before result.directory
  match result.error with
  | none => return status.toUInt32
  | some error =>
    unless error.report.isEmpty do IO.eprintln error.report
    return 1

end LeftHand

open LeftHand in
/-- Runs the command that the arguments ask for. -/
def main : List String → IO UInt32
  | "--layout" :: arguments => do
    let before ← readFiles arguments
    let (status, result) := runFormat before arguments
    finish before status result
  | arguments => do
    let before ← readFiles arguments
    let (status, result) := runCompile .plain before arguments
    finish before status result
