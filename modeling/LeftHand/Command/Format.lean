import LeftHand.Command.Compile
import LeftHand.Format.Layout

/-! The command that lays out program files. -/

namespace LeftHand

/-- How to lay out files: the width of a row, and the suffix of the files that are written. -/
structure FormatOptions where
  suffix : String := ""
  width : Int := 120
deriving DecidableEq, Repr

/-- Lays out one file that is there. -/
def formatFile (options : FormatOptions) (directory : Directory) (file : Path) :
    Except CommandError Directory := do
  let text ← (directory.read file).mapError .file
  match layoutText? options.width text.toList with
  | none => throw .noWidth
  | some layout =>
    let target ← (file.withSuffix options.suffix).mapError .path
    (directory.write target (String.ofList layout)).mapError .file

/-- Lays out files one after the other, up to the first failure. -/
def formatFiles (options : FormatOptions) : Directory → List Path → CommandResult
  | directory, [] => { directory }
  | directory, file :: files =>
    if !directory.contains file then
      let rest := formatFiles options directory files
      { rest with printed := s!"File {file.text} does not exist" :: rest.printed }
    else
      match formatFile options directory file with
      | .error error => { directory, error := some error }
      | .ok directory => formatFiles options directory files

end LeftHand
