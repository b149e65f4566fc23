import LeftHand.Ast.Outline
import LeftHand.Files.Directory
import LeftHand.Ir.Accept
import LeftHand.Lower.Script
import LeftHand.Text.Newline

/-! The command that compiles a program file. -/

namespace LeftHand

/-- How to compile. -/
structure CompileOptions where
  output : Path := .ofText "1eft_out"
  /-- Whether to stop at assembly code. -/
  isAsm : Bool := false
  isVerbose : Bool := false
  /-- Whether to go on after the program has been read. -/
  isBuild : Bool := true
  /-- How hard to optimize, from 0 to 3. -/
  opt : Int := 2
deriving DecidableEq, Repr

/-- Why a command fails. -/
inductive CommandError where
  /-- The command was refused with a message. -/
  | refused
  | compile (error : CompileError)
  /-- The code generator refused the module. -/
  | rejected
  | file (error : FileError)
  | path (error : PathError)
  /-- The linker could not write its output. -/
  | unlinked (output object : String)
  /-- The console refused a line. -/
  | unshown (line : String)
  /-- The console refused the outline of the program. -/
  | unshownOutline
  /-- Rows have no width. -/
  | noWidth
deriving DecidableEq, Repr

/-- The report of a failed command; it is empty where the command has printed all there is to say,
or where what was said is up to others. -/
def CommandError.message : CommandError → String
  | .refused | .rejected | .unshown _ | .unshownOutline => ""
  | .compile (.source (.parse _)) => ""
  | .compile (.source (.visit error)) => error.cause.message
  | .compile (.fault reason) => reason.message
  | .file error => error.message
  | .path error => error.message
  | .unlinked output object =>
    let command := ", ".intercalate (["cc", "-o", output, object].map quoteText)
    s!"Command '[{command}]' returned non-zero exit status 1."
  | .noWidth => "integer modulo by zero"

/-- What shows lines and outlines. It takes some of the text in them for markup, which may be
broken. -/
structure Console where
  /-- What is seen of a line, unless its markup is broken. Beside what the line says, its first word
  has a colour. -/
  line? : String → Option String
  /-- Whether the markup of an outline is sound. -/
  shows : Outline → Bool

/-- A console that knows no markup. -/
def Console.plain : Console :=
  ⟨some, fun _ => true⟩

/-- What a command left behind. -/
structure CommandResult where
  /-- The lines that were shown. -/
  printed : List String := []
  directory : Directory
  error : Option CommandError := none

/-- Shows one more line, or fails if that cannot be shown. -/
def CommandResult.say (console : Console) (line : String) (result : CommandResult) : CommandResult :=
  if (console.line? line).isSome then { result with printed := result.printed ++ [line] }
  else { result with error := some (.unshown line) }

/-- The line that reports success. -/
def successLine (written : String) : String :=
  "Success: Output written to " ++ written

/-- Removes the object file of an output. A failure is no more than a warning. -/
def removeObject (console : Console) (directory : Directory) (output : Path) : CommandResult :=
  let warn := fun text =>
    CommandResult.say console ("Warning: Could not remove object file: " ++ text) { directory }
  match output.withSuffix ".o" with
  | .error error => warn error.message
  | .ok object =>
    match directory.remove object with
    | .error error => warn error.message
    | .ok directory => { directory }

/-- Writes the assembly code of a module. -/
def emitAsm (console : Console) (directory : Directory) (output : Path) (code : String) :
    CommandResult :=
  match output.withSuffix ".s" with
  | .error error => { directory, error := some (.path error) }
  | .ok target =>
    match directory.write target code with
    | .error error => { directory, error := some (.file error) }
    | .ok directory => .say console (successLine target.text) { directory }

/-- Writes an object file, links it to an executable file and removes it again. -/
def emitExecutable (console : Console) (directory : Directory) (output : Path) (code : String) :
    CommandResult :=
  match output.withSuffix ".o", output.withSuffix "" with
  | .error error, _ | _, .error error => { directory, error := some (.path error) }
  | .ok object, .ok target =>
    match directory.write object code with
    | .error error => { directory, error := some (.file error) }
    | .ok withObject =>
      match withObject.write target code with
      | .error _ =>
        { directory := withObject, error := some (.unlinked target.text object.text) }
      | .ok linked =>
        let removed := removeObject console linked output
        if removed.error.isSome then removed
        else removed.say console (successLine output.text)

/-- Writes what a module is compiled to, in a folder that may have to be made first. -/
def emitFiles (console : Console) (options : CompileOptions) (directory : Directory)
    (globals : List Ir.Global) : CommandResult :=
  let code := Ir.moduleText globals
  if !globals.all Ir.Global.isAccepted then { directory, error := some .rejected }
  else
    match directory.makeParents options.output with
    | .error error => { directory, error := some (.file error) }
    | .ok directory =>
      if options.isAsm then emitAsm console directory options.output code
      else emitExecutable console directory options.output code

/-- Ends a failed compilation, which may have a line to show. -/
def CompileError.fail (console : Console) (directory : Directory) (error : CompileError) :
    CommandResult :=
  let result : CommandResult := { directory, error := some (.compile error) }
  match error with
  | .source _ => result
  | .fault reason =>
    match reason.printed? with
    | none => result
    | some line => result.say console line

/-- Compiles a program text. -/
def compileSource (console : Console) (options : CompileOptions) (directory : Directory)
    (text : List Char) : CommandResult :=
  match readProgram text with
  | .error error => CompileError.fail console directory (.source error)
  | .ok program =>
    if options.isVerbose && !console.shows program.toDatum.outline then
      { directory, error := some .unshownOutline }
    else if !options.isBuild then { directory }
    else
      match (Build.program options.isVerbose program).runOn {} with
      | (.error fault, _) => CompileError.fail console directory (.fault fault)
      | (.ok _, session) => emitFiles console options directory session.globals

/-- Compiles a program file. -/
def compileFile (console : Console) (options : CompileOptions) (directory : Directory)
    (input : Path) : CommandResult :=
  let refuse := fun text =>
    CommandResult.say console ("Error: " ++ text) { directory, error := some .refused }
  if !directory.contains input then refuse s!"Input file {input.text} does not exist"
  else if options.opt < 0 ∨ 3 < options.opt then
    refuse "Optimization level must be between 0 and 3"
  else
    match directory.read input with
    | .error error => { directory, error := some (.file error) }
    | .ok text => compileSource console options directory (unifyNewlines text.toList)

end LeftHand
