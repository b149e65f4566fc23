import LeftHand.Command.Format
import LeftHand.Text.Numeral

/-! Command lines: options that start with dashes, in any order, among other arguments. -/

namespace LeftHand

/-- The options of a command: switches that can be put on and off, and options with a value. -/
structure OptionNames where
  switches : List String
  values : List String

/-- A command line taken apart. -/
structure Arguments where
  plain : List String := []
  switches : List (String × Bool) := []
  values : List (String × String) := []
  wantsHelp : Bool := false
deriving DecidableEq, Repr

namespace Arguments

/-- An argument as an option and the value attached to it with an equals sign. -/
def splitEquals (argument : String) : String × Option String :=
  let chars := argument.toList
  let name := chars.takeWhile (· != '=')
  match chars.drop name.length with
  | [] => (argument, none)
  | _ :: value => (String.ofList name, some (String.ofList value))

/-- The switch that an option sets, and whether it puts it on. -/
def switch? (names : OptionNames) (option : String) : Option (String × Bool) :=
  names.switches.findSome? fun name =>
    if option = "--" ++ name then some (name, true)
    else if option = "--no-" ++ name then some (name, false)
    else none

/-- The option with a value. -/
def value? (names : OptionNames) (option : String) : Option String :=
  names.values.find? fun name => option = "--" ++ name

/-- What a single argument says. -/
inductive Meaning where
  | plain
  | endOfOptions
  | switch (name : String) (isOn : Bool)
  | value (name value : String)
  /-- The value follows as the next argument. -/
  | awaiting (name : String)
  | help
  | unknown

/-- What an argument says by itself. -/
def meaning (names : OptionNames) (argument : String) : Meaning :=
  let (option, attached) := splitEquals argument
  if argument = "--" then .endOfOptions
  else if argument.toList.head? ≠ some '-' ∨ argument = "-" then .plain
  else
    match switch? names option, value? names option, attached with
    | some (name, isOn), _, none => .switch name isOn
    | none, some name, some value => .value name value
    | none, some name, none => .awaiting name
    | none, none, none => if option = "--help" then .help else .unknown
    | _, _, _ => .unknown

/-- Takes a command line apart; an option that there is not, or a value missing or too many, makes
it unusable. Behind two dashes nothing is an option. -/
def read? (names : OptionNames) : List String → Option Arguments
  | [] => some {}
  | argument :: rest =>
    match meaning names argument with
    | .plain =>
      (read? names rest).map fun later => { later with plain := argument :: later.plain }
    | .endOfOptions => some { plain := rest }
    | .switch name isOn =>
      (read? names rest).map fun later => { later with switches := (name, isOn) :: later.switches }
    | .value name value =>
      (read? names rest).map fun later => { later with values := (name, value) :: later.values }
    | .awaiting name =>
      match rest with
      | [] => none
      | value :: rest =>
        (read? names rest).map fun later => { later with values := (name, value) :: later.values }
    | .help => (read? names rest).map fun later => { later with wantsHelp := true }
    | .unknown => none

/-- The last setting of a switch. -/
def switch (arguments : Arguments) (name : String) (default : Bool) : Bool :=
  (arguments.switches.reverse.lookup name).getD default

/-- The last value of an option. -/
def value (arguments : Arguments) (name default : String) : String :=
  (arguments.values.reverse.lookup name).getD default

/-- The last value of an option that must be a number. -/
def number? (arguments : Arguments) (name : String) (default : Int) : Option Int :=
  match arguments.values.reverse.lookup name with
  | none => some default
  | some text => (readNumeral text.toList).toOption

end Arguments

/-- What a command line asks for. -/
inductive Request (α : Type) where
  | run (command : α)
  | help
  | misuse

/-- Reads the command line of the compiler: the input, and after it perhaps the output. -/
def compileRequest (arguments : List String) : Request (CompileOptions × Path) :=
  match Arguments.read? ⟨["asm", "verbose", "build"], ["opt"]⟩ arguments with
  | none => .misuse
  | some arguments =>
    if arguments.wantsHelp then .help
    else
      match arguments.number? "opt" 2, arguments.plain with
      | some opt, input :: rest =>
        let options : CompileOptions :=
          { isAsm := arguments.switch "asm" false
            isVerbose := arguments.switch "verbose" false
            isBuild := arguments.switch "build" true
            opt }
        match rest with
        | [] => .run (options, .ofText input)
        | [output] => .run ({ options with output := .ofText output }, .ofText input)
        | _ => .misuse
      | _, _ => .misuse

/-- Reads the command line of the layout command: one file or more. -/
def formatRequest (arguments : List String) : Request (FormatOptions × List Path) :=
  match Arguments.read? ⟨[], ["suffix", "wrap"]⟩ arguments with
  | none => .misuse
  | some arguments =>
    if arguments.wantsHelp then .help
    else
      match arguments.number? "wrap" 120, arguments.plain with
      | some width, file :: files =>
        .run (⟨arguments.value "suffix" "", width⟩, (file :: files).map .ofText)
      | _, _ => .misuse

/-- The status with which a failed command ends by itself. -/
def CommandError.status? : CommandError → Option Nat
  | .refused => some 1
  | .compile (.source (.parse .ambiguous)) => some 1
  | .compile (.fault (.reported _ _ false)) => some 1
  | _ => none

/-- Runs the compiler with a command line; without an error the status is given. -/
def runCompile (console : Console) (directory : Directory) (arguments : List String) :
    Nat × CommandResult :=
  match compileRequest arguments with
  | .misuse => (2, { directory })
  | .help => (0, { directory })
  | .run (options, input) =>
    let result := compileFile console options directory input
    ((result.error.bind CommandError.status?).getD 0, result)

/-- Runs the layout command with a command line. -/
def runFormat (directory : Directory) (arguments : List String) : Nat × CommandResult :=
  match formatRequest arguments with
  | .misuse => (2, { directory })
  | .help => (0, { directory })
  | .run (options, files) => (0, formatFiles options directory files)

/-- Reads and parses a file. -/
def parseFile (directory : Directory) (file : Path) : Except CommandError Tree := do
  let text ← (directory.read file).mapError .file
  (parse (unifyNewlines text.toList)).mapError fun error => .compile (.source (.parse error))

/-- The sample that the parser shows when it is run alone. -/
def samplePath : Path :=
  .ofText "1eft~srcs/13!1eft"

end LeftHand
