import LeftHand.Ast.Construct
import LeftHand.Lower.Program

/-! Scripts: modules built step by step, each step showing what it made. -/

namespace LeftHand

/-- Why a text or a program cannot be compiled. -/
inductive CompileError where
  | source (error : SourceError)
  | fault (fault : Fault)
deriving DecidableEq, Repr

/-- A step of a script. -/
inductive Step where
  | predefineAll
  | predefine (function : Predefined)
  | string (text name : String) (isCounted : Bool)
  | libc (libc : Libc)
  /-- The functions of a program text. -/
  | source (text : List Char)
  | function (function : Function)
  | wrapMain
  | renew

/-- What a step did: its result or its failure, and the names of the globals it added. -/
structure StepReport where
  outcome : Except CompileError (Option String)
  added : List String

/-- Runs a step of building, whose failure keeps what was done. -/
def Build.runOn {α : Type} (build : Build α) (session : Session) : Except Fault α × Session :=
  build.run.run session

/-- Runs a step. -/
def Step.run (isVerbose : Bool) (step : Step) (session : Session) :
    Except CompileError (Option String) × Session :=
  let build := fun (action : Build (Option String)) =>
    let (result, session) := action.runOn session
    (result.mapError .fault, session)
  match step with
  | .predefineAll => build do
    Predefined.addAll
    return none
  | .predefine ready => build do
    ready.add
    return some (functionName ready.name)
  | .string text name isCounted => build do
    return some (← Build.addString text name isCounted).text
  | .libc declared => build do
    return some (← Build.libc declared).text
  | .source text =>
    match readProgram text with
    | .error error => (.error (.source error), session)
    | .ok program => build do
      program.functions.forM (Build.function isVerbose)
      return none
  | .function written => build do
    Build.function isVerbose written
    return none
  | .wrapMain => build do
    Build.wrapMain
    return none
  | .renew => (.ok none, session.renew)

/-- Runs the steps of a script, with the names that each adds to the module. -/
def runScript (isVerbose : Bool) : List Step → Session → List StepReport × Session
  | [], session => ([], session)
  | step :: steps, session =>
    let (outcome, after) := step.run isVerbose session
    let before := if step matches .renew then [] else session.names
    let added := after.names.drop before.length
    let (reports, final) := runScript isVerbose steps after
    (⟨outcome, added⟩ :: reports, final)

/-- Builds the module of a program text in a session of its own or after others. -/
def compileText (isVerbose : Bool) (text : List Char) (session : Session) :
    Except CompileError Unit × Session :=
  match readProgram text with
  | .error error => (.error (.source error), session)
  | .ok program =>
    let (result, after) := (Build.program isVerbose program).runOn session.renew
    (result.mapError .fault, after)

/-- Builds the modules of program texts one after the other; counters and casts are kept. -/
def compileTexts : List (List Char) → Session →
    List (Except CompileError (List String) × List (String × Nat))
  | [], _ => []
  | text :: texts, session =>
    let (result, after) := compileText false text session
    (result.map fun _ => after.names, after.counters) :: compileTexts texts after

end LeftHand
