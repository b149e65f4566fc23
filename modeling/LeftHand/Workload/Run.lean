import LeftHand.Ast.Outline
import LeftHand.Format.Layout
import LeftHand.Workload.Samples

/-!
Work of a chosen size for timing the parts of the compiler. Each kind of work gives figures that
show what was done.
-/

namespace LeftHand

/-- A kind of work. -/
inductive Workload where
  /-- Cuts a text of a number of characters. -/
  | split
  /-- Lays out a number of lines. -/
  | layout
  /-- Builds a number of phrases. -/
  | phrases
  /-- Lowers a program with a number of functions beside the start function; below zero the start
  function has less to do. -/
  | lowering
  /-- Lowers an expression of a depth. -/
  | expression
  /-- Finds all the mistakes a number of times. -/
  | recovery
  /-- Outlines a program of a number of parts. -/
  | outline
deriving DecidableEq, Repr

namespace Workload

/-- A line of statements, in which some ends stand inside a string. -/
def splitSample : List Char :=
  "dect x$ x ass `he$$o`$ 1f trve %s bass$ !s exec f %e!e$ ".toList

/-- The first characters of a text that is repeated for ever. -/
def repeatTo (text : List Char) (length : Nat) : List Char :=
  ((List.replicate (length / text.length + 1) text).flatten).take length

/-- A line that is laid out in eight rows. -/
def layoutSample : List Char :=
  "def dect f %s dect x$ x ass %d1!d$ 1f trve %s bass$ !s ret x$ !s\n".toList

/-- A number of lines at a width of eighty. -/
def layoutLength (lines : Nat) : Nat :=
  ((layoutText? 80 (List.replicate lines layoutSample).flatten).map List.length).getD 0

/-- Figures as a value. -/
def figures (numbers : List Nat) : Datum :=
  .list (numbers.map fun (n : Nat) => .int n)

/-- Does the work once. A size below zero is no work, except that lowering has rounds left to drop.
Only the search for mistakes leaves something behind for the next time. -/
def run (work : Workload) (size : Int) : Build Datum := do
  let count := size.toNat
  match work with
  | split =>
    let parts := splitStatements (repeatTo splitSample count)
    return .list (parts.map fun part => .text (.ofList part))
  | layout => return .int (layoutLength count)
  | phrases =>
    match phrase? count with
    | some (.ok item) => return .list [.int count, item.toDatum]
    | _ => return .list [.int count, .null]
  | lowering =>
    let rounds := (size + startRounds).toNat
    let (result, session) := (Build.program false (countingProgram rounds)).run.run {}
    match result with
    | .ok _ => return figures [codeLines session.globals, session.globals.length]
    | .error fault => throw fault
  | expression =>
    match ((lowerSamples count).run.run (sampleDraft {})).1 with
    | .ok (every, nested, type) => return .list [.int every, .int nested, .text type.text]
    | .error fault => throw fault
  | recovery =>
    let (result, session) := (Build.function false badReturn).run.run (← get)
    set session
    match result with
    | .error (.reported ..) => return .int (1 + count * foundMistakes {} : Nat)
    | .error fault => throw fault
    | .ok _ => return .int 0
  | outline =>
    let program := outlinedProgram count
    if count = 0 then return figures [0, 0]
    else return figures [program.toDatum.outline.size, program.functions.length]

/-- Does the work a number of times. -/
def runs (work : Workload) (size : Int) : (times : Nat) → Session → List (Except Fault Datum)
  | 0, _ => []
  | times + 1, session =>
    let (result, session) := (work.run size).run.run session
    result :: work.runs size times session

end Workload

end LeftHand
