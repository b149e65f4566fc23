import LeftHand.Ast.View
import LeftHand.Ir.Code

/-! What can go wrong when a program is lowered to intermediate code. -/

namespace LeftHand

/-- A mistake in the program that is lowered. -/
inductive Diagnostic where
  | undeclared (name : String)
  | redeclared (name : String)
  | noTarget
  | notPointer
  | noFunction (name : String)
  | notFunction (name : String)
  | wrongCount (name : String) (expected given : Nat)
  | incomparable (lhs rhs : Ir.Ty)
  | wrongType (expected given : Ir.Ty)
  | untyped
  | twoPointers
  | noReturn
  | unknownStatement (kind : String)
  | unknownExpression (kind : String)
  | unknownType (kind : String)
  | noStart
deriving DecidableEq, Repr

/-- The report of a mistake. -/
def Diagnostic.message : Diagnostic → String
  | undeclared name => s!"Variable '{name}' not declared in this scope"
  | redeclared name => s!"Variable '{name}' already declared"
  | noTarget => "Variable assignment failed"
  | notPointer => "Cannot dereference non-pointer type"
  | noFunction name => s!"Function '{name}' not found"
  | notFunction name => s!"'{name}' is not a function"
  | wrongCount name expected given =>
    s!"Function '{name}' expects {expected} arguments, got {given}"
  | incomparable lhs rhs => s!"Cannot compare {lhs.text} and {rhs.text}"
  | wrongType expected given => s!"Expected type {expected.text}, got {given.text}"
  | untyped => "Value has no type: untyped"
  | twoPointers => "Cannot add or subtract two pointer types"
  | noReturn => "Non-v@1d function must end with a return statement"
  | unknownStatement kind => s!"Unknown statement: {kind}"
  | unknownExpression kind => s!"Unknown expression: {kind}"
  | unknownType kind => s!"Unknown type: {kind}"
  | noStart => "No valid 'start' function found"

/-- Why lowering stops. -/
inductive Fault where
  /-- A mistake was reported; `isRaised` tells whether it is passed on to the caller or ends the
  program. -/
  | reported (diagnostic : Diagnostic) (pos : Pos) (isRaised : Bool)
  /-- Code that can never be formed: a pointer to void, or a second end of a block. -/
  | impossible
  | duplicate (name : String)
  | missing (name : String)
  | notCallable (type : Ir.Ty)
  | argumentType (position : Nat) (expected given : Ir.Ty)
  | storeNoPointer (type : Ir.Ty) (target : String)
  | storeType (value target : Ir.Ty)
deriving DecidableEq, Repr

/-- The line that a reported mistake prints. -/
def Diagnostic.line (diagnostic : Diagnostic) (pos : Pos) : String :=
  s!"Error: {diagnostic.message} at {pos.line}:{pos.column}"

/-- The text of a fault. -/
def Fault.message : Fault → String
  | reported diagnostic pos isRaised =>
    if isRaised then diagnostic.message else diagnostic.line pos
  | impossible => ""
  | duplicate name => name
  | missing name => quoteText name
  | notCallable type => s!"Not a function: {type.text}"
  | argumentType position expected given =>
    s!"Type of #{position} arg mismatch: {expected.text} != {given.text}"
  | storeNoPointer type target =>
    s!"cannot store to value of type {type.text} ({quoteText target}): not a pointer"
  | storeType value target => s!"cannot store {value.text} to {target.text}: mismatching types"

/-- The line that a fault prints. -/
def Fault.printed? : Fault → Option String
  | reported diagnostic pos _ => some (diagnostic.line pos)
  | _ => none

end LeftHand
