import LeftHand.Lower.Predefined

/-!
Lowering of types and expressions.

Operands are evaluated from left to right, and only then checked against each other.
-/

namespace LeftHand

/-- The report about a node that is no type: nodes of type kind stand where they are, others at the
start of the text. -/
def unknownTypeFault (isRaised : Bool) (node : Datum) : Fault :=
  match node with
  | .node kind pos _ =>
    if kind.isType then .reported (.unknownType kind.className) pos isRaised
    else .reported (.unknownType node.written) ⟨1, 1⟩ isRaised
  | _ => .reported (.unknownType node.written) ⟨1, 1⟩ isRaised

/-- The type of the code's values for a type of the language. There is no pointer to void. -/
def lowerType (isRaised : Bool) : Ty → Except Fault Ir.Ty
  | .void _ => .ok .void
  | .decimal _ => .ok .i64
  | .boolean _ => .ok .i1
  | .char _ => .ok .i8
  | .pointer _ base => do
    match ← lowerType isRaised base with
    | .void => throw .impossible
    | type => return .pointer type
  | .unknown node => .error (unknownTypeFault isRaised node)

/-- The type of the code's values for a kind of type that is named without a place. -/
def lowerTypeKind (isRaised : Bool) : NodeKind → Except Fault Ir.Ty
  | .voidType => .ok .void
  | .decimalType => .ok .i64
  | .booleanType => .ok .i1
  | .charType => .ok .i8
  | kind => .error (.reported (.unknownType kind.className) ⟨1, 1⟩ isRaised)

/-- Refuses a value of another type. -/
def checkType (isRaised : Bool) (given expected : Ir.Ty) (pos : Pos) : Except Fault Unit :=
  if given = expected then .ok () else .error (.reported (.wrongType expected given) pos isRaised)

/-- Refuses a constant unless it has the expected type. No constant is void, and a value that has no
type at all is reported as such. -/
def checkConstant (isRaised : Bool) (given : Option Ir.Ty) (expected : Ir.Ty) (pos : Pos) :
    Except Fault Unit :=
  match given with
  | none => .error (.reported .untyped pos isRaised)
  | some .void => .error .impossible
  | some given => checkType isRaised given expected pos

/-- The variables in scope, each with the address of its memory; the latest stands first. -/
abbrev Env := List (String × Ir.Value)

/-- Runs a check while code is written. -/
def Emit.check {α : Type} : Except Fault α → Emit α
  | .ok value => pure value
  | .error fault => throw fault

/-- The memory of a variable. -/
def lookupName (isVerbose : Bool) (env : Env) (ident : Ident) : Emit Ir.Value :=
  match env.lookup ident.text with
  | some address => pure address
  | none => Emit.report isVerbose (.undeclared ident.text) ident.pos

/-- An operation on two values of one type. -/
def lowerArith (isVerbose : Bool) (pos : Pos) (type : Ir.Ty) (op : Ir.Arith) (name : String)
    (lhs rhs : Ir.Value) : Emit Ir.Value := do
  Emit.check (checkType isVerbose lhs.type type pos)
  Emit.check (checkType isVerbose rhs.type type pos)
  Emit.instr name (.arith op lhs rhs)

/-- A comparison by order, which only numbers have. -/
def lowerOrder (isVerbose : Bool) (pos : Pos) (op : Ir.Comparison) (lhs rhs : Ir.Value) :
    Emit Ir.Value := do
  Emit.check (checkType isVerbose lhs.type .i64 pos)
  Emit.check (checkType isVerbose rhs.type .i64 pos)
  Emit.instr ".cmptmp" (.compare op lhs rhs)

/-- A comparison for equality, which any two values of one type have. -/
def lowerEquality (isVerbose : Bool) (pos : Pos) (op : Ir.Comparison) (lhs rhs : Ir.Value) :
    Emit Ir.Value := do
  if lhs.type ≠ rhs.type then
    Emit.report isVerbose (.incomparable lhs.type rhs.type) pos
  else Emit.instr ".cmptmp" (.compare op lhs rhs)

/-- A sum. A pointer on either side is moved by the number on the other. -/
def lowerAdd (isVerbose : Bool) (pos : Pos) (lhs rhs : Ir.Value) : Emit Ir.Value := do
  match lhs.type.isPointer, rhs.type.isPointer with
  | true, true => Emit.report isVerbose .twoPointers pos
  | true, false =>
    Emit.check (checkType isVerbose rhs.type .i64 pos)
    Emit.element lhs [rhs] ".ptrarithtmp"
  | false, true =>
    Emit.check (checkType isVerbose lhs.type .i64 pos)
    Emit.element rhs [lhs] ".ptrarithtmp"
  | false, false => lowerArith isVerbose pos .i64 .add ".addtmp" lhs rhs

/-- A difference. A pointer on the left is moved back by the number on the right. -/
def lowerSub (isVerbose : Bool) (pos : Pos) (lhs rhs : Ir.Value) : Emit Ir.Value := do
  match lhs.type.isPointer, rhs.type.isPointer with
  | true, true => Emit.report isVerbose .twoPointers pos
  | true, false =>
    Emit.check (checkType isVerbose rhs.type .i64 pos)
    let back ← Emit.instr ".negtemp" (.arith .sub (.int 64 0) rhs)
    Emit.element lhs [back] ".ptrarithtmp"
  | false, _ => lowerArith isVerbose pos .i64 .sub ".subtmp" lhs rhs

/-- An operator between two values. -/
def lowerBinary (isVerbose : Bool) (pos : Pos) (op : BinOp) (lhs rhs : Ir.Value) : Emit Ir.Value :=
  match op with
  | .or => lowerArith isVerbose pos .i1 .or ".ortmp" lhs rhs
  | .and => lowerArith isVerbose pos .i1 .and ".andtmp" lhs rhs
  | .equals => lowerEquality isVerbose pos .eq lhs rhs
  | .revEquals => lowerEquality isVerbose pos .ne lhs rhs
  | .less => lowerOrder isVerbose pos .slt lhs rhs
  | .lessEqual => lowerOrder isVerbose pos .sle lhs rhs
  | .greater => lowerOrder isVerbose pos .sgt lhs rhs
  | .greaterEqual => lowerOrder isVerbose pos .sge lhs rhs
  | .add => lowerAdd isVerbose pos lhs rhs
  | .sub => lowerSub isVerbose pos lhs rhs
  | .mul => lowerArith isVerbose pos .i64 .mul ".multmp" lhs rhs
  | .div => lowerArith isVerbose pos .i64 .sdiv ".divtmp" lhs rhs
  | .mod => lowerArith isVerbose pos .i64 .srem ".modtmp" lhs rhs

/-- The function that a call names, if it takes the given number of arguments. -/
def findCallee (isVerbose : Bool) (pos : Pos) (name : String) (count : Nat) : Emit Ir.Function := do
  match ← Emit.global? (functionName name) with
  | none => Emit.report isVerbose (.noFunction name) pos
  | some (.string _ _) => Emit.report isVerbose (.notFunction name) pos
  | some (.function function) =>
    if count ≠ function.params.length then
      Emit.report isVerbose (.wrongCount name function.params.length count) pos
    else return function

mutual

/-- Lowers an expression to code that computes its value. -/
def lowerExpr (isVerbose : Bool) (env : Env) : Expr → Emit Ir.Value
  | .decimal _ value => pure (.int 64 value)
  | .string _ value => do Emit.firstByte (← Emit.addString value)
  | .boolean _ value => pure (.truth value)
  | .name _ ident => do
    let address ← lookupName isVerbose env ident
    Emit.load address ident.text
  | .addressOf _ ident => lookupName isVerbose env ident
  | .deref pos value => do
    let address ← lowerExpr isVerbose env value
    if address.type.isPointer then Emit.load address ".dereftmp"
    else Emit.report isVerbose .notPointer pos
  | .exec pos ident arguments => do
    let callee ← findCallee isVerbose pos ident.text arguments.length
    let casts := ((← get).session.casts.lookup callee.name).getD []
    let values ← lowerArguments isVerbose env casts 0 arguments
    Emit.call (.function callee) values ("call_" ++ callee.name)
  | .rev pos value => do
    let truth ← lowerExpr isVerbose env value
    Emit.check (checkType isVerbose truth.type .i1 pos)
    Emit.instr ".revtmp" (.arith .xor truth (.int 1 (-1)))
  | .binary pos op lhs rhs => do
    let lhs ← lowerExpr isVerbose env lhs
    let rhs ← lowerExpr isVerbose env rhs
    lowerBinary isVerbose pos op lhs rhs
  | .unknown node =>
    Emit.report isVerbose (.unknownExpression ((node.kind?.map NodeKind.className).getD "")) node.pos

/-- Lowers the arguments of a call from a position on; those at the given positions become pointers
to anything. -/
def lowerArguments (isVerbose : Bool) (env : Env) (casts : List Nat) (position : Nat) :
    List Expr → Emit (List Ir.Value)
  | [] => pure []
  | argument :: arguments => do
    let value ← lowerExpr isVerbose env argument
    let value ←
      if casts.contains position then Emit.cast .bitcast value .bytes ".voidptrcast"
      else pure value
    let values ← lowerArguments isVerbose env casts (position + 1) arguments
    return value :: values

end

end LeftHand
