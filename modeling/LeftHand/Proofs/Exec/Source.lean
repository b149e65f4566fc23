import LeftHand.Ast.Construct
import LeftHand.Proofs.Exec.Machine
import LeftHand.Proofs.Typing.Rules

/-!
The values of scalar expressions, those of numbers and truth values, with the calls that they make.
-/

namespace LeftHand

/-- The values of scalar expressions: numbers of 64 bits, read with sign, and truth values. -/
inductive Scalar where
  | number (value : BitVec 64)
  | truth (value : Bool)
deriving DecidableEq, Repr

/-- A call of a function with the values that are passed. -/
structure Call where
  function : String
  arguments : List Scalar
deriving DecidableEq, Repr

/-- What expressions are evaluated in: memory, and the calls made so far. -/
structure World where
  memory : Ir.Memory
  calls : List Call

/-- What answers calls, as far as expressions can see. -/
abbrev Oracle := List Call → Call → Ir.Memory → BitVec 64 × Ir.Memory

/-- A value of a kind, from what memory holds or a call gives. -/
def Kind.scalar? : Kind → BitVec 64 → Option Scalar
  | .dect, cell => some (.number cell)
  | .boolean, cell => some (.truth (cell.getLsbD 0))
  | .void, _ | .char, _ | .pointer _, _ => none

/-- The number that an integer is, up to what 64 bits can hold. -/
def Scalar.ofInt (value : Int) : Scalar :=
  .number (BitVec.ofInt 64 value)

/-- Whether a quotient is defined and can be held. -/
def isQuotient (lhs rhs : Int) : Bool :=
  rhs != 0 && !(lhs == -2 ^ 63 && rhs == -1)

/-- The value of an operator between two values. Quotients are rounded towards zero. -/
def BinOp.eval? : BinOp → Scalar → Scalar → Option Scalar
  | .or, .truth lhs, .truth rhs => some (.truth (lhs || rhs))
  | .and, .truth lhs, .truth rhs => some (.truth (lhs && rhs))
  | .equals, .truth lhs, .truth rhs => some (.truth (lhs == rhs))
  | .revEquals, .truth lhs, .truth rhs => some (.truth (lhs != rhs))
  | .equals, .number lhs, .number rhs => some (.truth (lhs.toInt == rhs.toInt))
  | .revEquals, .number lhs, .number rhs => some (.truth (lhs.toInt != rhs.toInt))
  | .less, .number lhs, .number rhs => some (.truth (lhs.toInt < rhs.toInt))
  | .lessEqual, .number lhs, .number rhs => some (.truth (lhs.toInt ≤ rhs.toInt))
  | .greater, .number lhs, .number rhs => some (.truth (lhs.toInt > rhs.toInt))
  | .greaterEqual, .number lhs, .number rhs => some (.truth (lhs.toInt ≥ rhs.toInt))
  | .add, .number lhs, .number rhs => some (.ofInt (lhs.toInt + rhs.toInt))
  | .sub, .number lhs, .number rhs => some (.ofInt (lhs.toInt - rhs.toInt))
  | .mul, .number lhs, .number rhs => some (.ofInt (lhs.toInt * rhs.toInt))
  | .div, .number lhs, .number rhs =>
    if isQuotient lhs.toInt rhs.toInt then some (.ofInt (lhs.toInt.tdiv rhs.toInt)) else none
  | .mod, .number lhs, .number rhs =>
    if isQuotient lhs.toInt rhs.toInt then some (.ofInt (lhs.toInt.tmod rhs.toInt)) else none
  | _, _, _ => none

mutual

/-- Evaluates an expression, given what can be called, the variables and their places. Both operands
of an operator are evaluated, the left one first; so are all arguments before their call. -/
def Expr.eval? (oracle : Oracle) (callees : Callees) (vars : Vars) (places : String → Nat) :
    Expr → World → Option (Scalar × World)
  | .decimal _ value, world => some (.ofInt value, world)
  | .boolean _ value, world => some (.truth value, world)
  | .name _ ident, world => do
    let kind ← vars.lookup ident.text
    let value ← kind.scalar? (world.memory (places ident.text))
    return (value, world)
  | .rev _ operand, world => do
    match ← operand.eval? oracle callees vars places world with
    | (.truth value, world) => return (.truth !value, world)
    | (.number _, _) => none
  | .binary _ op lhs rhs, world => do
    let (left, world) ← lhs.eval? oracle callees vars places world
    let (right, world) ← rhs.eval? oracle callees vars places world
    let value ← op.eval? left right
    return (value, world)
  | .exec _ ident arguments, world => do
    let callee ← callees ident.text
    let (values, world) ← evalAll? oracle callees vars places arguments world
    let call : Call := ⟨ident.text, values⟩
    let answer := oracle world.calls call world.memory
    let value ← callee.result.scalar? answer.1
    return (value, ⟨answer.2, world.calls ++ [call]⟩)
  -- The other expressions have no scalars for parts.
  | .string .., _ | .addressOf .., _ | .deref .., _ | .unknown _, _ => none

/-- Evaluates arguments from left to right. -/
def evalAll? (oracle : Oracle) (callees : Callees) (vars : Vars) (places : String → Nat) :
    List Expr → World → Option (List Scalar × World)
  | [], world => some ([], world)
  | argument :: arguments, world => do
    let (value, world) ← argument.eval? oracle callees vars places world
    let (values, world) ← evalAll? oracle callees vars places arguments world
    return (value :: values, world)

end

mutual

/-- The functions that an expression calls, in order: arguments before their call, and all from left
to right. -/
def Expr.execs : Expr → List String
  | .exec _ ident arguments => execsAll arguments ++ [ident.text]
  | .rev _ operand | .deref _ operand => operand.execs
  | .binary _ _ lhs rhs => lhs.execs ++ rhs.execs
  | .decimal .. | .boolean .. | .string .. | .name .. | .addressOf .. | .unknown _ => []

/-- The functions that arguments call. -/
def execsAll : List Expr → List String
  | [] => []
  | argument :: arguments => argument.execs ++ execsAll arguments

end

/-- Whether values of a kind are scalars. -/
def Kind.isScalar : Kind → Bool
  | .dect | .boolean => true
  | .void | .char | .pointer _ => false

/-- A function that takes and gives scalars. -/
structure Callee.IsScalar (callee : Callee) : Prop where
  params : ∀ parameter ∈ callee.params, ∃ kind, parameter = .exactly kind ∧ kind.isScalar = true
  result : callee.result.isScalar = true

/-- Expressions of scalars: literals, scalar variables, operators, and calls of functions that take
and give scalars. -/
inductive Expr.IsScalar (callees : Callees) (vars : Vars) : Expr → Prop where
  | decimal {pos value} : IsScalar callees vars (.decimal pos value)
  | boolean {pos value} : IsScalar callees vars (.boolean pos value)
  | name {pos ident kind} (known : vars.lookup ident.text = some kind)
      (scalar : kind.isScalar = true) : IsScalar callees vars (.name pos ident)
  | rev {pos operand} (scalar : IsScalar callees vars operand) :
      IsScalar callees vars (.rev pos operand)
  | binary {pos op lhs rhs} (left : IsScalar callees vars lhs) (right : IsScalar callees vars rhs) :
      IsScalar callees vars (.binary pos op lhs rhs)
  | exec {pos ident arguments callee} (known : callees ident.text = some callee)
      (scalar : callee.IsScalar) (all : ∀ argument ∈ arguments, IsScalar callees vars argument) :
      IsScalar callees vars (.exec pos ident arguments)

/-- The number with the other sign, up to what 64 bits can hold. -/
def Scalar.negative? : Scalar → Option Scalar
  | .number value => some (.ofInt (-value.toInt))
  | .truth _ => none

/-- What is written as the negative of an expression evaluates to the negative of its value. -/
theorem Expr.eval?_negative {oracle : Oracle} {callees : Callees} {vars : Vars}
    {places : String → Nat} {operand negative : Expr} {world : World}
    (written : Rule.construct .negExpr [.expr operand] = .ok (.expr negative)) :
    negative.eval? oracle callees vars places world =
      (operand.eval? oracle callees vars places world).bind fun (scalar, world) =>
        scalar.negative?.map (·, world) := by
  -- It is read as the difference from zero.
  obtain rfl : .binary operand.pos .sub (.decimal operand.pos 0) operand = negative :=
    Item.expr.inj (Except.ok.inj written)
  simp only [Expr.eval?, Option.bind_eq_bind, Option.bind_some]
  cases operand.eval? oracle callees vars places world with
  | none => rfl
  | some pair =>
    obtain ⟨scalar, world⟩ := pair
    cases scalar with
    | truth value => rfl
    | number value => simp [Scalar.ofInt, BinOp.eval?, Scalar.negative?]

section Order

variable {oracle : Oracle} {callees : Callees} {vars : Vars} {places : String → Nat}

mutual

/-- Each call of an expression is made once, in order, whatever the operators around it. -/
theorem Expr.calls_eval? {world after : World} {value : Scalar} : (expr : Expr) →
    expr.eval? oracle callees vars places world = some (value, after) →
      after.calls.map (·.function) = world.calls.map (·.function) ++ expr.execs
  | .decimal .., evaluated | .boolean .., evaluated => by
    cases evaluated
    simp [Expr.execs]
  | .name .., evaluated => by
    simp only [Expr.eval?, Option.bind_eq_bind, Option.bind_eq_some_iff] at evaluated
    obtain ⟨_, _, _, _, same⟩ := evaluated
    cases same
    simp [Expr.execs]
  | .rev _ operand, evaluated => by
    simp only [Expr.eval?, Option.bind_eq_bind, Option.bind_eq_some_iff] at evaluated
    obtain ⟨⟨truth | number, between⟩, operandEvaluated, same⟩ := evaluated
    · cases same
    · cases same
      exact Expr.calls_eval? operand operandEvaluated
  | .binary _ op lhs rhs, evaluated => by
    simp only [Expr.eval?, Option.bind_eq_bind, Option.bind_eq_some_iff] at evaluated
    obtain ⟨⟨left, between⟩, leftEvaluated, ⟨right, last⟩, rightEvaluated, _, _, same⟩ := evaluated
    cases same
    rw [Expr.calls_eval? rhs rightEvaluated, Expr.calls_eval? lhs leftEvaluated, Expr.execs,
      List.append_assoc]
  | .exec _ ident arguments, evaluated => by
    simp only [Expr.eval?, Option.bind_eq_bind, Option.bind_eq_some_iff] at evaluated
    obtain ⟨_, _, ⟨values, between⟩, argumentsEvaluated, _, _, same⟩ := evaluated
    cases same
    simp [calls_evalAll? arguments argumentsEvaluated, Expr.execs]
  | .string .., evaluated | .addressOf .., evaluated | .deref .., evaluated
  | .unknown _, evaluated => by cases evaluated

theorem calls_evalAll? {world after : World} {values : List Scalar} : (arguments : List Expr) →
    evalAll? oracle callees vars places arguments world = some (values, after) →
      after.calls.map (·.function) = world.calls.map (·.function) ++ execsAll arguments
  | [], evaluated => by
    cases evaluated
    simp [execsAll]
  | argument :: arguments, evaluated => by
    simp only [evalAll?, Option.bind_eq_bind, Option.bind_eq_some_iff] at evaluated
    obtain ⟨⟨first, between⟩, firstEvaluated, ⟨others, last⟩, othersEvaluated, same⟩ := evaluated
    cases same
    rw [calls_evalAll? arguments othersEvaluated, Expr.calls_eval? argument firstEvaluated, execsAll,
      List.append_assoc]

end

end Order

end LeftHand
