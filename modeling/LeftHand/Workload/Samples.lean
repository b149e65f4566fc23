import LeftHand.Ast.Construct
import LeftHand.Lower.Program

/-! Phrases, programs, expressions and mistakes of a chosen number, as work for the compiler. -/

namespace LeftHand.Workload

/-- Where every sample stands. -/
def origin : Pos :=
  ⟨1, 1⟩

/-- A word of the sample text. -/
def word (text : String) : Word :=
  ⟨"", text, some 1, some 1⟩

/-- The word as an item. -/
def mark (text : String) : Item :=
  .word (word text)

/-- The number three. -/
def three : Item :=
  .expr (.decimal origin 3)

/-- The true value. -/
def yes : Item :=
  .expr (.boolean origin true)

/-- A name. -/
def nameX : Item :=
  .ident ⟨origin, "x"⟩

/-- The type of numbers. -/
def numberType : Item :=
  .type (.decimal origin)

/-- A statement that does nothing. -/
def nothing : Item :=
  .stmt (.noOp origin)

/-- A parameter. -/
def paramX : Param :=
  ⟨origin, .decimal origin, ⟨origin, "x"⟩⟩

/-- A block with one statement. -/
def body : Block :=
  ⟨origin, [.noOp origin]⟩

/-- A guarded body. -/
def part : Item :=
  .elseIf ⟨origin, .boolean origin true, body⟩

/-- An operand, and the same operand after each operator. -/
def chainOf (operand : Item) (operators : List String) : List Item :=
  operand :: operators.flatMap fun operator => [mark operator, operand]

/-- Every kind of phrase, with items for it. -/
def sampleItems : List (Rule × List Item) :=
  [(.expr, [three]), (.retStmt, [mark "ret", mark "$"]), (.retStmt, [mark "ret", three, mark "$"]),
   (.bassStmt, [mark "bass", mark "$"]), (.voidType, [mark "v@1d"]), (.decimalType, [mark "dect"]),
   (.booleanType, [mark "b@@1"]), (.charType, [mark "car"]), (.type, [numberType]),
   (.type, [numberType, mark "#", mark "#"]), (.nameExpr, [nameX]), (.nameExpr, [mark "addr", nameX]),
   (.derefExpr, [mark "#", .expr (.name origin ⟨origin, "x"⟩)]), (.execExpr, [nameX]),
   (.execExpr, [nameX, three, yes]), (.revExpr, [yes]), (.negExpr, [three]), (.factor, [three]),
   (.term, [three]), (.term, chainOf three ["t", "d", "%%", "t", "d"]),
   (.term, chainOf three ["t", "d", "%%", "t", "d"]), (.formula, [three]),
   (.formula, chainOf three ["a", "s", "a", "s"]), (.comparison, [three]),
   (.comparison, chainOf three ["1t", "1te", "gt", "gte"]), (.equality, [three]),
   (.equality, chainOf three ["eq", "req", "eq"]), (.andExpr, [yes]),
   (.andExpr, chainOf yes ["@@", "@@"]), (.orExpr, [yes]), (.orExpr, chainOf yes ["@r", "@r"]),
   (.declareStmt, [numberType, nameX]), (.assignStmt, [nameX, three]), (.exprStmt, [three]),
   (.param, [numberType, nameX]), (.params, [.param paramX]),
   (.block, [mark "%s", nothing, mark "!s"]), (.elseStmt, [.block body]),
   (.elseIfStmt, [yes, .block body]), (.ifStmt, [yes, .block body]),
   (.ifStmt, [yes, .block body, part]), (.ifStmt, [yes, .block body, part, .block body]),
   (.asStmt, [yes, .block body]),
   (.function, [mark "def", numberType, nameX, .list [.param paramX], .block body]),
   (.program, [.function ⟨origin, .decimal origin, ⟨origin, "x"⟩, [], body⟩])]

/-- A phrase of every kind from its items. -/
def samplePhrases : List (Except ShapeError Item) :=
  [Terminal.integer.construct (word "%d12abcd@!d"), Terminal.string.construct (word "`hi\\n`"),
   Terminal.booleanLiteral.construct (word "trve"), Terminal.booleanLiteral.construct (word "fa1se"),
   Terminal.identifier.construct (word "foo")] ++
  sampleItems.map fun (rule, items) => rule.construct items

/-- The last of a number of phrases, taken in turn. -/
def phrase? (count : Nat) : Option (Except ShapeError Item) :=
  if count = 0 then none else samplePhrases[(count - 1) % samplePhrases.length]?

/-- The variable of the samples. -/
def x : Ident :=
  ⟨origin, "x"⟩

/-- The value of a variable. -/
def var (name : String) : Expr :=
  .name origin ⟨origin, name⟩

/-- A number. -/
def number (value : Int) : Expr :=
  .decimal origin value

/-- A string. -/
def text : Expr :=
  .string origin "hi"

/-- An operator between two expressions. -/
def binary (op : BinOp) (lhs rhs : Expr) : Expr :=
  .binary origin op lhs rhs

/-- The call of a function. -/
def exec (name : String) (arguments : List Expr) : Expr :=
  .exec origin ⟨origin, name⟩ arguments

/-- The same statement again and again: the variable grows by one. -/
def increments (count : Nat) : List Stmt :=
  List.replicate count (.assign origin (.name x) (binary .add (var "x") (number 1)))

/-- A function without parameters. -/
def function (type : Ty) (name : String) (statements : List Stmt) : Function :=
  ⟨origin, type, ⟨origin, name⟩, [], ⟨origin, statements⟩⟩

/-- The declaration of the variable. -/
def declareX : Stmt :=
  .declare origin (.decimal origin) x

/-- How many rounds of counting the start function does itself. -/
def startRounds : Nat :=
  3

/-- A round of counting in a function of its own, as long as one in the start function: there are
two statements fewer for the frame of the function. -/
def counter (index : Nat) : Function :=
  function (.void origin) s!"f{index}" (declareX :: increments 130)

/-- A program that does a number of rounds. The first are done by the start function, which also
greets, and each of the others by a function of its own. -/
def countingProgram (rounds : Nat) : Program :=
  ⟨origin, (List.range (rounds - startRounds)).map counter ++
    [function (.decimal origin) "start"
      (declareX :: increments (1 + 132 * min rounds startRounds) ++
        [.expr origin (exec "wr1te1" [text]), .ret origin (some (var "x"))])]⟩

/-- The lines of a module's text that are not empty. -/
def codeLines (globals : List Ir.Global) : Nat :=
  ((Ir.moduleText globals).splitOn "\n").countP (!·.isEmpty)

/-- A function of the programs that are outlined. -/
def outlined : Function :=
  function (.decimal origin) "f"
    (declareX :: increments 8 ++ List.replicate 4 (.expr origin (var "x")) ++
      [.ret origin (some (var "x"))])

/-- A program of three functions, repeated. -/
def outlinedProgram (copies : Nat) : Program :=
  ⟨origin, List.replicate (3 * copies) outlined⟩

/-- The operators between two operands. -/
def operators : List BinOp :=
  [.or, .and, .equals, .revEquals, .less, .lessEqual, .greater, .greaterEqual, .add, .sub, .mul,
   .div, .mod]

/-- An operator on operands of the type that it wants. -/
def onVariables (op : BinOp) : Expr :=
  match op with
  | .or | .and => binary op (var "b") (var "b")
  | _ => binary op (var "x") (var "x")

/-- An expression of every kind, over a number `x`, a truth value `b` and a pointer `p`. -/
def everyExpression : List Expr :=
  operators.map onVariables ++
  [binary .add (var "p") (var "x"), binary .add (var "x") (var "p"),
   binary .sub (var "p") (var "x"), .rev origin (var "b"), .deref origin (var "p"),
   .addressOf origin x, text, binary .add text (number 1), exec "wr1ted" [var "x"],
   exec "wr1tea" [.addressOf origin x], exec "getd" [], var "x",
   binary .equals (.addressOf origin x) (.addressOf origin x), binary .equals text text,
   binary .equals (var "b") (var "b"), .deref origin text, binary .sub (number 0) (var "x")]

/-- An expression that nests to a depth, sums and differences in turn. -/
def nested : (depth : Nat) → Expr
  | 0 =>
    binary .sub
      (binary .add (var "x") (binary .div (binary .mul (var "x") (var "x")) (var "x"))) (var "x")
  | depth + 1 =>
    let square := binary .mul (var "x") (var "x")
    if depth % 2 = 0 then
      binary .add (nested depth) (binary .mul square (number 2))
    else
      binary .sub (nested depth) (binary .div (binary .mul square (var "x")) (number 2))

/-- Operands that no operator takes together. -/
def badPairs : List (Expr × Expr) :=
  [(number 1, .boolean origin true), (.boolean origin true, number 1),
   (text, .boolean origin true), (.boolean origin true, text), (text, .addressOf origin x)]

/-- Expressions with a mistake in each. -/
def mistakes : List Expr :=
  (operators.flatMap fun op => badPairs.map fun (lhs, rhs) => binary op lhs rhs) ++
  [.rev origin (number 1), .deref origin (number 1), var "nope", exec "nope" []]

/-- A function that should give a number and gives none. -/
def badReturn : Function :=
  function (.decimal origin) "badret" []

/-- The variables that sample expressions use. -/
def sampleEnv : Emit Env := do
  let xs ← Emit.instr "x" (.alloca .i64)
  let bs ← Emit.instr "b" (.alloca .i1)
  let ps ← Emit.instr "p" (.alloca (.pointer .i64))
  return [("x", xs), ("b", bs), ("p", ps)]

/-- The number of instructions written so far. -/
def written : Emit Nat := do
  return (← get).function.blocks.foldl (fun count block => count + block.code.length) 0

/-- A draft of a function for samples, in a module with the predefined functions. -/
def sampleDraft (session : Session) : Draft :=
  let session := (Predefined.addAll.run.run session.renew).2
  { session
    function := { Ir.Function.declare "sample" ⟨.void, [], false⟩ with blocks := [{ label := "entry" }] } }

/-- Lowers an expression of every kind and then a nested one: how many instructions each took, and
the type of the nested one. -/
def lowerSamples (depth : Nat) : Emit (Nat × Nat × Ir.Ty) := do
  let env ← sampleEnv
  let start ← written
  everyExpression.forM fun expr => do
    let _ ← lowerExpr false env expr
  let middle ← written
  let value ← lowerExpr false env (nested depth)
  return (middle - start, (← written) - middle, value.type)

/-- How many of the mistakes are found. -/
def foundMistakes (session : Session) : Nat :=
  mistakes.countP fun expr =>
    let lower : Emit Ir.Value := do lowerExpr false (← sampleEnv) expr
    match (lower.run.run (sampleDraft session)).1 with
    | .error _ => true
    | .ok _ => false

end LeftHand.Workload
