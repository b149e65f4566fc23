/-!
Data: the nodes of a program in one uniform shape, a kind with its fields in order.

The uniform shape is what outlines show and what is exchanged with the outside. The compiler itself
works on the types of `LeftHand.Ast.Basic`.
-/

namespace LeftHand

/-- A place in a source text. -/
structure Pos where
  line : Int
  column : Int
deriving DecidableEq, Repr

/-- The kinds of node. The kinds `statement`, `expression`, `operator` and `type` say nothing more
about their nodes, which therefore have no meaning of their own. -/
inductive NodeKind where
  | program | function | param | block | elseIf | identifier
  | statement | ret | exprStmt | noOp | declare | assign | branch | loop
  | expression | string | decimal | boolean | operator
  | or | and | equals | revEquals | less | lessEqual | greater | greaterEqual
  | add | sub | mul | div | mod | rev | name | addressOf | deref | exec
  | type | voidType | decimalType | booleanType | charType | pointerOf
deriving DecidableEq, Repr

namespace NodeKind

/-- Every kind, once. -/
def all : List NodeKind :=
  [program, function, param, block, elseIf, identifier, statement, ret, exprStmt, noOp, declare,
   assign, branch, loop, expression, string, decimal, boolean, operator, or, and, equals, revEquals,
   less, lessEqual, greater, greaterEqual, add, sub, mul, div, mod, rev, name, addressOf, deref,
   exec, type, voidType, decimalType, booleanType, charType, pointerOf]

/-- The name under which outlines and reports show a kind. -/
def label : NodeKind → String
  | program => "Program"
  | function => "FunctionDef"
  | param => "Param"
  | block => "Block"
  | elseIf => "ElseIf"
  | identifier => "Identifier"
  | statement => "Statement"
  | ret => "Return"
  | exprStmt => "ExpressionStatement"
  | noOp => "NoOp"
  | declare => "VarDeclStatement"
  | assign => "VarAssStatement"
  | branch => "IfStatement"
  | loop => "AsStatement"
  | expression => "Expression"
  | string => "StringLiteral"
  | decimal => "DecimalLiteral"
  | boolean => "BooleanLiteral"
  | operator => "OperatorExpr"
  | or => "OrExpr"
  | and => "AndExpr"
  | equals => "EqualsExpr"
  | revEquals => "RevEqualsExpr"
  | less => "LessThanExpr"
  | lessEqual => "LessThanEqualExpr"
  | greater => "GreaterThanExpr"
  | greaterEqual => "GreaterThanEqualExpr"
  | add => "AddExpr"
  | sub => "SubExpr"
  | mul => "MulExpr"
  | div => "DivExpr"
  | mod => "ModExpr"
  | rev => "RevExpr"
  | name => "IdentifierExpr"
  | addressOf => "AddressOfExpr"
  | deref => "DerefExpr"
  | exec => "ExecExpr"
  | type => "Type"
  | voidType => "VoidType"
  | decimalType => "DecimalType"
  | booleanType => "BooleanType"
  | charType => "CharType"
  | pointerOf => "PointerOf"

/-- The kind that a name stands for. -/
def ofLabel? (text : String) : Option NodeKind :=
  all.find? (·.label == text)

/-- The names of the fields of a kind, in order. -/
def fields : NodeKind → List String
  | program => ["functions"]
  | function => ["type", "identifier", "parameters", "body"]
  | param => ["type", "identifier"]
  | block => ["statements"]
  | elseIf => ["condition", "body"]
  | identifier => ["name"]
  | ret => ["value"]
  | exprStmt => ["expression"]
  | declare => ["type", "identifier"]
  | assign => ["lhs", "rhs"]
  | branch => ["condition", "body", "else_ifs", "else_body"]
  | loop => ["condition", "body"]
  | string | decimal | boolean | rev | deref => ["value"]
  | operator | or | and | equals | revEquals | less | lessEqual | greater | greaterEqual
  | add | sub | mul | div | mod => ["lhs", "rhs"]
  | name | addressOf => ["identifier"]
  | exec => ["identifier", "arguments"]
  | pointerOf => ["base_type"]
  | statement | noOp | expression | type | voidType | decimalType | booleanType | charType => []

/-- Whether nodes of the kind are expressions. -/
def isExpr : NodeKind → Bool
  | expression | string | decimal | boolean | operator | or | and | equals | revEquals
  | less | lessEqual | greater | greaterEqual | add | sub | mul | div | mod
  | rev | name | addressOf | deref | exec => true
  | _ => false

/-- Whether nodes of the kind are statements. -/
def isStmt : NodeKind → Bool
  | statement | ret | exprStmt | noOp | declare | assign | branch | loop => true
  | _ => false

/-- Whether nodes of the kind are types. -/
def isType : NodeKind → Bool
  | type | voidType | decimalType | booleanType | charType | pointerOf => true
  | _ => false

/-- How reports about a node of no use name its kind. -/
def className (kind : NodeKind) : String :=
  "<class 'lang_1eft.pipeline.ast_definitions." ++ kind.label ++ "'>"

end NodeKind

/-- A word of a source text, with its place where that is known. -/
structure Word where
  kind : String
  text : String
  line : Option Int
  column : Option Int
deriving DecidableEq, Repr

/-- A value in the uniform shape. -/
inductive Datum where
  | null
  | bool (value : Bool)
  | int (value : Int)
  | text (value : String)
  | word (word : Word)
  | list (items : List Datum)
  | node (kind : NodeKind) (pos : Pos) (values : List Datum)
deriving Repr

namespace Datum

/-- The place of a node; anything else stands nowhere. -/
def pos : Datum → Pos
  | node _ pos _ => pos
  | _ => ⟨0, 0⟩

/-- The kind of a node. -/
def kind? : Datum → Option NodeKind
  | node kind _ _ => some kind
  | _ => none

end Datum

end LeftHand
