import LeftHand.Grammar.Terminal

/-! The rules of the grammar, each with a regular right-hand side. -/

namespace LeftHand

/-- The phrases of the language. -/
inductive Rule where
  | program | function | params | param | block
  | statement | retStmt | declareStmt | assignStmt | exprStmt | bassStmt
  | ifStmt | elseIfStmt | elseStmt | asStmt
  | expr | orExpr | andExpr | equality | comparison | formula | term | factor
  | derefExpr | revExpr | negExpr | execExpr | nameExpr | literal
  | type | voidType | decimalType | booleanType | charType
deriving DecidableEq, Repr

/-- What a phrase may consist of. -/
inductive Form where
  | empty
  | token (kind : Terminal)
  | phrase (rule : Rule)
  | seq (first second : Form)
  | alt (left right : Form)
  | many (item : Form)
deriving DecidableEq, Repr

namespace Form

/-- Forms one after the other. -/
def inOrder : List Form → Form
  | [] => empty
  | [form] => form
  | form :: forms => seq form (inOrder forms)

/-- Any one of some forms. -/
def oneOf : List Form → Form
  | [] => empty
  | [form] => form
  | form :: forms => alt form (oneOf forms)

/-- Any one of some terminals. -/
def oneToken (kinds : List Terminal) : Form :=
  oneOf (kinds.map token)

/-- A form or nothing. -/
def optional (form : Form) : Form :=
  alt form empty

/-- Operands with an operator between any two of them. -/
def chain (operand : Rule) (operators : List Terminal) : Form :=
  seq (phrase operand) (many (seq (oneToken operators) (phrase operand)))

/-- The nesting depth of a form. -/
def height : Form → Nat
  | empty | token _ | phrase _ => 1
  | seq first second => max first.height second.height + 1
  | alt left right => max left.height right.height + 1
  | many item => item.height + 1

end Form

namespace Rule

/-- Every rule, once. -/
def all : List Rule :=
  [program, function, params, param, block, statement, retStmt, declareStmt, assignStmt, exprStmt,
   bassStmt, ifStmt, elseIfStmt, elseStmt, asStmt, expr, orExpr, andExpr, equality, comparison,
   formula, term, factor, derefExpr, revExpr, negExpr, execExpr, nameExpr, literal, type, voidType,
   decimalType, booleanType, charType]

/-- The name under which parse trees show a rule. -/
def name : Rule → String
  | program => "start"
  | function => "function_def"
  | params => "params"
  | param => "param"
  | block => "block"
  | statement => "statement"
  | retStmt => "ret_stmt"
  | declareStmt => "var_decl_stmt"
  | assignStmt => "var_ass_stmt"
  | exprStmt => "expr_stmt"
  | bassStmt => "no_op_stmt"
  | ifStmt => "if_stmt"
  | elseIfStmt => "else_if_stmt"
  | elseStmt => "else_stmt"
  | asStmt => "as_stmt"
  | expr => "expr"
  | orExpr => "or_expr"
  | andExpr => "and_expr"
  | equality => "equality"
  | comparison => "comparison"
  | formula => "formula"
  | term => "term"
  | factor => "factor"
  | derefExpr => "deref_expr"
  | revExpr => "rev_expr"
  | negExpr => "neg_expr"
  | execExpr => "exec_expr"
  | nameExpr => "identifier_expr"
  | literal => "literal"
  | type => "type"
  | voidType => "void_type"
  | decimalType => "decimal_type"
  | booleanType => "boolean_type"
  | charType => "char_type"

/-- The rule that a name stands for. -/
def ofName? (text : String) : Option Rule :=
  all.find? (·.name == text)

/-- Whether parse trees show all the tokens of a phrase. -/
def keepsTokens : Rule → Bool
  | voidType | decimalType | booleanType | charType | retStmt | bassStmt | block | function => true
  | _ => false

/-- Whether a phrase with a single child is shown as that child. -/
def isTransparent : Rule → Bool
  | type | literal | statement => true
  | _ => false

/-- The right-hand side of each rule. -/
def body : Rule → Form
  | program => .seq (.phrase function) (.many (.phrase function))
  | function =>
    .inOrder [.token .defWord, .phrase type, .token .identifier, .phrase params, .phrase block]
  | params => .many (.phrase param)
  | param => .seq (.phrase type) (.token .identifier)
  | block => .inOrder [.token .scopeStart, .many (.phrase statement), .token .scopeEnd]
  | statement =>
    .oneOf [.phrase retStmt, .phrase exprStmt, .phrase declareStmt, .phrase assignStmt,
      .phrase bassStmt, .phrase ifStmt, .phrase asStmt]
  | retStmt => .inOrder [.token .retWord, .optional (.phrase expr), .token .lineEnd]
  | declareStmt => .inOrder [.phrase type, .token .identifier, .token .lineEnd]
  | assignStmt =>
    .inOrder [.alt (.phrase derefExpr) (.token .identifier), .token .assignWord, .phrase expr,
      .token .lineEnd]
  | exprStmt => .seq (.phrase expr) (.token .lineEnd)
  | bassStmt => .seq (.token .bassWord) (.token .lineEnd)
  | ifStmt =>
    .inOrder [.token .ifWord, .phrase expr, .phrase block, .many (.phrase elseIfStmt),
      .optional (.phrase elseStmt)]
  | elseIfStmt => .inOrder [.token .elseIfWord, .phrase expr, .phrase block]
  | elseStmt => .seq (.token .elseWord) (.phrase block)
  | asStmt => .inOrder [.token .asWord, .phrase expr, .phrase block]
  | expr => .phrase orExpr
  | orExpr => .chain andExpr [.orWord]
  | andExpr => .chain equality [.andWord]
  | equality => .chain comparison [.equalWord, .notEqualWord]
  | comparison => .chain formula [.lessWord, .greaterWord, .lessEqualWord, .greaterEqualWord]
  | formula => .chain term [.addWord, .subWord]
  | term => .chain factor [.mulWord, .divWord, .modWord]
  | factor =>
    .oneOf [.phrase literal, .phrase nameExpr, .phrase execExpr, .phrase revExpr, .phrase negExpr,
      .phrase derefExpr, .inOrder [.token .parenStart, .phrase expr, .token .parenEnd]]
  | derefExpr => .seq (.token .pointerMark) (.phrase factor)
  | revExpr => .seq (.token .reverseWord) (.phrase factor)
  | negExpr => .seq (.token .negWord) (.phrase factor)
  | execExpr =>
    .inOrder [.token .execWord, .token .identifier, .token .parenStart, .many (.phrase expr),
      .token .parenEnd]
  | nameExpr => .seq (.optional (.token .addressWord)) (.token .identifier)
  | literal => .oneToken [.integer, .string, .booleanLiteral]
  | type =>
    .seq (.oneOf [.phrase voidType, .phrase decimalType, .phrase booleanType, .phrase charType])
      (.many (.token .pointerMark))
  | voidType => .token .voidWord
  | decimalType => .token .decimalWord
  | booleanType => .token .booleanWord
  | charType => .token .charWord

end Rule

end LeftHand
