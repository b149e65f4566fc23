import LeftHand.Ast.Item
import LeftHand.Ast.Literal
import LeftHand.Grammar.Tree

/-!
From parse trees to programs: each phrase is put together from its items, from the leaves upwards.

A phrase is refused when its items do not have the shape that its rule demands. On parse trees only
three rules can refuse: a number can be too large, and a variable or a parameter can be void.
-/

namespace LeftHand

/-- Why items make no phrase. -/
inductive ShapeError where
  /-- The items do not have the demanded shape. -/
  | mismatch
  /-- A number cannot be read. -/
  | numeral (error : NumeralError)
  /-- The first item is missing. -/
  | noItem
  /-- An item that carries no value stands where an operator is wanted. -/
  | noValue (kind : String)
deriving DecidableEq, Repr

/-- The report of a shape error. -/
def ShapeError.message : ShapeError → String
  | mismatch => ""
  | numeral error => error.message
  | noItem => "list index out of range"
  | noValue kind => s!"'{kind}' object has no attribute 'value'"

/-- The place of a word, with zero for what is not known. -/
def Word.pos (word : Word) : Pos :=
  ⟨word.line.getD 0, word.column.getD 0⟩

/-- Refuses the items unless a condition holds. -/
def demand (condition : Bool) : Except ShapeError Unit :=
  if condition then .ok () else .error .mismatch

/-- The largest number that a literal may denote. -/
def maxInteger : Int :=
  9223372036854775807

/-- The smallest number that a literal may denote. -/
def minInteger : Int :=
  -9223372036854775808

/-- A number from its word. -/
def integerItem (word : Word) : Except ShapeError Item := do
  let value ← (integerValue word.text.toList).mapError .numeral
  demand (minInteger ≤ value && value ≤ maxInteger)
  return .expr (.decimal word.pos value)

/-- The node that a token makes: literals and names have a value of their own. -/
def Terminal.construct (kind : Terminal) (word : Word) : Except ShapeError Item :=
  match kind with
  | .integer => integerItem word
  | .string => .ok (.expr (.string word.pos (.ofList (stringValue word.text.toList))))
  | .booleanLiteral => .ok (.expr (.boolean word.pos (booleanValue word.text.toList)))
  | .identifier => .ok (.ident ⟨word.pos, word.text⟩)
  | _ => .ok (.word word)

/-- The operators of each level of precedence, by their spelling. -/
def Rule.operator? : Rule → String → Option BinOp
  | .term, "t" => some .mul
  | .term, "d" => some .div
  | .term, "%%" => some .mod
  | .formula, "a" => some .add
  | .formula, "s" => some .sub
  | .comparison, "1t" => some .less
  | .comparison, "1te" => some .lessEqual
  | .comparison, "gt" => some .greater
  | .comparison, "gte" => some .greaterEqual
  | .equality, "eq" => some .equals
  | .equality, "req" => some .revEquals
  | .andExpr, "@@" => some .and
  | .orExpr, "@r" => some .or
  | _, _ => none

namespace Item

/-- The spelling that an item has as an operator: words have one, and so have strings; other nodes
with a value have none that is an operator. -/
def spelling : Item → Except ShapeError (Option String)
  | word mark => .ok (some mark.text)
  | expr (.string _ value) => .ok (some value)
  | expr (.decimal ..) | expr (.boolean ..) | expr (.rev ..) | expr (.deref ..) => .ok none
  | stmt (.ret ..) => .ok none
  | list _ => .error (.noValue "list")
  | item => .error (.noValue ((item.toDatum.kind?.map (·.label)).getD ""))

/-- The place of an item, with zero for what is not known. -/
def pos : Item → Pos
  | word mark => mark.pos
  | item => item.toDatum.pos

end Item

/-- A place, with what is zero taken from another one. -/
def Pos.orElse (pos other : Pos) : Pos :=
  ⟨if pos.line = 0 then other.line else pos.line,
   if pos.column = 0 then other.column else pos.column⟩

/-- Operands and operators from the last one back, grouped to the left. -/
def foldChain (level : Rule) (first : Expr) : List Item → Except ShapeError Expr
  | [_] => .ok first
  | rhs :: operator :: item :: items => do
    let spelling ← operator.spelling
    match spelling.bind level.operator? with
    | none => .error .mismatch
    | some op =>
      let lhs ← foldChain level first (item :: items)
      return .binary (operator.pos.orElse first.pos) op lhs rhs.asExpr
  | _ => .error .mismatch

/-- Operands with operators of one level between them. -/
def chainItem (level : Rule) (items : List Item) : Except ShapeError Item :=
  match items with
  | [_, _] => .error .mismatch
  | .expr first :: _ => (foldChain level first items.reverse).map .expr
  | _ => .error .mismatch

/-- One more pointer around a type for each mark. -/
def pointTo (base : Ty) : List Item → Except ShapeError Ty
  | [] => .ok base
  | .word word :: items => do
    demand (word.text == "#")
    pointTo (.pointer word.pos base) items
  | _ => .error .mismatch

/-- The expressions among items that must all be expressions. -/
def allExprs (items : List Item) : Except ShapeError (List Expr) :=
  items.mapM fun item =>
    match item with
    | .expr expr => .ok expr
    | _ => .error .mismatch

/-- The statements among items that must all be statements. -/
def allStmts (items : List Item) : Except ShapeError (List Stmt) :=
  items.mapM fun item =>
    match item with
    | .stmt stmt => .ok stmt
    | _ => .error .mismatch

/-- The parameters among items that must all be parameters. -/
def allParams (items : List Item) : Except ShapeError (List Param) :=
  items.mapM fun item =>
    match item with
    | .param param => .ok param
    | _ => .error .mismatch

/-- The guarded bodies among items that must all be guarded bodies. -/
def allElseIfs (items : List Item) : Except ShapeError (List ElseIf) :=
  items.mapM fun item =>
    match item with
    | .elseIf part => .ok part
    | _ => .error .mismatch

/-- The functions among items that must all be functions. -/
def allFunctions (items : List Item) : Except ShapeError (List Function) :=
  items.mapM fun item =>
    match item with
    | .function function => .ok function
    | _ => .error .mismatch

/-- A branch from its condition, its body and what follows. -/
def branchItem (condition : Expr) (body : Block) (rest : List Item) : Except ShapeError Item := do
  let branch := fun rest =>
    Item.stmt (.branch condition.pos condition body.pos body.statements rest)
  match rest.getLast? with
  | none => return branch .none
  | some last =>
    let parts ← allElseIfs rest.dropLast
    match last with
    | .elseIf part => return branch (.ofParts none (parts ++ [part]))
    | .block block => return branch (.ofParts (some block) parts)
    | _ => throw .mismatch

/-- A block from its statements and the marks around them. -/
def blockItem (items : List Item) : Except ShapeError Item := do
  let statements ← allStmts (items.drop 1).dropLast
  match items.head?, items.getLast? with
  | some (.word mark), some (.word _) => return .block ⟨mark.pos, statements⟩
  | none, _ => throw .noItem
  | _, _ => throw .mismatch

/-- The node that the items of a phrase make. -/
def Rule.construct (rule : Rule) (items : List Item) : Except ShapeError Item :=
  match rule, items with
  | .expr, [.expr value] | .factor, [.expr value] => .ok (.expr value)
  | .retStmt, [.word mark, _] => .ok (.stmt (.ret mark.pos none))
  | .retStmt, [.word _, .expr value, _] => .ok (.stmt (.ret value.pos (some value)))
  | .bassStmt, [.word mark, .word _] => .ok (.stmt (.noOp mark.pos))
  | .voidType, [.word word] => .ok (.type (.void word.pos))
  | .decimalType, [.word word] => .ok (.type (.decimal word.pos))
  | .booleanType, [.word word] => .ok (.type (.boolean word.pos))
  | .charType, [.word word] => .ok (.type (.char word.pos))
  | .type, .type base :: marks => (pointTo base marks).map .type
  | .nameExpr, [.ident ident] => .ok (.expr (.name ident.pos ident))
  | .nameExpr, [.word mark, .ident ident] => do
    demand (mark.text == "addr")
    return .expr (.addressOf mark.pos ident)
  | .derefExpr, [.word mark, .expr value] => do
    demand (mark.text == "#")
    return .expr (.deref mark.pos value)
  | .execExpr, .ident ident :: arguments => do
    return .expr (.exec ident.pos ident (← allExprs arguments))
  | .revExpr, [.expr value] => .ok (.expr (.rev value.pos value))
  | .negExpr, [.expr value] =>
    -- Negation is subtraction from a zero that stands where the operand does.
    .ok (.expr (.binary value.pos .sub (.decimal value.pos 0) value))
  | .declareStmt, [.type written, .ident ident] => do
    demand !written.isVoid
    return .stmt (.declare written.pos written ident)
  | .assignStmt, [.ident ident, .expr value] =>
    .ok (.stmt (.assign ident.pos (.name ident) value))
  | .assignStmt, [.expr (.deref pos pointer), .expr value] =>
    .ok (.stmt (.assign pos (.deref pos pointer) value))
  | .exprStmt, [.expr value] => .ok (.stmt (.expr value.pos value))
  | .param, [.type written, .ident ident] => do
    demand !written.isVoid
    return .param ⟨written.pos, written, ident⟩
  | .params, items => do
    return .list ((← allParams items).map .param)
  | .block, items => blockItem items
  | .elseStmt, [.block body] => .ok (.block body)
  | .elseIfStmt, [.expr condition, .block body] =>
    .ok (.elseIf ⟨condition.pos, condition, body⟩)
  | .ifStmt, .expr condition :: .block body :: rest => branchItem condition body rest
  | .asStmt, [.expr condition, .block body] =>
    .ok (.stmt (.loop condition.pos condition body.pos body.statements))
  | .function, [.word mark, .type result, .ident ident, .list items, .block body] => do
    return .function ⟨mark.pos, result, ident, ← allParams items, body⟩
  | .program, items => do
    let functions ← allFunctions items
    match functions with
    | first :: _ => return .program ⟨first.pos, functions⟩
    | [] => throw .mismatch
  | .term, items | .formula, items | .comparison, items | .equality, items
  | .andExpr, items | .orExpr, items => chainItem rule items
  | _, _ => .error .mismatch

/-- The phrase at which construction failed, and why. -/
structure VisitError where
  rule : String
  cause : ShapeError
deriving DecidableEq, Repr

/-- The word of a token. -/
def Token.word (token : Token) : Word :=
  ⟨token.kind.name, .ofList token.text, some 1, some token.column⟩

mutual

/-- The item of a parse tree, built from the leaves upwards and from left to right. -/
def Tree.item : Tree → Except VisitError Item
  | .leaf token => (token.kind.construct token.word).mapError (⟨token.kind.name, ·⟩)
  | .node rule children => do
    let items ← Tree.items children
    (rule.construct items).mapError (⟨rule.name, ·⟩)

/-- The items of parse trees next to each other. -/
def Tree.items : List Tree → Except VisitError (List Item)
  | [] => .ok []
  | tree :: trees => do
    let item ← tree.item
    let items ← Tree.items trees
    return item :: items

end

/-- Why a text has no program. -/
inductive SourceError where
  | parse (error : ParseError)
  | visit (error : VisitError)
deriving DecidableEq, Repr

/-- The program of a text. -/
def readProgram (text : List Char) : Except SourceError Program := do
  let tree ← (parse text).mapError .parse
  match ← tree.item.mapError .visit with
  | .program program => return program
  | _ => throw (.visit ⟨Rule.program.name, .mismatch⟩)

end LeftHand
