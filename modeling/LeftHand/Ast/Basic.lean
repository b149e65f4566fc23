import LeftHand.Ast.Datum

/-!
Programs as the compiler sees them: types, expressions, statements and functions, each with the
place that reports point to.

Where a type, an expression or a statement is wanted and a node of another kind stands, the node is
kept as `unknown`: it can be shown, but it has no meaning.
-/

namespace LeftHand

/-- A type as it is written. -/
inductive Ty where
  | void (pos : Pos)
  | decimal (pos : Pos)
  | boolean (pos : Pos)
  | char (pos : Pos)
  | pointer (pos : Pos) (base : Ty)
  | unknown (node : Datum)
deriving Repr

/-- A name at a place. -/
structure Ident where
  pos : Pos
  text : String
deriving DecidableEq, Repr

/-- The operators between two operands. -/
inductive BinOp where
  | or | and | equals | revEquals | less | lessEqual | greater | greaterEqual
  | add | sub | mul | div | mod
deriving DecidableEq, Repr

/-- An expression. -/
inductive Expr where
  | decimal (pos : Pos) (value : Int)
  | string (pos : Pos) (value : String)
  | boolean (pos : Pos) (value : Bool)
  | name (pos : Pos) (ident : Ident)
  | addressOf (pos : Pos) (ident : Ident)
  | deref (pos : Pos) (value : Expr)
  | exec (pos : Pos) (ident : Ident) (arguments : List Expr)
  | rev (pos : Pos) (value : Expr)
  | binary (pos : Pos) (op : BinOp) (lhs rhs : Expr)
  | unknown (node : Datum)
deriving Repr

/-- What an assignment writes to. -/
inductive Target where
  | name (ident : Ident)
  | deref (pos : Pos) (value : Expr)
  | unknown (node : Datum)
deriving Repr

mutual

/-- A statement. -/
inductive Stmt where
  | expr (pos : Pos) (value : Expr)
  | ret (pos : Pos) (value : Option Expr)
  | noOp (pos : Pos)
  | declare (pos : Pos) (type : Ty) (ident : Ident)
  | assign (pos : Pos) (target : Target) (value : Expr)
  | branch (pos : Pos) (condition : Expr) (bodyPos : Pos) (body : List Stmt) (rest : Else)
  | loop (pos : Pos) (condition : Expr) (bodyPos : Pos) (body : List Stmt)
  | unknown (node : Datum)
deriving Repr

/-- What follows the first body of a branch. -/
inductive Else where
  | none
  | elseIf (pos : Pos) (condition : Expr) (bodyPos : Pos) (body : List Stmt) (rest : Else)
  | otherwise (bodyPos : Pos) (body : List Stmt)
deriving Repr

end

/-- Statements in a scope of their own. -/
structure Block where
  pos : Pos
  statements : List Stmt
deriving Repr

/-- A condition with the body that it guards. -/
structure ElseIf where
  pos : Pos
  condition : Expr
  body : Block
deriving Repr

/-- A parameter of a function. -/
structure Param where
  pos : Pos
  type : Ty
  ident : Ident
deriving Repr

/-- A function definition. -/
structure Function where
  pos : Pos
  type : Ty
  ident : Ident
  params : List Param
  body : Block
deriving Repr

/-- A program. -/
structure Program where
  pos : Pos
  functions : List Function
deriving Repr

/-- Whether a type is void itself, not a pointer to it. -/
def Ty.isVoid : Ty → Bool
  | .void _ => true
  | _ => false

/-- The place of a type. -/
def Ty.pos : Ty → Pos
  | void pos | decimal pos | boolean pos | char pos | pointer pos _ => pos
  | unknown node => node.pos

/-- The place of an expression. -/
def Expr.pos : Expr → Pos
  | decimal pos _ | string pos _ | boolean pos _ | name pos _ | addressOf pos _ | deref pos _
  | exec pos _ _ | rev pos _ | binary pos _ _ _ => pos
  | unknown node => node.pos

/-- The place of the left side of an assignment. -/
def Target.pos : Target → Pos
  | name ident => ident.pos
  | deref pos _ => pos
  | unknown node => node.pos

/-- Whether nothing follows the first body of a branch. -/
def Else.isEmpty : Else → Bool
  | .none => true
  | _ => false

/-- An else part from conditions with their bodies and an optional last body. -/
def Else.ofParts (last : Option Block) : List ElseIf → Else
  | [] =>
    match last with
    | some block => .otherwise block.pos block.statements
    | .none => .none
  | part :: parts =>
    .elseIf part.pos part.condition part.body.pos part.body.statements (Else.ofParts last parts)

end LeftHand
