import LeftHand.Ast.Basic
import LeftHand.Text.Quoted

/-! The uniform shape of programs: from each type of node to data, and from data back. -/

namespace LeftHand

/-- The kind of node that an operator makes. -/
def BinOp.kind : BinOp → NodeKind
  | .or => .or
  | .and => .and
  | .equals => .equals
  | .revEquals => .revEquals
  | .less => .less
  | .lessEqual => .lessEqual
  | .greater => .greater
  | .greaterEqual => .greaterEqual
  | .add => .add
  | .sub => .sub
  | .mul => .mul
  | .div => .div
  | .mod => .mod

/-- The operator of a kind of node. -/
def BinOp.ofKind? : NodeKind → Option BinOp
  | .or => some .or
  | .and => some .and
  | .equals => some .equals
  | .revEquals => some .revEquals
  | .less => some .less
  | .lessEqual => some .lessEqual
  | .greater => some .greater
  | .greaterEqual => some .greaterEqual
  | .add => some .add
  | .sub => some .sub
  | .mul => some .mul
  | .div => some .div
  | .mod => some .mod
  | _ => none

/-- A type in the uniform shape. -/
def Ty.toDatum : Ty → Datum
  | .void pos => .node .voidType pos []
  | .decimal pos => .node .decimalType pos []
  | .boolean pos => .node .booleanType pos []
  | .char pos => .node .charType pos []
  | .pointer pos base => .node .pointerOf pos [base.toDatum]
  | .unknown node => node

/-- A name in the uniform shape. -/
def Ident.toDatum (ident : Ident) : Datum :=
  .node .identifier ident.pos [.text ident.text]

mutual

/-- An expression in the uniform shape. -/
def Expr.toDatum : Expr → Datum
  | .decimal pos value => .node .decimal pos [.int value]
  | .string pos value => .node .string pos [.text value]
  | .boolean pos value => .node .boolean pos [.bool value]
  | .name pos ident => .node .name pos [ident.toDatum]
  | .addressOf pos ident => .node .addressOf pos [ident.toDatum]
  | .deref pos value => .node .deref pos [value.toDatum]
  | .exec pos ident arguments => .node .exec pos [ident.toDatum, .list (Expr.toData arguments)]
  | .rev pos value => .node .rev pos [value.toDatum]
  | .binary pos op lhs rhs => .node op.kind pos [lhs.toDatum, rhs.toDatum]
  | .unknown node => node

/-- Expressions in the uniform shape. -/
def Expr.toData : List Expr → List Datum
  | [] => []
  | expr :: exprs => expr.toDatum :: Expr.toData exprs

end

/-- The left side of an assignment in the uniform shape. -/
def Target.toDatum : Target → Datum
  | .name ident => ident.toDatum
  | .deref pos value => .node .deref pos [value.toDatum]
  | .unknown node => node

mutual

/-- A statement in the uniform shape. -/
def Stmt.toDatum : Stmt → Datum
  | .expr pos value => .node .exprStmt pos [value.toDatum]
  | .ret pos none => .node .ret pos [.null]
  | .ret pos (some value) => .node .ret pos [value.toDatum]
  | .noOp pos => .node .noOp pos []
  | .declare pos type ident => .node .declare pos [type.toDatum, ident.toDatum]
  | .assign pos target value => .node .assign pos [target.toDatum, value.toDatum]
  | .branch pos condition bodyPos body rest =>
    .node .branch pos [condition.toDatum, .node .block bodyPos [.list (Stmt.toData body)],
      .list rest.elseIfData, rest.lastDatum]
  | .loop pos condition bodyPos body =>
    .node .loop pos [condition.toDatum, .node .block bodyPos [.list (Stmt.toData body)]]
  | .unknown node => node

/-- Statements in the uniform shape. -/
def Stmt.toData : List Stmt → List Datum
  | [] => []
  | stmt :: stmts => stmt.toDatum :: Stmt.toData stmts

/-- The conditions of an else part with their bodies, in the uniform shape. -/
def Else.elseIfData : Else → List Datum
  | .elseIf pos condition bodyPos body rest =>
    .node .elseIf pos [condition.toDatum, .node .block bodyPos [.list (Stmt.toData body)]] ::
      rest.elseIfData
  | _ => []

/-- The last body of an else part in the uniform shape. -/
def Else.lastDatum : Else → Datum
  | .none => .null
  | .otherwise bodyPos body => .node .block bodyPos [.list (Stmt.toData body)]
  | .elseIf _ _ _ _ rest => rest.lastDatum

end

/-- A block in the uniform shape. -/
def Block.toDatum (block : Block) : Datum :=
  .node .block block.pos [.list (Stmt.toData block.statements)]

/-- A guarded body in the uniform shape. -/
def ElseIf.toDatum (part : ElseIf) : Datum :=
  .node .elseIf part.pos [part.condition.toDatum, part.body.toDatum]

/-- A parameter in the uniform shape. -/
def Param.toDatum (param : Param) : Datum :=
  .node .param param.pos [param.type.toDatum, param.ident.toDatum]

/-- A function in the uniform shape. -/
def Function.toDatum (function : Function) : Datum :=
  .node .function function.pos [function.type.toDatum, function.ident.toDatum,
    .list (function.params.map Param.toDatum), function.body.toDatum]

/-- A program in the uniform shape. -/
def Program.toDatum (program : Program) : Datum :=
  .node .program program.pos [.list (program.functions.map Function.toDatum)]

/-- Reads a type; other nodes have no meaning as one. -/
def Ty.ofDatum : Datum → Ty
  | .node .voidType pos [] => .void pos
  | .node .decimalType pos [] => .decimal pos
  | .node .booleanType pos [] => .boolean pos
  | .node .charType pos [] => .char pos
  | .node .pointerOf pos [base] => .pointer pos (Ty.ofDatum base)
  | datum => .unknown datum

/-- Reads a name. -/
def Ident.ofDatum? : Datum → Option Ident
  | .node .identifier pos [.text text] => some ⟨pos, text⟩
  | _ => none

mutual

/-- Reads an expression; other nodes have no meaning as one. -/
def Expr.ofDatum : Datum → Expr
  | .node .decimal pos [.int value] => .decimal pos value
  | .node .string pos [.text value] => .string pos value
  | .node .boolean pos [.bool value] => .boolean pos value
  | .node .deref pos [value] => .deref pos (Expr.ofDatum value)
  | .node .rev pos [value] => .rev pos (Expr.ofDatum value)
  | .node .exec pos [ident, .list arguments] =>
    match Ident.ofDatum? ident with
    | some ident => .exec pos ident (Expr.ofData arguments)
    | none => .unknown (.node .exec pos [ident, .list arguments])
  | .node kind pos [lhs, rhs] =>
    match BinOp.ofKind? kind with
    | some op => .binary pos op (Expr.ofDatum lhs) (Expr.ofDatum rhs)
    | none => .unknown (.node kind pos [lhs, rhs])
  | .node kind pos [ident] =>
    match kind, Ident.ofDatum? ident with
    | .name, some ident => .name pos ident
    | .addressOf, some ident => .addressOf pos ident
    | _, _ => .unknown (.node kind pos [ident])
  | datum => .unknown datum

/-- Reads expressions. -/
def Expr.ofData : List Datum → List Expr
  | [] => []
  | datum :: data => Expr.ofDatum datum :: Expr.ofData data

end

/-- Reads the left side of an assignment. -/
def Target.ofDatum (datum : Datum) : Target :=
  match datum with
  | .node .deref pos [value] => .deref pos (Expr.ofDatum value)
  | _ =>
    match Ident.ofDatum? datum with
    | some ident => .name ident
    | none => .unknown datum

/-- Reads an optional expression. -/
def Expr.ofDatum? : Datum → Option Expr
  | .null => none
  | datum => some (Expr.ofDatum datum)

mutual

/-- Reads a statement; other nodes have no meaning as one. -/
def Stmt.ofDatum : Datum → Stmt
  | .node .exprStmt pos [value] => .expr pos (Expr.ofDatum value)
  | .node .ret pos [value] => .ret pos (Expr.ofDatum? value)
  | .node .noOp pos [] => .noOp pos
  | .node .declare pos [type, ident] =>
    match Ident.ofDatum? ident with
    | some ident => .declare pos (Ty.ofDatum type) ident
    | none => .unknown (.node .declare pos [type, ident])
  | .node .assign pos [target, value] =>
    .assign pos (Target.ofDatum target) (Expr.ofDatum value)
  | .node .branch pos [condition, .node .block bodyPos [.list body], .list parts, .null] =>
    .branch pos (Expr.ofDatum condition) bodyPos (Stmt.ofData body) (Else.ofData .none parts)
  | .node .branch pos [condition, .node .block bodyPos [.list body], .list parts,
      .node .block lastPos [.list last]] =>
    .branch pos (Expr.ofDatum condition) bodyPos (Stmt.ofData body)
      (Else.ofData (.otherwise lastPos (Stmt.ofData last)) parts)
  | .node .loop pos [condition, .node .block bodyPos [.list body]] =>
    .loop pos (Expr.ofDatum condition) bodyPos (Stmt.ofData body)
  | datum => .unknown datum

/-- Reads statements. -/
def Stmt.ofData : List Datum → List Stmt
  | [] => []
  | datum :: data => Stmt.ofDatum datum :: Stmt.ofData data

/-- Reads the conditional bodies of an else part that come before its last body. -/
def Else.ofData (last : Else) : List Datum → Else
  | [] => last
  | .node .elseIf pos [condition, .node .block bodyPos [.list body]] :: parts =>
    .elseIf pos (Expr.ofDatum condition) bodyPos (Stmt.ofData body) (Else.ofData last parts)
  | _ :: parts => Else.ofData last parts

end

/-- Reads a block. -/
def Block.ofDatum? : Datum → Option Block
  | .node .block pos [.list body] => some ⟨pos, Stmt.ofData body⟩
  | _ => none

/-- Reads a guarded body. -/
def ElseIf.ofDatum? : Datum → Option ElseIf
  | .node .elseIf pos [condition, body] =>
    (Block.ofDatum? body).map (⟨pos, Expr.ofDatum condition, ·⟩)
  | _ => none

/-- Reads a parameter. -/
def Param.ofDatum? : Datum → Option Param
  | .node .param pos [type, ident] =>
    (Ident.ofDatum? ident).map (⟨pos, Ty.ofDatum type, ·⟩)
  | _ => none

/-- Reads a function. -/
def Function.ofDatum? : Datum → Option Function
  | .node .function pos [type, ident, .list params, body] => do
    let ident ← Ident.ofDatum? ident
    let params ← params.mapM Param.ofDatum?
    let body ← Block.ofDatum? body
    return ⟨pos, Ty.ofDatum type, ident, params, body⟩
  | _ => none

/-- Reads a program. -/
def Program.ofDatum? : Datum → Option Program
  | .node .program pos [.list functions] =>
    (functions.mapM Function.ofDatum?).map (⟨pos, ·⟩)
  | _ => none

namespace Datum

mutual

/-- A value written on one line, a node as its kind with all its fields. -/
def written : Datum → String
  | null => "None"
  | bool true => "True"
  | bool false => "False"
  | int value => toString value
  | text value => quoteText value
  | word token => "Token(" ++ quoteText token.kind ++ ", " ++ quoteText token.text ++ ")"
  | list items => "[" ++ ", ".intercalate (writtenItems items) ++ "]"
  | node kind pos values =>
    kind.label ++ "(" ++ ", ".intercalate
      (s!"line={pos.line}" :: s!"column={pos.column}" :: writtenFields kind.fields values) ++ ")"

/-- Values written one by one. -/
def writtenItems : List Datum → List String
  | [] => []
  | item :: items => item.written :: writtenItems items

/-- Values written after the names of their fields. -/
def writtenFields : List String → List Datum → List String
  | field :: fields, value :: values => (field ++ "=" ++ value.written) :: writtenFields fields values
  | _, _ => []

end

end Datum

end LeftHand
