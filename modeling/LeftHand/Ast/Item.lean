import LeftHand.Ast.View

/-! Items: what phrases are put together from, words of the text and nodes already built. -/

namespace LeftHand

/-- A part of a phrase. -/
inductive Item where
  | word (word : Word)
  | list (items : List Item)
  | ident (ident : Ident)
  | type (type : Ty)
  | expr (expr : Expr)
  | stmt (stmt : Stmt)
  | param (param : Param)
  | block (block : Block)
  | elseIf (part : ElseIf)
  | function (function : Function)
  | program (program : Program)
  | other (datum : Datum)

namespace Item

mutual

/-- An item in the uniform shape. -/
def toDatum : Item → Datum
  | .word text => .word text
  | .list items => .list (toData items)
  | .ident name => name.toDatum
  | .type written => written.toDatum
  | .expr value => value.toDatum
  | .stmt action => action.toDatum
  | .param declared => declared.toDatum
  | .block body => body.toDatum
  | .elseIf part => part.toDatum
  | .function defined => defined.toDatum
  | .program whole => whole.toDatum
  | .other datum => datum

/-- Items in the uniform shape. -/
def toData : List Item → List Datum
  | [] => []
  | item :: items => item.toDatum :: toData items

end

/-- Reads a node as the item that its kind makes it. -/
def ofNode (kind : NodeKind) (datum : Datum) : Item :=
  if kind.isExpr then expr (.ofDatum datum)
  else if kind.isStmt then stmt (.ofDatum datum)
  else if kind.isType then type (.ofDatum datum)
  else
    let read : Option Item :=
      match kind with
      | .identifier => (Ident.ofDatum? datum).map ident
      | .param => (Param.ofDatum? datum).map param
      | .block => (Block.ofDatum? datum).map block
      | .elseIf => (ElseIf.ofDatum? datum).map elseIf
      | .function => (Function.ofDatum? datum).map function
      | .program => (Program.ofDatum? datum).map program
      | _ => none
    read.getD (other datum)

mutual

/-- Reads an item. -/
def ofDatum : Datum → Item
  | .word text => .word text
  | .list items => .list (ofData items)
  | .node kind pos values => ofNode kind (.node kind pos values)
  | datum => other datum

/-- Reads items. -/
def ofData : List Datum → List Item
  | [] => []
  | datum :: data => ofDatum datum :: ofData data

end

/-- An item where an expression stands; anything else has no meaning there. -/
def asExpr : Item → Expr
  | .expr value => value
  | item => .unknown item.toDatum

end Item

end LeftHand
