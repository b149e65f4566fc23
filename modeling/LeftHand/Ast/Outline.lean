import LeftHand.Ast.View

/-! Outlines: programs as trees of labels, one for each node and each plain value. -/

namespace LeftHand

/-- A tree of labels. -/
inductive Outline where
  | mk (label : String) (children : List Outline)
deriving Repr

mutual

/-- The number of labels. -/
def Outline.size : Outline → Nat
  | .mk _ children => Outline.sizes children + 1

/-- The number of labels in outlines next to each other. -/
def Outline.sizes : List Outline → Nat
  | [] => 0
  | child :: children => child.size + Outline.sizes children

end

/-- The name of the type of a plain value. -/
def Datum.typeName : Datum → String
  | .null => "NoneType"
  | .bool _ => "bool"
  | .int _ => "int"
  | .text _ => "str"
  | .word _ => "Token"
  | .list _ => "list"
  | .node kind _ _ => kind.label

/-- The outline of a plain value: its type, and below it the value. -/
def Datum.plainOutline (datum : Datum) : Outline :=
  .mk (datum.typeName ++ ": [yellow] [/yellow]") [.mk ("[red]" ++ datum.written ++ "[/red]") []]

mutual

/-- The outline of a value: below a node stand its fields in order, and the items of a field that is
a list stand there one by one. -/
def Datum.outline : Datum → Outline
  | .node kind pos values =>
    .mk (kind.label ++ ": [yellow]" ++ toString pos.line ++ " " ++ toString pos.column ++
      "[/yellow]") (Datum.fieldOutlines values)
  | datum => datum.plainOutline

/-- The outlines of the fields of a node. -/
def Datum.fieldOutlines : List Datum → List Outline
  | [] => []
  | .list items :: values => Datum.itemOutlines items ++ Datum.fieldOutlines values
  | value :: values => value.outline :: Datum.fieldOutlines values

/-- The outlines of the items of a list. -/
def Datum.itemOutlines : List Datum → List Outline
  | [] => []
  | item :: items => item.outline :: Datum.itemOutlines items

end

end LeftHand
