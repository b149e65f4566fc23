import LeftHand.Ast.Construct

/-!
Nodes without their places: every place is moved to the start of the text, so nodes that differ in
their places only become equal.
-/

namespace LeftHand

/-- The first place of a text. -/
def Pos.start : Pos :=
  ⟨1, 1⟩

/-- A type without its places. -/
def Ty.unplaced : Ty → Ty
  | void _ => void .start
  | decimal _ => decimal .start
  | boolean _ => boolean .start
  | char _ => char .start
  | pointer _ base => pointer .start base.unplaced
  | unknown node => unknown node

/-- A name without its place. -/
def Ident.unplaced (ident : Ident) : Ident :=
  ⟨.start, ident.text⟩

mutual

/-- An expression without its places. -/
def Expr.unplaced : Expr → Expr
  | .decimal _ value => .decimal .start value
  | .string _ value => .string .start value
  | .boolean _ value => .boolean .start value
  | .name _ ident => .name .start ident.unplaced
  | .addressOf _ ident => .addressOf .start ident.unplaced
  | .deref _ value => .deref .start value.unplaced
  | .exec _ ident arguments => .exec .start ident.unplaced (Expr.unplacedAll arguments)
  | .rev _ value => .rev .start value.unplaced
  | .binary _ op lhs rhs => .binary .start op lhs.unplaced rhs.unplaced
  | .unknown node => .unknown node

/-- Expressions without their places. -/
def Expr.unplacedAll : List Expr → List Expr
  | [] => []
  | value :: values => value.unplaced :: Expr.unplacedAll values

end

/-- The left side of an assignment without its places. -/
def Target.unplaced : Target → Target
  | name ident => name ident.unplaced
  | deref _ value => deref .start value.unplaced
  | unknown node => unknown node

mutual

/-- A statement without its places. -/
def Stmt.unplaced : Stmt → Stmt
  | .expr _ value => .expr .start value.unplaced
  | .ret _ value => .ret .start (value.map Expr.unplaced)
  | .noOp _ => .noOp .start
  | .declare _ written ident => .declare .start written.unplaced ident.unplaced
  | .assign _ target value => .assign .start target.unplaced value.unplaced
  | .branch _ condition _ body rest =>
    .branch .start condition.unplaced .start (Stmt.unplacedAll body) rest.unplaced
  | .loop _ condition _ body => .loop .start condition.unplaced .start (Stmt.unplacedAll body)
  | .unknown node => .unknown node

/-- Statements without their places. -/
def Stmt.unplacedAll : List Stmt → List Stmt
  | [] => []
  | action :: actions => action.unplaced :: Stmt.unplacedAll actions

/-- What follows the first body of a branch, without its places. -/
def Else.unplaced : Else → Else
  | .none => .none
  | .elseIf _ condition _ body rest =>
    .elseIf .start condition.unplaced .start (Stmt.unplacedAll body) rest.unplaced
  | .otherwise _ body => .otherwise .start (Stmt.unplacedAll body)

end

/-- A block without its places. -/
def Block.unplaced (block : Block) : Block :=
  ⟨.start, Stmt.unplacedAll block.statements⟩

/-- A guarded body without its places. -/
def ElseIf.unplaced (part : ElseIf) : ElseIf :=
  ⟨.start, part.condition.unplaced, part.body.unplaced⟩

/-- A parameter without its places. -/
def Param.unplaced (param : Param) : Param :=
  ⟨.start, param.type.unplaced, param.ident.unplaced⟩

/-- A function without its places. -/
def Function.unplaced (function : Function) : Function :=
  ⟨.start, function.type.unplaced, function.ident.unplaced, function.params.map Param.unplaced,
    function.body.unplaced⟩

/-- A program without its places. -/
def Program.unplaced (program : Program) : Program :=
  ⟨.start, program.functions.map Function.unplaced⟩

/-- A word without its place. -/
def Word.unplaced (word : Word) : Word :=
  ⟨word.kind, word.text, some 1, some 1⟩

mutual

/-- An item without its places. -/
def Item.unplaced : Item → Item
  | .word mark => .word mark.unplaced
  | .list items => .list (Item.unplacedAll items)
  | .ident name => .ident name.unplaced
  | .type written => .type written.unplaced
  | .expr value => .expr value.unplaced
  | .stmt action => .stmt action.unplaced
  | .param declared => .param declared.unplaced
  | .block body => .block body.unplaced
  | .elseIf part => .elseIf part.unplaced
  | .function defined => .function defined.unplaced
  | .program whole => .program whole.unplaced
  | .other datum => .other datum

/-- Items without their places. -/
def Item.unplacedAll : List Item → List Item
  | [] => []
  | item :: items => item.unplaced :: Item.unplacedAll items

end

/-- A token without its place. -/
def Token.unplaced (token : Token) : Token :=
  { token with place := 0 }

mutual

/-- A parse tree without the places of its tokens. -/
def Tree.unplaced : Tree → Tree
  | .leaf token => .leaf token.unplaced
  | .node rule children => .node rule (Tree.unplacedAll children)

/-- Parse trees without the places of their tokens. -/
def Tree.unplacedAll : List Tree → List Tree
  | [] => []
  | tree :: trees => tree.unplaced :: Tree.unplacedAll trees

end

theorem Expr.unplacedAll_eq_map (values : List Expr) :
    Expr.unplacedAll values = values.map Expr.unplaced := by
  induction values with
  | nil => rfl
  | cons value values ih => rw [Expr.unplacedAll, ih, List.map_cons]

theorem Stmt.unplacedAll_eq_map (actions : List Stmt) :
    Stmt.unplacedAll actions = actions.map Stmt.unplaced := by
  induction actions with
  | nil => rfl
  | cons action actions ih => rw [Stmt.unplacedAll, ih, List.map_cons]

theorem Item.unplacedAll_eq_map (items : List Item) :
    Item.unplacedAll items = items.map Item.unplaced := by
  induction items with
  | nil => rfl
  | cons item items ih => rw [Item.unplacedAll, ih, List.map_cons]

theorem Tree.unplacedAll_eq_map (trees : List Tree) :
    Tree.unplacedAll trees = trees.map Tree.unplaced := by
  induction trees with
  | nil => rfl
  | cons tree trees ih => rw [Tree.unplacedAll, ih, List.map_cons]

theorem Else.unplaced_ofParts (last : Option Block) (parts : List ElseIf) :
    (Else.ofParts last parts).unplaced =
      .ofParts (last.map Block.unplaced) (parts.map ElseIf.unplaced) := by
  induction parts with
  | nil => cases last <;> rfl
  | cons part parts ih =>
    rw [Else.ofParts, Else.unplaced, ih]
    rfl

end LeftHand
