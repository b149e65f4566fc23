import LeftHand.Proofs.Ast.Inversion

/-! The nodes of programs, in their uniform shape. -/

namespace LeftHand

open List

/-- One datum is part of another one, at any depth. -/
inductive Datum.Within (part : Datum) : Datum → Prop where
  | self : Within part part
  | list {items : List Datum} {item : Datum} (member : item ∈ items) (within : Within part item) :
      Within part (.list items)
  | node {kind : NodeKind} {pos : Pos} {values : List Datum} {value : Datum} (member : value ∈ values)
      (within : Within part value) : Within part (.node kind pos values)

/-- A property of all nodes that are part of a datum. -/
def Datum.All (holds : NodeKind → Pos → List Datum → Prop) (datum : Datum) : Prop :=
  ∀ kind pos values, (Datum.node kind pos values).Within datum → holds kind pos values

section Nodes

mutual

/-- The nodes of a datum, each before its parts. -/
def Datum.nodes : Datum → List Datum
  | .node kind pos values => .node kind pos values :: Datum.nodesOf values
  | .list items => Datum.nodesOf items
  | .null | .bool _ | .int _ | .text _ | .word _ => []

/-- The nodes of data next to each other. -/
def Datum.nodesOf : List Datum → List Datum
  | [] => []
  | datum :: data => datum.nodes ++ Datum.nodesOf data

end

@[simp] theorem Datum.nodesOf_eq_flatMap (data : List Datum) :
    Datum.nodesOf data = data.flatMap Datum.nodes := by
  induction data with
  | nil => rfl
  | cons datum data ih => rw [nodesOf, ih, flatMap_cons]

theorem Datum.Within.mem_nodes {kind : NodeKind} {pos : Pos} {values : List Datum} {datum : Datum}
    (within : (Datum.node kind pos values).Within datum) : .node kind pos values ∈ datum.nodes := by
  induction within with
  | self => simp [nodes]
  | list member _ ih => simpa [nodes] using ⟨_, member, ih⟩
  | node member _ ih => simpa [nodes] using .inr ⟨_, member, ih⟩

/-- The nodes of an item. -/
def Item.nodes (item : Item) : List Datum :=
  item.toDatum.nodes

theorem Expr.toData_eq_map (values : List Expr) : Expr.toData values = values.map Expr.toDatum := by
  induction values with
  | nil => rfl
  | cons value values ih => rw [Expr.toData, ih, map_cons]

theorem Stmt.toData_eq_map (actions : List Stmt) : Stmt.toData actions = actions.map Stmt.toDatum := by
  induction actions with
  | nil => rfl
  | cons action actions ih => rw [Stmt.toData, ih, map_cons]

theorem Item.toData_eq_map (items : List Item) : Item.toData items = items.map Item.toDatum := by
  induction items with
  | nil => rfl
  | cons item items ih => rw [Item.toData, ih, map_cons]

theorem Else.data_ofParts (last : Option Block) (parts : List ElseIf) :
    (Else.ofParts last parts).elseIfData = parts.map ElseIf.toDatum ∧
      (Else.ofParts last parts).lastDatum = (last.map Block.toDatum).getD .null := by
  induction parts with
  | nil => cases last <;> exact ⟨rfl, rfl⟩
  | cons part parts ih =>
    rw [ofParts, elseIfData, lastDatum, ih.1, ih.2]
    exact ⟨rfl, rfl⟩

end Nodes

/-- A node is no number, unless it is the zero that negation subtracts from. -/
def Datum.IsFrame (node : Datum) : Prop :=
  node.kind? = some .decimal → ∃ pos, node = .node .decimal pos [.int 0]

/-- An item has an allowed place; a list of items has no place of its own. -/
def Item.PlacedBy (allowed : Pos → Prop) : Item → Prop
  | .list _ => True
  | item => allowed item.pos

/-- An item has an allowed place, and puts before the nodes of its parts only nodes that have one
too and are no numbers of the text. -/
def Item.AddsTo (allowed : Pos → Prop) (item : Item) (parts : List Item) : Prop :=
  item.PlacedBy allowed ∧ ∃ added, item.nodes = added ++ parts.flatMap Item.nodes ∧
    ∀ node ∈ added, allowed node.pos ∧ node.IsFrame

section Phrases

variable {allowed : Pos → Prop} {item : Item}

theorem Ty.pos_toDatum (type : Ty) : type.toDatum.pos = type.pos := by
  cases type <;> rfl

theorem Expr.pos_toDatum (value : Expr) : value.toDatum.pos = value.pos := by
  cases value with
  | binary pos op lhs rhs => rw [toDatum]; rfl
  | _ => rfl

theorem Item.placedBy_type {type : Ty} : (Item.type type).PlacedBy allowed ↔ allowed type.pos := by
  rw [← type.pos_toDatum]
  rfl

theorem Item.placedBy_expr {value : Expr} : (Item.expr value).PlacedBy allowed ↔ allowed value.pos := by
  rw [← value.pos_toDatum]
  rfl

theorem Item.placedBy_of_node {kind : NodeKind} {pos : Pos} {values : List Datum}
    (shape : item.toDatum = .node kind pos values) (here : allowed pos) : item.PlacedBy allowed := by
  cases item with
  | word | list => cases shape
  | _ => exact (congrArg (fun datum => allowed datum.pos) shape).mpr here

theorem BinOp.kind_ne_decimal (op : BinOp) : op.kind ≠ .decimal := by
  cases op <;> decide

namespace Item.AddsTo

variable {parts others : List Item} {inner : Item} {kind : NodeKind} {pos : Pos} {values : List Datum}

/-- An item with the nodes of its parts adds none. -/
theorem of_same (here : item.PlacedBy allowed) (same : item.nodes = parts.flatMap nodes) :
    item.AddsTo allowed parts :=
  ⟨here, [], same, forall_mem_nil _⟩

/-- A node around an item and some more parts adds itself to what the item adds. -/
theorem wrap (start : inner.AddsTo allowed parts) (shape : item.toDatum = .node kind pos values)
    (here : allowed pos) (other : kind ≠ .decimal)
    (inside : values.flatMap Datum.nodes = inner.nodes ++ others.flatMap nodes) :
    item.AddsTo allowed (parts ++ others) := by
  obtain ⟨-, added, split, fine⟩ := start
  refine ⟨placedBy_of_node shape here, .node kind pos values :: added, ?_,
    forall_mem_cons.mpr ⟨⟨here, fun same => absurd (Option.some.inj same) other⟩, fine⟩⟩
  rw [nodes, shape, Datum.nodes, Datum.nodesOf_eq_flatMap, inside, split, flatMap_append,
    cons_append, append_assoc]

/-- A node around the parts adds itself. -/
theorem of_node (shape : item.toDatum = .node kind pos values) (here : allowed pos)
    (other : kind ≠ .decimal) (inside : values.flatMap Datum.nodes = parts.flatMap nodes) :
    item.AddsTo allowed parts := by
  refine ⟨placedBy_of_node shape here, [.node kind pos values], ?_,
    forall_mem_singleton.mpr ⟨here, fun same => absurd (Option.some.inj same) other⟩⟩
  rw [nodes, shape, Datum.nodes, Datum.nodesOf_eq_flatMap, inside]
  rfl

end Item.AddsTo

theorem Pointed.addsTo {base written : Ty} {marks parts : List Item} (pointed : Pointed base marks written)
    (given : ∀ part ∈ marks, part.PlacedBy allowed) (start : (Item.type base).AddsTo allowed parts) :
    (Item.type written).AddsTo allowed (parts ++ marks) := by
  induction pointed generalizing parts with
  | nil => rwa [List.append_nil]
  | @cons base word marks written _ _ ih =>
    rw [forall_mem_cons] at given
    -- Each mark puts a pointer around what the marks before it made.
    have around : (Item.type (.pointer word.pos base)).AddsTo allowed (parts ++ [.word word]) :=
      start.wrap rfl given.1 (by decide) (by simp [Item.nodes, Item.toDatum, Datum.nodes])
    simpa using ih given.2 around

variable (closed : ∀ pos other, allowed pos → allowed other → allowed (pos.orElse other))

include closed

theorem Chained.addsTo {level : Rule} {first value : Expr} {items : List Item}
    (chained : Chained level first items value) (here : allowed first.pos)
    (given : ∀ part ∈ items, part.PlacedBy allowed) : (Item.expr value).AddsTo allowed items := by
  induction chained with
  | start => exact .of_same (Item.placedBy_expr.mpr here) (by simp)
  | @more items lhs word op rhs _ _ ih =>
    rw [forall_mem_append] at given
    have operator : allowed word.pos := given.2 (.word word) (by simp)
    -- The operator stands around what was made so far and its right operand.
    exact (ih given.1).wrap rfl (closed _ _ operator here) op.kind_ne_decimal
      (by simp [Item.nodes, Item.toDatum, Datum.nodes])

/-- What the items of a phrase make is placed like one of them, and so are the nodes that it puts
before theirs. -/
theorem Rule.Forms.addsTo {rule : Rule} {items : List Item} (forms : rule.Forms items item)
    (given : ∀ part ∈ items, part.PlacedBy allowed) : item.AddsTo allowed items := by
  have expr {value : Expr} (member : .expr value ∈ items) : allowed value.pos :=
    Item.placedBy_expr.mp (given _ member)
  have type {written : Ty} (member : .type written ∈ items) : allowed written.pos :=
    Item.placedBy_type.mp (given _ member)
  cases forms with
  | expr | factor | otherwise => exact .of_same (given _ mem_cons_self) (by simp)
  | params params =>
    refine .of_same trivial ?_
    simp [Item.nodes, Item.toDatum, Datum.nodes, Item.toData_eq_map, flatMap_map]
  | @chain _ _ first _ value _ chained =>
    obtain ⟨others, rfl, _⟩ := chained.exists_cons
    exact chained.addsTo closed (expr mem_cons_self) given
  | @type base marks written pointed =>
    rw [forall_mem_cons] at given
    have start : (Item.type base).AddsTo allowed [.type base] := .of_same given.1 (by simp)
    exact pointed.addsTo given.2 start
  | neg value =>
    have here := expr mem_cons_self
    -- The zero stands around nothing, and the difference around it and the operand.
    have zero : (Item.expr (.decimal value.pos 0)).AddsTo allowed [] :=
      ⟨Item.placedBy_of_node rfl here, [_], rfl, forall_mem_singleton.mpr ⟨here, fun _ => ⟨_, rfl⟩⟩⟩
    rw [← nil_append [Item.expr value]]
    exact zero.wrap rfl here (by decide) (by simp [Item.nodes, Item.toDatum])
  | branch condition body parts otherwise =>
    obtain ⟨guarded, final⟩ := Else.data_ofParts otherwise parts
    refine .of_node (by rw [Item.toDatum, Stmt.toDatum, guarded, final]) (expr mem_cons_self) (by decide) ?_
    cases otherwise <;> simp [Item.nodes, Item.toDatum, Block.toDatum, Datum.nodes, flatMap_map]
  | param | declare =>
    exact .of_node rfl (type mem_cons_self) (by decide) (by simp [Item.nodes, Item.toDatum])
  | retValue mark value last =>
    exact .of_node rfl (expr (by simp)) (by decide) (by simp [Item.nodes, Item.toDatum, Datum.nodes])
  | rev | exprStmt | elseIf | loop =>
    exact .of_node rfl (expr mem_cons_self) (by decide)
      (by simp [Item.nodes, Item.toDatum, Datum.nodes, Block.toDatum])
  | _ =>
    exact .of_node rfl (given _ mem_cons_self) (by decide)
      (by simp [Item.nodes, Item.toDatum, Datum.nodes, Target.toDatum, Expr.toDatum, Expr.toData_eq_map,
        Stmt.toData_eq_map, Item.toData_eq_map, flatMap_map])

end Phrases

/-- A property of numbers, which says nothing of other nodes, and which zero has. -/
structure IsAboutNumbers (holds : NodeKind → Pos → List Datum → Prop) : Prop where
  other : ∀ kind pos values, kind ≠ .decimal → holds kind pos values
  zero : ∀ pos, holds .decimal pos [.int 0]

/-- The numbers of a program have what the numbers of its tokens have, and zero. -/
theorem readProgram_all {holds : NodeKind → Pos → List Datum → Prop} {text : List Char}
    {program : Program} (about : IsAboutNumbers holds)
    (tokens : ∀ token : Token, token.IsSpelled → ∀ item, token.kind.construct token.word = .ok item →
      ∀ kind pos values, .node kind pos values ∈ item.nodes → holds kind pos values)
    (read : readProgram text = .ok program) : program.toDatum.All holds := by
  have all := readProgram_holds tokens ?_ read
  · exact fun kind pos values within => all kind pos values within.mem_nodes
  · intro rule items item forms given kind pos values member
    have anywhere : ∀ part ∈ items, part.PlacedBy fun _ => True := fun part _ => by cases part <;> trivial
    obtain ⟨_, added, split, fine⟩ := forms.addsTo (fun _ _ _ _ => trivial) anywhere
    rw [split] at member
    rcases mem_append.mp member with own | inside
    · -- A node that the phrase adds is a zero if it is a number.
      by_cases number : kind = .decimal
      · obtain ⟨_, same⟩ := (fine _ own).2 (congrArg some number)
        cases same
        exact about.zero pos
      · exact about.other kind pos values number
    · obtain ⟨part, among, inner⟩ := mem_flatMap.mp inside
      exact given part among kind pos values inner

end LeftHand
