import LeftHand.Proofs.Source.Nodes

/-!
Origins: which part of the parse tree each node of a program comes from, and that the place of a
node lies within that part.
-/

namespace LeftHand

open List

section Parts

/-- The nodes that trees next to each other make. -/
def Tree.nodesAll (trees : List Tree) : List Datum :=
  match Tree.items trees with
  | .ok items => items.flatMap Item.nodes
  | .error _ => []

/-- The nodes that a phrase adds to those of its children, before which they stand. -/
def Tree.added (rule : Rule) (children : List Tree) : List Datum :=
  let whole := nodesAll [.node rule children]
  whole.take (whole.length - (nodesAll children).length)

mutual

/-- The nodes that a tree makes, in order, each with the part of the tree that adds it: a token, or
an occurrence of a rule. -/
def Tree.origins : Tree → List (Datum × Tree)
  | .leaf token => (Tree.nodesAll [.leaf token]).map (·, .leaf token)
  | .node rule children =>
    (Tree.added rule children).map (·, .node rule children) ++ Tree.originsAll children

/-- The nodes that trees next to each other make, each with the part that adds it. -/
def Tree.originsAll : List Tree → List (Datum × Tree)
  | [] => []
  | tree :: trees => tree.origins ++ Tree.originsAll trees

end

theorem Tree.originsAll_append (one two : List Tree) :
    originsAll (one ++ two) = originsAll one ++ originsAll two := by
  induction one with
  | nil => rfl
  | cons tree one ih => rw [cons_append, originsAll, originsAll, ih, append_assoc]

theorem Tree.nodesAll_of_items {trees : List Tree} {items : List Item}
    (made : Tree.items trees = .ok items) : nodesAll trees = items.flatMap Item.nodes := by
  rw [nodesAll, made]

end Parts

/-- A place is the start of one of some tokens. -/
def Token.Among (tokens : List Token) (pos : Pos) : Prop :=
  pos.line = 1 ∧ ∃ token ∈ tokens, pos.column = token.column

section Places

variable {tokens more : List Token} {item : Item}

theorem Token.Among.mono {pos : Pos} (among : Among tokens pos) (subset : tokens ⊆ more) : Among more pos := by
  obtain ⟨line, token, member, column⟩ := among
  exact ⟨line, token, subset member, column⟩

theorem Item.PlacedBy.mono (placed : item.PlacedBy (Token.Among tokens)) (subset : tokens ⊆ more) :
    item.PlacedBy (Token.Among more) := by
  cases item with
  | list items => trivial
  | _ => exact Token.Among.mono placed subset

/-- A place among some tokens, with what is zero taken from another such place, is among them. -/
theorem Token.Among.orElse (pos other : Pos) (among : Among tokens pos) (otherAmong : Among tokens other) :
    Among tokens (pos.orElse other) := by
  obtain ⟨line, token, member, column⟩ := among
  have positive : pos.line ≠ 0 := by omega
  refine ⟨by rw [Pos.orElse, if_neg positive, line], ?_⟩
  simp only [Pos.orElse]
  split
  · exact otherAmong.2
  · exact ⟨token, member, column⟩

theorem Token.placed_of_construct {token : Token} (made : token.kind.construct token.word = .ok item) :
    item.PlacedBy (Among [token]) ∧ ∀ node ∈ item.nodes, Among [token] node.pos := by
  have here : Among [token] token.word.pos := ⟨rfl, token, mem_cons_self, rfl⟩
  unfold Terminal.construct at made
  split at made
  · obtain ⟨value, _, made⟩ := bind_eq_ok.mp made
    obtain ⟨_, _, made⟩ := bind_eq_ok.mp made
    cases made
    exact ⟨here, forall_mem_singleton.mpr here⟩
  all_goals
    cases made
    first | exact ⟨here, forall_mem_singleton.mpr here⟩ | exact ⟨here, forall_mem_nil _⟩

end Places

section Tracing

/-- Items come from trees: their nodes are those that parts of the trees add, and each of these is
placed at a token of the part that adds it. -/
structure Tree.Traced (trees : List Tree) (items : List Item) : Prop where
  made : Tree.items trees = .ok items
  nodes : items.flatMap Item.nodes = (originsAll trees).map Prod.fst
  placed : ∀ item ∈ items, item.PlacedBy (Token.Among (leavesAll trees))
  within : ∀ origin ∈ originsAll trees, origin.2 ∈ walkAll trees ∧ Token.Among origin.2.leaves origin.1.pos
  adds : ∀ rule children, .node rule children ∈ walkAll trees → ∃ inner item,
    Tree.items children = .ok inner ∧ rule.Forms inner item ∧
      item.nodes = added rule children ++ inner.flatMap Item.nodes

namespace Tree.Traced

variable {trees more children : List Tree} {items others : List Item} {rule : Rule} {item : Item}

theorem nil : Traced [] [] where
  made := rfl
  nodes := rfl
  placed := by simp
  within := by simp [originsAll]
  adds := by simp [walkAll]

theorem leaf {token : Token} (built : token.kind.construct token.word = .ok item) :
    Traced [.leaf token] [item] := by
  obtain ⟨here, placed⟩ := Token.placed_of_construct built
  have made : Tree.items [.leaf token] = .ok [item] := by rw [items_leaf, built]; rfl
  have origins : originsAll [.leaf token] = item.nodes.map (·, .leaf token) := by
    rw [originsAll, originsAll, Tree.origins, nodesAll_of_items made, List.append_nil,
      flatMap_singleton]
  refine ⟨made, ?_, forall_mem_singleton.mpr here, ?_, by simp [walkAll, walk]⟩
  · simp [origins, Function.comp_def]
  · rw [origins, forall_mem_map]
    exact fun node member => ⟨by simp [walkAll, walk], placed node member⟩

theorem append (before : Traced trees items) (behind : Traced more others) :
    Traced (trees ++ more) (items ++ others) where
  made := Tree.items_append_iff.mpr ⟨items, others, rfl, before.made, behind.made⟩
  nodes := by
    rw [flatMap_append, before.nodes, behind.nodes, originsAll_append, map_append]
  placed := by
    rw [leavesAll_append]
    refine forall_mem_append.mpr ⟨fun item member => ?_, fun item member => ?_⟩
    · exact (before.placed item member).mono (subset_append_left _ _)
    · exact (behind.placed item member).mono (subset_append_right _ _)
  within := by
    rw [originsAll_append, walkAll_append]
    refine forall_mem_append.mpr ⟨fun origin member => ?_, fun origin member => ?_⟩
    · exact (before.within origin member).imp_left (mem_append_left _)
    · exact (behind.within origin member).imp_left (mem_append_right _)
  adds := by
    intro rule children member
    rw [walkAll_append] at member
    rcases mem_append.mp member with inside | inside
    · exact before.adds rule children inside
    · exact behind.adds rule children inside

theorem node (forms : rule.Forms items item) (inner : Traced children items) :
    Traced [.node rule children] [item] := by
  obtain ⟨among, front, split, placed⟩ := forms.addsTo Token.Among.orElse inner.placed
  have built := forms.construct
  have made : Tree.items [.node rule children] = .ok [item] :=
    Tree.items_node_iff.mpr ⟨items, item, rfl, inner.made, built⟩
  -- What stands before the nodes of the children is what the phrase adds.
  have added_eq : added rule children = front := by
    simp [added, nodesAll_of_items made, nodesAll_of_items inner.made, split]
  have leaves : leavesAll [.node rule children] = leavesAll children := by simp [leavesAll, Tree.leaves]
  have walked : walkAll [.node rule children] = walkAll children ++ [.node rule children] := by
    simp [walkAll, walk]
  have origins : originsAll [.node rule children] =
      front.map (·, .node rule children) ++ originsAll children := by
    simp [originsAll, Tree.origins, added_eq]
  refine ⟨made, ?_, forall_mem_singleton.mpr (leaves ▸ among), ?_, ?_⟩
  · simp [origins, split, inner.nodes, Function.comp_def]
  · rw [origins, walked]
    refine forall_mem_append.mpr ⟨forall_mem_map.mpr fun node member => ?_, ?_⟩
    · exact ⟨by simp, (placed node member).1⟩
    · exact fun origin member => (inner.within origin member).imp_left (mem_append_left _)
  · intro other below member
    rw [walked] at member
    rcases mem_append.mp member with inside | same
    · exact inner.adds other below inside
    · cases mem_singleton.mp same
      exact ⟨items, item, inner.made, forms, by rw [added_eq, split]⟩

end Tree.Traced

mutual

/-- The tokens of a part of a tree are tokens of the tree. -/
theorem Tree.leaves_subset {part : Tree} : (tree : Tree) → part ∈ tree.walk →
    part.leaves ⊆ tree.leaves
  | .leaf token, member => by
    rw [mem_singleton.mp member]
    exact List.Subset.refl _
  | .node rule children, member => by
    rcases mem_append.mp member with inside | same
    · exact Tree.leavesAll_subset children inside
    · rw [mem_singleton.mp same]
      exact List.Subset.refl _

theorem Tree.leavesAll_subset {part : Tree} : (trees : List Tree) → part ∈ Tree.walkAll trees →
    part.leaves ⊆ Tree.leavesAll trees
  | tree :: trees, member => by
    rcases mem_append.mp member with inside | inside
    · exact subset_append_of_subset_left _ (Tree.leaves_subset tree inside)
    · exact subset_append_of_subset_right _ (Tree.leavesAll_subset trees inside)

end

/-- The nodes of the program of a text are those that the parts of its parse tree add, in order, and
each node is placed in the only line of the text, at a token of the part that adds it. A phrase adds
the nodes that stand before those of its children; those of a negation are the difference and its
zero. -/
theorem nodes_placed_in_origins {text : List Char} {program : Program}
    (read : readProgram text = .ok program) :
    '\n' ∉ text ∧ ∃ tree, parse text = .ok tree ∧
      program.toDatum.nodes = tree.origins.map Prod.fst ∧
      (∀ origin ∈ tree.origins, origin.2 ∈ tree.walk ∧ origin.1.pos.line = 1 ∧
        ∃ token ∈ origin.2.leaves, token.StandsIn text ∧ origin.1.pos.column = token.column) ∧
      ∀ rule children, .node rule children ∈ tree.walk →
        Tree.nodesAll [.node rule children] = Tree.added rule children ++ Tree.nodesAll children ∧
        (rule = .negExpr → ∃ value, Tree.items children = .ok [.expr value] ∧
          Tree.added rule children =
            [.node .sub value.pos [.node .decimal value.pos [.int 0], value.toDatum],
              .node .decimal value.pos [.int 0]]) := by
  obtain ⟨tree, parsed, traced⟩ := readProgram_induction (motive := Tree.Traced) .nil
    (fun _ _ _ built => .leaf built) (fun _ _ _ _ before behind => .append before behind)
    (fun _ _ _ _ forms inner => .node forms inner) read
  have origins : Tree.originsAll [tree] = tree.origins := by simp [Tree.originsAll]
  have walked : Tree.walkAll [tree] = tree.walk := by simp [Tree.walkAll]
  obtain ⟨tokens, laid⟩ := exists_tokens parsed
  refine ⟨newline_not_mem parsed, tree, parsed, ?_, fun origin member => ?_,
    fun rule children member => ?_⟩
  · simpa [origins, Item.nodes, Item.toDatum] using traced.nodes
  · obtain ⟨within, line, token, among, column⟩ := traced.within origin (origins ▸ member)
    rw [walked] at within
    have stands := laid.standsIn token (laid.sublist.subset (Tree.leaves_subset tree within among))
    exact ⟨within, line, token, among, stands, column⟩
  · obtain ⟨inner, item, made, forms, split⟩ := traced.adds rule children (walked ▸ member)
    have whole : Tree.items [.node rule children] = .ok [item] :=
      Tree.items_node_iff.mpr ⟨inner, item, rfl, made, forms.construct⟩
    refine ⟨?_, ?_⟩
    · rw [Tree.nodesAll_of_items whole, Tree.nodesAll_of_items made, ← split,
        flatMap_singleton]
    · rintro rfl
      cases forms with
      | chain isLevel => cases isLevel
      | neg value =>
        refine ⟨value, made, append_cancel_right (split.symm.trans ?_)⟩
        simp [Item.nodes, Item.toDatum, Expr.toDatum, Datum.nodes, BinOp.kind]

/-- A program that negates. -/
def negating : List Char :=
  "def v@1d f %s sf@ x$ !s".toList

/-- The zero of a negation is placed at the operand, as the difference is. -/
theorem nodes_placed_in_origins_negating : ∃ program, readProgram negating = .ok program ∧
    (program.toDatum.nodes.map (·.pos.column)) = [1, 1, 5, 10, 12, 19, 19, 19, 19, 19] ∧
    ∃ tree, parse negating = .ok tree ∧ program.toDatum.nodes = tree.origins.map Prod.fst := by
  obtain ⟨program, read, columns⟩ : ∃ program, readProgram negating = .ok program ∧
      program.toDatum.nodes.map (·.pos.column) = [1, 1, 5, 10, 12, 19, 19, 19, 19, 19] :=
    exists_ok_of_any (by decide +kernel)
  obtain ⟨_, tree, parsed, nodes, _⟩ := nodes_placed_in_origins read
  exact ⟨program, read, columns, tree, parsed, nodes⟩

end Tracing

end LeftHand
