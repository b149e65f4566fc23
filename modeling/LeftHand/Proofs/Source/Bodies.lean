import LeftHand.Proofs.Ast.Inversion
import LeftHand.Proofs.Source.Enclosed

/-!
What programs of one function make: the function is made of what its statements make, and a call is
made of what its arguments make.
-/

namespace LeftHand

open List

variable {derivation : Derivation}

section Enclosing

variable {statements functions : List Derivation} {closed : Token} {here there : Cursor}
  {made : List Item}

/-- The function around some statements. -/
def enclosingFunction (actions : List Stmt) : Function :=
  ⟨⟨1, 1⟩, .void ⟨1, 5⟩, ⟨⟨1, 10⟩, "f"⟩, [], ⟨⟨1, 12⟩, actions⟩⟩

/-- The parse trees of the header, up to the body. -/
def headerTrees : List Tree :=
  [.leaf ⟨.defWord, "def".toList, 0⟩, .node .voidType [.leaf ⟨.voidWord, "v@1d".toList, 4⟩],
    .leaf ⟨.identifier, ['f'], 9⟩, .node .params []]

/-- The parse trees of the body. -/
def bodyTrees (statements : List Derivation) (closed : Token) : List Tree :=
  [.leaf ⟨.scopeStart, ['%', 's'], 11⟩] ++ (statements.flatMap (Derivation.trees true) ++ [.leaf closed])

theorem trees_enclosing (statements : List Derivation) (closed : Token) (keep : Bool) :
    (Derivation.enclosing statements closed).trees keep =
      [.node .function (headerTrees ++ [.node .block (bodyTrees statements closed)])] := by
  rw [bodyTrees, ← Derivation.trees_row]
  rfl

theorem items_enclosing (all : DerivesAll (.phrase .statement) here statements there)
    (closes : closed.kind = .scopeEnd) (keep : Bool) :
    Tree.items ((Derivation.enclosing statements closed).trees keep) = .ok made ↔
      ∃ actions, Tree.items (statements.flatMap (Derivation.trees true)) = .ok (actions.map .stmt) ∧
        made = [.function (enclosingFunction actions)] := by
  have head : Tree.items headerTrees =
      .ok [.word ⟨Terminal.defWord.name, "def", some 1, some 1⟩, .type (.void ⟨1, 5⟩),
        .ident ⟨⟨1, 10⟩, "f"⟩, .list []] := rfl
  have opening : Tree.items [.leaf ⟨.scopeStart, ['%', 's'], 11⟩] =
      .ok [.word ⟨Terminal.scopeStart.name, "%s", some 1, some 12⟩] := rfl
  have closing : Tree.items [.leaf closed] = .ok [.word closed.word] := by
    rw [Tree.items_leaf, closes]
    rfl
  have block (actions : List Stmt) := (Rule.Forms.block
    ⟨Terminal.scopeStart.name, "%s", some 1, some 12⟩ closed.word actions).construct
  rw [trees_enclosing]
  constructor
  · intro built
    obtain ⟨_, item, rfl, parts, constructed⟩ := Tree.items_node_iff.mp built
    obtain ⟨_, _, rfl, first, second⟩ := Tree.items_append_iff.mp parts
    cases head.symm.trans first
    obtain ⟨_, body, rfl, inside, blocked⟩ := Tree.items_node_iff.mp second
    obtain ⟨_, _, rfl, opened, inner⟩ := Tree.items_append_iff.mp inside
    cases opening.symm.trans opened
    obtain ⟨between, _, rfl, row, ended⟩ := Tree.items_append_iff.mp inner
    cases closing.symm.trans ended
    -- Between the marks there are statements only.
    have fits := ((derives_many.mpr ⟨statements, rfl, all⟩).checked true).shaped between
      (by rw [Derivation.trees_row]; exact row)
    obtain ⟨actions, rfl⟩ := fits.exists_map Item.stmt fun _ _ makes => makes
    refine ⟨actions, row, ?_⟩
    cases (block actions).symm.trans blocked
    cases (Rule.Forms.function _ _ _ [] _).construct.symm.trans constructed
    rfl
  · rintro ⟨actions, row, rfl⟩
    refine Tree.items_node_iff.mpr ⟨_, _, rfl, Tree.items_append_iff.mpr ⟨_, _, rfl, head, ?_⟩,
      (Rule.Forms.function _ _ _ [] _).construct⟩
    refine Tree.items_node_iff.mpr ⟨_, _, rfl, Tree.items_append_iff.mpr ⟨_, _, rfl, opening, ?_⟩,
      block actions⟩
    exact Tree.items_append_iff.mpr ⟨_, _, rfl, row, closing⟩

theorem length_trees_phrase (rule : Rule) (body : Derivation) (keep : Bool) :
    ((Derivation.phrase rule body).trees keep).length = 1 := by
  rw [Derivation.trees]
  split <;> rfl

theorem DerivesAll.length_trees {rule : Rule} {items : List Derivation} (keep : Bool)
    (all : DerivesAll (.phrase rule) here items there) :
    (items.flatMap (Derivation.trees keep)).length = items.length := by
  induction all with
  | nil => rfl
  | cons derived _ ih =>
    obtain ⟨body, rfl, _⟩ := derived.of_phrase
    rw [flatMap_cons, length_append, length_trees_phrase, ih, length_cons, Nat.add_comm]

/-- A program that makes one function is the derivation of one. -/
theorem exists_actions {program : Program} {function : Function}
    (all : DerivesAll (.phrase .statement) here statements there) (closes : closed.kind = .scopeEnd)
    {next last : Cursor} (others : DerivesAll (.phrase .function) next functions last)
    (made : Tree.items ((Derivation.phrase .program (.seq (.enclosing statements closed)
      (.row functions))).trees false) = .ok [.program program])
    (single : program.functions = [function]) :
    functions = [] ∧ ∃ actions, function = enclosingFunction actions ∧
      Tree.items (statements.flatMap (Derivation.trees true)) = .ok (actions.map .stmt) := by
  have shown : (Derivation.phrase .program (.seq (.enclosing statements closed)
      (.row functions))).trees false = [.node .program ((Derivation.enclosing statements closed).trees false ++
        functions.flatMap (Derivation.trees false))] := by
    rw [← Derivation.trees_row]
    rfl
  rw [shown] at made
  obtain ⟨_, item, same, parts, constructed⟩ := Tree.items_node_iff.mp made
  cases same
  obtain ⟨_, found, rfl, first, more⟩ := Tree.items_append_iff.mp parts
  obtain ⟨actions, row, rfl⟩ := (items_enclosing all closes false).mp first
  have fits := ((derives_many.mpr ⟨functions, rfl, others⟩).checked false).shaped found
    (by rw [Derivation.trees_row]; exact more)
  obtain ⟨defined, rfl⟩ := fits.exists_map Item.function fun _ _ makes => makes
  cases (Rule.Forms.program (enclosingFunction actions) defined).construct.symm.trans constructed
  obtain ⟨rfl, rfl⟩ := List.cons.inj single
  -- Each function would make another one.
  have none : functions.length = 0 := by
    rw [← others.length_trees false, ← Tree.length_of_items more]
    rfl
  exact ⟨eq_nil_of_length_eq_zero none, actions, rfl, row⟩

theorem exists_rule (rules : List Rule) (filled : rules ≠ [])
    (derived : Derives (.oneOf (rules.map .phrase)) here derivation there) :
    ∃ rule ∈ rules, ∃ body, Derives rule.body here body there ∧
      ∀ keep, derivation.trees keep = (Derivation.phrase rule body).trees keep := by
  induction rules generalizing derivation with
  | nil => exact absurd rfl filled
  | cons rule rules ih =>
    cases rules with
    | nil =>
      obtain ⟨body, rfl, inside⟩ := derived.of_phrase
      exact ⟨rule, mem_cons_self, body, inside, fun _ => rfl⟩
    | cons next rules =>
      rcases derived.of_alt with ⟨_, rfl, chosen⟩ | ⟨_, rfl, chosen⟩
      · obtain ⟨body, rfl, inside⟩ := chosen.of_phrase
        exact ⟨rule, mem_cons_self, body, inside, fun _ => rfl⟩
      · obtain ⟨other, member, found⟩ := ih (cons_ne_nil _ _) chosen
        exact ⟨other, mem_cons_of_mem _ member, found⟩

/-- The rules of the other statements make no statement of an expression. -/
theorem not_items_of_rules (rules : List Rule) (filled : rules ≠ [])
    (others : ∀ rule ∈ rules, rule.isTransparent = false ∧ rule ≠ .exprStmt)
    (derived : Derives (.oneOf (rules.map .phrase)) here derivation there) {pos : Pos}
    {value : Expr} :
    Tree.items (derivation.trees false) ≠ .ok [.stmt (.expr pos value)] := by
  intro made
  obtain ⟨rule, member, body, inside, same⟩ := exists_rule rules filled derived
  obtain ⟨solid, differ⟩ := others rule member
  rw [same, Derivation.trees, solid] at made
  obtain ⟨inner, _, single, given, constructed⟩ := Tree.items_node_iff.mp made
  cases single
  cases Rule.forms_of_construct ((inside.checked _).shaped inner given) (by simp [solid]) constructed
  exact differ rfl

theorem trees_statement {choice : Derivation} (chosen : Derives Rule.statement.body here choice there)
    (keep : Bool) : (Derivation.phrase .statement choice).trees keep = choice.trees false := by
  obtain ⟨rule, _, body, _, same⟩ := exists_rule [.retStmt, .exprStmt, .declareStmt, .assignStmt,
    .bassStmt, .ifStmt, .asStmt] (cons_ne_nil _ _) chosen
  obtain ⟨child, single⟩ := length_eq_one_iff.mp (length_trees_phrase rule body false)
  rw [Derivation.trees, show Rule.statement.keepsTokens = false from rfl, same, single]
  rfl

theorem trees_ofStatement (expression : Derivation) {ended : Token} (isEnd : ended.kind = .lineEnd)
    (keep : Bool) :
    (Derivation.ofStatement expression ended).trees keep = [.node .exprStmt (expression.trees false)] := by
  have hidden : (Derivation.token ended).trees false = [] := by
    rw [Derivation.trees, isEnd]
    rfl
  show [Tree.node .exprStmt (expression.trees false ++ (Derivation.token ended).trees false)] = _
  rw [hidden, List.append_nil]

/-- A statement that makes the statement of an expression is the derivation of one. -/
theorem exists_ofStatement {pos : Pos} {value : Expr} {keep : Bool}
    (derived : Derives (.phrase .statement) here derivation there)
    (made : Tree.items (derivation.trees keep) = .ok [.stmt (.expr pos value)]) :
    ∃ expression ended middle, derivation = .ofStatement expression ended ∧
      Derives (.phrase .expr) here expression middle ∧ middle.take? .lineEnd = some (ended, there) ∧
        Tree.items (expression.trees false) = .ok [.expr value] := by
  obtain ⟨choice, rfl, chosen⟩ := derived.of_phrase
  have inside := made
  rw [trees_statement chosen] at inside
  rcases chosen.of_alt with ⟨_, rfl, returned⟩ | ⟨_, rfl, unreturned⟩
  · exact absurd inside (not_items_of_rules [.retStmt] (cons_ne_nil _ _) (by decide) returned)
  · rcases unreturned.of_alt with ⟨_, rfl, statement⟩ | ⟨_, rfl, others⟩
    · obtain ⟨_, rfl, parts⟩ := statement.of_phrase
      obtain ⟨expression, _, middle, rfl, first, second⟩ := parts.of_seq
      obtain ⟨ended, rfl, taken⟩ := derives_token.mp second
      refine ⟨expression, ended, middle, rfl, first, taken, ?_⟩
      have shown := trees_ofStatement expression (Cursor.kind_of_take? taken) keep
      obtain ⟨inner, _, single, given, constructed⟩ := Tree.items_node_iff.mp (shown ▸ made)
      cases single
      -- An expression makes one expression, and the statement is made of that.
      obtain ⟨_, _, _, rfl, found, rfl, _⟩ := ((first.checked false).shaped inner given).of_phrase
      cases constructed
      exact given
    · exact absurd inside (not_items_of_rules [.declareStmt, .assignStmt, .bassStmt, .ifStmt, .asStmt]
        (cons_ne_nil _ _) (by decide) others)

end Enclosing
section Call

variable {level operand : Rule} {operators : List Terminal} {value : Derivation} {given : Expr}
  {arguments : List Derivation} {values : List Expr} {closed : Token} {place : Nat} {keep : Bool}

theorem items_lone (isLevel : level.level? = some (operand, operators))
    (made : Tree.items (value.trees false) = .ok [.expr given]) :
    Tree.items ((Derivation.phrase level (.seq value .empty)).trees keep) = .ok [.expr given] := by
  have shown : (Derivation.phrase level (.seq value .empty)).trees keep =
      [.node level (value.trees false ++ [])] := by
    cases level <;> cases isLevel <;> rfl
  have kept : level.construct [.expr given] = .ok (.expr given) := by
    cases level <;> cases isLevel <;> rfl
  rw [shown, List.append_nil]
  exact Tree.items_node_iff.mpr ⟨_, _, rfl, made, kept⟩

theorem items_ofFactor (made : Tree.items (value.trees false) = .ok [.expr given]) :
    Tree.items ((Derivation.ofFactor value).trees keep) = .ok [.expr given] := by
  refine Tree.items_node_iff.mpr ⟨[.expr given], .expr given, rfl, ?_, rfl⟩
  apply items_lone rfl
  apply items_lone rfl
  apply items_lone rfl
  apply items_lone rfl
  apply items_lone rfl
  exact items_lone rfl made

theorem items_ofArguments (closes : closed.kind = .parenEnd)
    (made : Tree.items (arguments.flatMap (Derivation.trees false)) = .ok (values.map .expr)) :
    Tree.items ((Derivation.ofArguments arguments closed place).trees keep) =
      .ok [.stmt (.expr ⟨1, 20⟩ (.exec ⟨1, 20⟩ ⟨⟨1, 20⟩, "f"⟩ values))] := by
  have hidden : (Derivation.token closed).trees false = [] := by
    rw [Derivation.trees, closes]
    rfl
  have name : Tree.items [.leaf ⟨.identifier, ['f'], 19⟩] = .ok [.ident ⟨⟨1, 20⟩, "f"⟩] := rfl
  have call := (Rule.Forms.exec ⟨⟨1, 20⟩, "f"⟩ values).construct
  rw [Derivation.ofArguments, trees_ofStatement _ rfl]
  refine Tree.items_node_iff.mpr
    ⟨[.expr (.exec ⟨1, 20⟩ ⟨⟨1, 20⟩, "f"⟩ values)], _, rfl, items_ofFactor ?_, rfl⟩
  -- Of the tokens of a call only the name is shown.
  have shown : (Derivation.ofCall ⟨.execWord, "exec".toList, 14⟩ ⟨.identifier, ['f'], 19⟩
      ⟨.parenStart, ['%', 'e'], 21⟩ arguments closed).trees false =
        [.node .factor [.node .execExpr ([.leaf ⟨.identifier, ['f'], 19⟩] ++
          ((Derivation.row arguments).trees false ++ (Derivation.token closed).trees false))]] := rfl
  rw [shown, hidden, List.append_nil, Derivation.trees_row]
  refine Tree.items_node_iff.mpr ⟨[.expr _], _, rfl, ?_, rfl⟩
  exact Tree.items_node_iff.mpr ⟨_, _, rfl, Tree.items_append_iff.mpr ⟨_, _, rfl, name, made⟩, call⟩

end Call

end LeftHand
