import LeftHand.Proofs.Ast.Unplaced
import LeftHand.Proofs.Grammar.Terminal

/-!
The shape of parse trees: what the items of each form look like, and that phrases are built from
them.
-/

namespace LeftHand

open List

/-- Whether a tree is the void type itself, with no pointer to it. -/
def Tree.isPlainVoid : Tree → Bool
  | .node .voidType _ => true
  | _ => false

/-- An expression has a place of its own. -/
def Expr.IsPlaced (value : Expr) : Prop :=
  value.unplaced.pos = .start

/-- A type has a place of its own. -/
def Ty.IsPlaced (written : Ty) : Prop :=
  written.unplaced.pos = .start

/-- What a token makes. -/
def Terminal.Makes (kind : Terminal) (item : Item) : Prop :=
  match kind with
  | .integer | .string | .booleanLiteral => ∃ value, item = .expr value ∧ value.IsPlaced
  | .identifier => ∃ ident, item = .ident ident
  | kind => ∃ word, item = .word word ∧ ∃ text ∈ kind.spelling.words, word.text = .ofList text

/-- What a phrase makes. -/
def Rule.Makes (rule : Rule) (tree : Tree) (item : Item) : Prop :=
  match rule with
  | .expr | .orExpr | .andExpr | .equality | .comparison | .formula | .term | .factor | .revExpr
  | .negExpr | .execExpr | .nameExpr | .literal => ∃ value, item = .expr value ∧ value.IsPlaced
  | .derefExpr => ∃ pos value, item = .expr (.deref pos value)
  | .statement | .retStmt | .declareStmt | .assignStmt | .exprStmt | .bassStmt | .ifStmt | .asStmt =>
    ∃ action, item = .stmt action
  | .type | .voidType | .decimalType | .booleanType | .charType =>
    -- A type is void exactly if its tree says no more than that.
    ∃ written, item = .type written ∧ written.IsPlaced ∧ written.isVoid = tree.isPlainVoid
  | .param => ∃ declared, item = .param declared
  | .params => ∃ params : List Param, item = .list (params.map .param)
  | .block | .elseStmt => ∃ body, item = .block body
  | .elseIfStmt => ∃ part, item = .elseIf part
  | .function => ∃ defined, item = .function defined
  | .program => ∃ whole, item = .program whole

/-- The trees of a form and the items that they make, side by side. -/
inductive Fits (keep : Bool) : Form → List Tree → List Item → Prop where
  | empty : Fits keep .empty [] []
  | token {kind tree item} (shown : (keep || kind.isShown) = true) (makes : kind.Makes item) :
      Fits keep (.token kind) [tree] [item]
  | hidden {kind} (hides : (keep || kind.isShown) = false) : Fits keep (.token kind) [] []
  | phrase {rule tree item} (makes : rule.Makes tree item) : Fits keep (.phrase rule) [tree] [item]
  | seq {first second trees items more others} (before : Fits keep first trees items)
      (behind : Fits keep second more others) :
      Fits keep (.seq first second) (trees ++ more) (items ++ others)
  | left {left right trees items} (chosen : Fits keep left trees items) :
      Fits keep (.alt left right) trees items
  | right {left right trees items} (chosen : Fits keep right trees items) :
      Fits keep (.alt left right) trees items
  | none {item} : Fits keep (.many item) [] []
  | more {item trees items last others} (before : Fits keep (.many item) trees items)
      (behind : Fits keep item last others) :
      Fits keep (.many item) (trees ++ last) (items ++ others)

namespace Fits

variable {keep : Bool} {kind : Terminal} {rule : Rule} {first second form : Form}
  {trees : List Tree} {items : List Item}

theorem of_empty (fits : Fits keep .empty trees items) : trees = [] ∧ items = [] := by
  cases fits
  exact ⟨rfl, rfl⟩

theorem of_token (fits : Fits keep (.token kind) trees items) (shown : (keep || kind.isShown) = true) :
    ∃ tree item, trees = [tree] ∧ items = [item] ∧ kind.Makes item := by
  cases fits with
  | token _ makes => exact ⟨_, _, rfl, rfl, makes⟩
  | hidden hides =>
    rw [shown] at hides
    cases hides

/-- A hidden token leaves nothing. -/
theorem of_hidden (hides : kind.isShown = false) (fits : Fits false (.token kind) trees items) :
    trees = [] ∧ items = [] := by
  cases fits with
  | token shown _ =>
    rw [Bool.false_or, hides] at shown
    cases shown
  | hidden _ => exact ⟨rfl, rfl⟩

theorem of_phrase (fits : Fits keep (.phrase rule) trees items) :
    ∃ tree item, trees = [tree] ∧ items = [item] ∧ rule.Makes tree item := by
  cases fits with
  | phrase makes => exact ⟨_, _, rfl, rfl, makes⟩

theorem of_seq (fits : Fits keep (.seq first second) trees items) :
    ∃ front some back others, trees = front ++ back ∧ items = some ++ others ∧
      Fits keep first front some ∧ Fits keep second back others := by
  cases fits with
  | seq before behind => exact ⟨_, _, _, _, rfl, rfl, before, behind⟩

theorem behind_hidden (hides : kind.isShown = false)
    (fits : Fits false (.seq (.token kind) second) trees items) : Fits false second trees items := by
  obtain ⟨_, _, _, _, rfl, rfl, before, behind⟩ := fits.of_seq
  obtain ⟨rfl, rfl⟩ := of_hidden hides before
  exact behind

theorem before_hidden (hides : kind.isShown = false)
    (fits : Fits false (.seq first (.token kind)) trees items) : Fits false first trees items := by
  obtain ⟨_, _, _, _, rfl, rfl, before, behind⟩ := fits.of_seq
  obtain ⟨rfl, rfl⟩ := of_hidden hides behind
  simpa using before

theorem of_alt (fits : Fits keep (.alt first second) trees items) :
    Fits keep first trees items ∨ Fits keep second trees items := by
  cases fits with
  | left chosen => exact .inl chosen
  | right chosen => exact .inr chosen

theorem of_many {fine : Item → Prop}
    (each : ∀ {trees items}, Fits keep form trees items → ∀ item ∈ items, fine item)
    (fits : Fits keep (.many form) trees items) : ∀ item ∈ items, fine item := by
  generalize repeated : Form.many form = whole at fits
  induction fits with
  | empty | token | hidden | phrase | seq | left | right => cases repeated
  | none => exact fun _ member => absurd member not_mem_nil
  | more _ behind ih _ =>
    cases repeated
    intro item member
    rcases mem_append.mp member with earlier | last
    · exact ih rfl item earlier
    · exact each behind item last

theorem of_manyPhrases (fits : Fits keep (.many (.phrase rule)) trees items) :
    ∀ item ∈ items, ∃ tree, rule.Makes tree item := by
  refine of_many ?_ fits
  intro trees items fits item member
  obtain ⟨tree, only, rfl, rfl, makes⟩ := fits.of_phrase
  obtain rfl := mem_singleton.mp member
  exact ⟨tree, makes⟩

/-- One of some forms is chosen. -/
theorem of_oneOf {forms : List Form} (filled : forms ≠ [])
    (fits : Fits keep (.oneOf forms) trees items) : ∃ form ∈ forms, Fits keep form trees items := by
  induction forms with
  | nil => exact absurd rfl filled
  | cons form forms ih =>
    cases forms with
    | nil => exact ⟨form, mem_cons_self, fits⟩
    | cons other forms =>
      rcases fits.of_alt with chosen | chosen
      · exact ⟨form, mem_cons_self, chosen⟩
      · obtain ⟨found, member, rest⟩ := ih (cons_ne_nil _ _) chosen
        exact ⟨found, mem_cons_of_mem _ member, rest⟩

theorem length_eq (fits : Fits keep form trees items) : trees.length = items.length := by
  induction fits with
  | empty | token | hidden | phrase | none => rfl
  | left _ ih | right _ ih => exact ih
  | seq _ _ before behind | more _ _ before behind => rw [length_append, length_append, before, behind]

end Fits

/-- Repeated phrases that make nodes of one kind make them from a list. -/
theorem Fits.exists_map {α : Type} {rule : Rule} {keep : Bool} {trees : List Tree} {items : List Item}
    (fits : Fits keep (.many (.phrase rule)) trees items) (make : α → Item)
    (each : ∀ tree item, rule.Makes tree item → ∃ value, item = make value) :
    ∃ values : List α, items = values.map make := by
  have all := fits.of_manyPhrases
  clear fits
  induction items with
  | nil => exact ⟨[], rfl⟩
  | cons first others ih =>
    obtain ⟨tree, makes⟩ := all first mem_cons_self
    obtain ⟨value, rfl⟩ := each tree first makes
    obtain ⟨values, rfl⟩ := ih fun item inside => all item (mem_cons_of_mem _ inside)
    exact ⟨value :: values, rfl⟩

/-- Gathering gives back the list that the items are made from. -/
theorem mapM_map {ε α : Type} (make : α → Item) {step : Item → Except ε α}
    (inverse : ∀ value, step (make value) = .ok value) (values : List α) :
    (values.map make).mapM step = .ok values := by
  induction values with
  | nil => rfl
  | cons value values ih =>
    rw [map_cons, mapM_cons, inverse, ih]
    rfl

theorem allExprs_map (values : List Expr) : allExprs (values.map .expr) = .ok values :=
  mapM_map Item.expr (fun _ => rfl) values

theorem allStmts_map (actions : List Stmt) : allStmts (actions.map .stmt) = .ok actions :=
  mapM_map Item.stmt (fun _ => rfl) actions

theorem allParams_map (params : List Param) : allParams (params.map .param) = .ok params :=
  mapM_map Item.param (fun _ => rfl) params

theorem allElseIfs_map (parts : List ElseIf) : allElseIfs (parts.map .elseIf) = .ok parts :=
  mapM_map Item.elseIf (fun _ => rfl) parts

theorem allFunctions_map (functions : List Function) :
    allFunctions (functions.map .function) = .ok functions :=
  mapM_map Item.function (fun _ => rfl) functions

/-- Nodes that are made from a list are made from a list if they stand elsewhere. -/
theorem map_unplaced {α : Type} (make : α → Item) (unplaced : α → α)
    (alike : ∀ value, (make value).unplaced = make (unplaced value)) (values : List α) :
    (values.map make).map Item.unplaced = (values.map unplaced).map make := by
  simp only [map_map]
  exact map_congr_left fun value _ => alike value

/-- The operands and the operators of each level of precedence. -/
def Rule.level? : Rule → Option (Rule × List Terminal)
  | .orExpr => some (.andExpr, [.orWord])
  | .andExpr => some (.equality, [.andWord])
  | .equality => some (.comparison, [.equalWord, .notEqualWord])
  | .comparison => some (.formula, [.lessWord, .greaterWord, .lessEqualWord, .greaterEqualWord])
  | .formula => some (.term, [.addWord, .subWord])
  | .term => some (.factor, [.mulWord, .divWord, .modWord])
  | _ => none

/-- A type with one pointer around it for each mark. -/
inductive Pointed : Ty → List Item → Ty → Prop where
  | nil {base} : Pointed base [] base
  | cons {base word marks written} (isMark : word.text = "#")
      (onward : Pointed (.pointer word.pos base) marks written) :
      Pointed base (.word word :: marks) written

/-- Operands with operators of a level between them, grouped to the left. -/
inductive Chained (level : Rule) (first : Expr) : List Item → Expr → Prop where
  | start : Chained level first [.expr first] first
  | more {items lhs word op rhs} (before : Chained level first items lhs)
      (spelled : level.operator? word.text = some op) :
      Chained level first (items ++ [.word word, .expr rhs])
        (.binary (word.pos.orElse first.pos) op lhs rhs)

/-- The shapes that the items of a phrase have, and what they make. -/
inductive Rule.Forms : Rule → List Item → Item → Prop where
  | program (first functions) :
      Forms .program (.function first :: functions.map .function) (.program ⟨first.pos, first :: functions⟩)
  | function (mark result ident params body) :
      Forms .function [.word mark, .type result, .ident ident, .list (params.map .param), .block body]
        (.function ⟨mark.pos, result, ident, params, body⟩)
  | params (params : List Param) : Forms .params (params.map .param) (.list (params.map .param))
  | param {written} (ident) (full : written.isVoid = false) :
      Forms .param [.type written, .ident ident] (.param ⟨written.pos, written, ident⟩)
  | block (mark last actions) :
      Forms .block (.word mark :: (actions.map .stmt ++ [.word last])) (.block ⟨mark.pos, actions⟩)
  | ret (mark last) : Forms .retStmt [.word mark, .word last] (.stmt (.ret mark.pos none))
  | retValue (mark value last) :
      Forms .retStmt [.word mark, .expr value, .word last] (.stmt (.ret value.pos (some value)))
  | bass (mark last) : Forms .bassStmt [.word mark, .word last] (.stmt (.noOp mark.pos))
  | declare {written} (ident) (full : written.isVoid = false) :
      Forms .declareStmt [.type written, .ident ident] (.stmt (.declare written.pos written ident))
  | assign (ident value) :
      Forms .assignStmt [.ident ident, .expr value] (.stmt (.assign ident.pos (.name ident) value))
  | store (pos pointer value) :
      Forms .assignStmt [.expr (.deref pos pointer), .expr value]
        (.stmt (.assign pos (.deref pos pointer) value))
  | exprStmt (value) : Forms .exprStmt [.expr value] (.stmt (.expr value.pos value))
  | branch (condition body parts otherwise) :
      Forms .ifStmt (.expr condition :: .block body :: (parts.map .elseIf ++ (otherwise.map .block).toList))
        (.stmt (.branch condition.pos condition body.pos body.statements (.ofParts otherwise parts)))
  | elseIf (condition body) :
      Forms .elseIfStmt [.expr condition, .block body] (.elseIf ⟨condition.pos, condition, body⟩)
  | otherwise (body) : Forms .elseStmt [.block body] (.block body)
  | loop (condition body) : Forms .asStmt [.expr condition, .block body]
      (.stmt (.loop condition.pos condition body.pos body.statements))
  | expr (value) : Forms .expr [.expr value] (.expr value)
  | factor (value) : Forms .factor [.expr value] (.expr value)
  | chain {level level' first items value} (isLevel : level.level? = some level')
      (chained : Chained level first items value) : Forms level items (.expr value)
  | deref {mark} (value) (isMark : mark.text = "#") :
      Forms .derefExpr [.word mark, .expr value] (.expr (.deref mark.pos value))
  | rev (value) : Forms .revExpr [.expr value] (.expr (.rev value.pos value))
  | neg (value) :
      Forms .negExpr [.expr value] (.expr (.binary value.pos .sub (.decimal value.pos 0) value))
  | exec (ident values) :
      Forms .execExpr (.ident ident :: values.map .expr) (.expr (.exec ident.pos ident values))
  | name (ident) : Forms .nameExpr [.ident ident] (.expr (.name ident.pos ident))
  | addressOf {mark} (ident) (isMark : mark.text = "addr") :
      Forms .nameExpr [.word mark, .ident ident] (.expr (.addressOf mark.pos ident))
  | type {base marks written} (pointed : Pointed base marks written) :
      Forms .type (.type base :: marks) (.type written)
  | voidType (word) : Forms .voidType [.word word] (.type (.void word.pos))
  | decimalType (word) : Forms .decimalType [.word word] (.type (.decimal word.pos))
  | booleanType (word) : Forms .booleanType [.word word] (.type (.boolean word.pos))
  | charType (word) : Forms .charType [.word word] (.type (.char word.pos))

section Forms

variable {rule level operand : Rule} {operators : List Terminal} {items marks : List Item} {item : Item}
  {base written : Ty} {first value : Expr}

theorem Pointed.pointTo_eq (pointed : Pointed base marks written) : pointTo base marks = .ok written := by
  induction pointed with
  | nil => rfl
  | cons isMark _ ih =>
    rw [pointTo, isMark]
    exact ih

theorem Pointed.unplaced (pointed : Pointed base marks written) :
    Pointed base.unplaced (marks.map Item.unplaced) written.unplaced := by
  induction pointed with
  | nil => exact .nil
  | cons isMark _ ih => exact .cons isMark ih

section

variable (chained : Chained level first items value)

include chained

theorem Chained.exists_cons : ∃ others, items = .expr first :: others ∧ others.length ≠ 1 := by
  induction chained with
  | start => exact ⟨[], rfl, by simp⟩
  | more _ _ ih =>
    obtain ⟨others, rfl, _⟩ := ih
    exact ⟨_, rfl, by simp⟩

/-- The chain is folded from its end, where the last operator and its operand stand. -/
theorem Chained.foldChain_eq : foldChain level first items.reverse = .ok value := by
  induction chained with
  | start => rfl
  | @more items lhs word op rhs before spelled ih =>
    obtain ⟨others, rfl, _⟩ := before.exists_cons
    cases shape : (Item.expr first :: others).reverse with
    | nil => cases reverse_eq_nil_iff.mp shape
    | cons last earlier =>
      rw [shape] at ih
      rw [reverse_append, shape]
      change foldChain level first (.expr rhs :: .word word :: last :: earlier) = _
      simp only [foldChain, Item.spelling, bind, Except.bind, Option.bind_some, spelled, ih]
      rfl

theorem Chained.unplaced :
    Chained level first.unplaced (items.map Item.unplaced) value.unplaced := by
  induction chained with
  | start => exact .start
  | more _ spelled ih =>
    rw [map_append]
    exact .more ih spelled

theorem Chained.chainItem_eq : chainItem level items = .ok (.expr value) := by
  have folded := chained.foldChain_eq
  obtain ⟨others, rfl, length⟩ := chained.exists_cons
  -- A first operand with one more item would be refused, but items come in pairs.
  match others, length, folded with
  | [], _, folded | _ :: _ :: _, _, folded =>
    simp only [chainItem, folded]
    rfl

end

theorem construct_of_level? (isLevel : level.level? = some (operand, operators)) :
    level.construct items = chainItem level items := by
  cases level <;> cases isLevel <;> rfl

theorem branchItem_eq (condition : Expr) (body : Block) (parts : List ElseIf) (otherwise : Option Block) :
    branchItem condition body (parts.map .elseIf ++ (otherwise.map .block).toList) =
      .ok (.stmt (.branch condition.pos condition body.pos body.statements
        (.ofParts otherwise parts))) := by
  cases otherwise with
  | some last => simp [branchItem, allElseIfs_map, bind, Except.bind, pure, Except.pure]
  | none =>
    -- Without a last body the last guarded one ends the branch, if there is any.
    rcases eq_nil_or_concat parts with rfl | ⟨before, last, rfl⟩
    · rfl
    · simp [branchItem, allElseIfs_map, bind, Except.bind, pure, Except.pure]

/-- Items of one of the shapes are not refused. -/
theorem Rule.Forms.construct (forms : rule.Forms items item) : rule.construct items = .ok item := by
  cases forms with
  | program first functions =>
    change (allFunctions ((first :: functions).map .function) >>= fun functions => _) = _
    rw [allFunctions_map]
    rfl
  | function mark result ident params body =>
    change (allParams (params.map .param) >>= fun params => _) = _
    rw [allParams_map]
    rfl
  | params params =>
    change (allParams (params.map .param) >>= fun params => _) = _
    rw [allParams_map]
    rfl
  | block mark last actions =>
    have ends : (Item.word mark :: (actions.map .stmt ++ [.word last])).getLast? = some (.word last) := by
      rw [← cons_append, getLast?_concat]
    change blockItem _ = _
    rw [blockItem, ends, drop_succ_cons, drop_zero, dropLast_concat, allStmts_map]
    rfl
  | exec ident values =>
    change (allExprs (values.map .expr) >>= fun values => _) = _
    rw [allExprs_map]
    rfl
  | branch condition body parts otherwise => exact branchItem_eq condition body parts otherwise
  | chain isLevel chained => rw [construct_of_level? isLevel, chained.chainItem_eq]
  | type pointed =>
    change (pointTo _ _).map Item.type = _
    rw [pointed.pointTo_eq]
    rfl
  | param _ demanded | declare _ demanded | deref _ demanded | addressOf _ demanded =>
    simp only [Rule.construct, demanded]
    rfl
  | _ => rfl

/-- Expressions and types among items have places of their own. -/
def Item.IsPlaced : Item → Prop
  | .expr value => value.IsPlaced
  | .type written => written.IsPlaced
  | _ => True

theorem Terminal.Makes.isPlaced {kind : Terminal} (makes : kind.Makes item) : item.IsPlaced := by
  cases kind with
  | integer | string | booleanLiteral =>
    obtain ⟨value, rfl, placed⟩ := makes
    exact placed
  | identifier =>
    obtain ⟨_, rfl⟩ := makes
    trivial
  | _ =>
    obtain ⟨_, rfl, _⟩ := makes
    trivial

theorem Rule.Makes.isPlaced {tree : Tree} (makes : rule.Makes tree item) : item.IsPlaced := by
  cases rule with
  | derefExpr =>
    obtain ⟨pos, value, rfl⟩ := makes
    rfl
  | expr | orExpr | andExpr | equality | comparison | formula | term | factor | revExpr | negExpr | execExpr
  | nameExpr | literal =>
    obtain ⟨value, rfl, placed⟩ := makes
    exact placed
  | type | voidType | decimalType | booleanType | charType =>
    obtain ⟨written, rfl, placed, _⟩ := makes
    exact placed
  | _ =>
    obtain ⟨_, rfl⟩ := makes
    trivial

theorem Fits.isPlaced {keep : Bool} {form : Form} {trees : List Tree}
    (fits : Fits keep form trees items) : ∀ item ∈ items, item.IsPlaced := by
  induction fits with
  | empty | hidden | none => exact fun _ member => absurd member not_mem_nil
  | token _ makes => exact forall_mem_singleton.mpr makes.isPlaced
  | phrase makes => exact forall_mem_singleton.mpr makes.isPlaced
  | seq _ _ before behind | more _ _ before behind =>
    exact forall_mem_append.mpr ⟨before, behind⟩
  | left _ ih | right _ ih => exact ih

theorem unplaced_params (params : List Param) :
    (Item.list (params.map .param)).unplaced = .list ((params.map Param.unplaced).map .param) := by
  rw [Item.unplaced, Item.unplacedAll_eq_map, map_unplaced Item.param Param.unplaced fun _ => rfl]

/-- Items that stand elsewhere make the same by the same rule. -/
theorem Rule.Forms.unplaced (forms : rule.Forms items item) (placed : ∀ part ∈ items, part.IsPlaced) :
    rule.Forms (items.map Item.unplaced) item.unplaced := by
  have start {value : Expr} (member : .expr value ∈ items) : value.unplaced.pos = .start :=
    placed (.expr value) member
  have typeStart {written : Ty} (member : .type written ∈ items) : written.unplaced.pos = .start :=
    placed (.type written) member
  have isVoid_unplaced {written : Ty} (full : written.isVoid = false) : written.unplaced.isVoid = false := by
    cases written <;> first | rfl | cases full
  cases forms with
  | program first functions =>
    rw [map_cons, map_unplaced Item.function Function.unplaced fun _ => rfl]
    exact .program first.unplaced (functions.map Function.unplaced)
  | function mark result ident params body =>
    simp only [map_cons, map_nil, unplaced_params]
    exact .function mark.unplaced result.unplaced ident.unplaced _ body.unplaced
  | params params =>
    rw [unplaced_params, map_unplaced Item.param Param.unplaced fun _ => rfl]
    exact .params _
  | block mark last actions =>
    rw [Item.unplaced, Block.unplaced, Stmt.unplacedAll_eq_map, map_cons, map_append,
      map_unplaced Item.stmt Stmt.unplaced fun _ => rfl]
    exact .block mark.unplaced last.unplaced _
  | exec ident values =>
    rw [Item.unplaced, Expr.unplaced, Expr.unplacedAll_eq_map, map_cons,
      map_unplaced Item.expr Expr.unplaced fun _ => rfl]
    exact .exec ident.unplaced _
  | branch condition body parts otherwise =>
    have formed := Forms.branch condition.unplaced body.unplaced (parts.map ElseIf.unplaced)
      (otherwise.map Block.unplaced)
    rw [start mem_cons_self, ← Else.unplaced_ofParts,
      ← map_unplaced Item.elseIf ElseIf.unplaced fun _ => rfl] at formed
    rw [map_cons, map_cons, map_append]
    cases otherwise <;> exact formed
  | chain isLevel chained => exact .chain isLevel chained.unplaced
  | type pointed => exact .type pointed.unplaced
  | deref value isMark => exact .deref value.unplaced isMark
  | addressOf ident isMark => exact .addressOf ident.unplaced isMark
  | param ident full =>
    have formed := Forms.param ident.unplaced (isVoid_unplaced full)
    rwa [typeStart mem_cons_self] at formed
  | declare ident full =>
    have formed := Forms.declare ident.unplaced (isVoid_unplaced full)
    rwa [typeStart mem_cons_self] at formed
  | retValue mark value last =>
    have formed := Forms.retValue mark.unplaced value.unplaced last.unplaced
    rwa [start (by simp)] at formed
  | exprStmt value =>
    have formed := Forms.exprStmt value.unplaced
    rwa [start mem_cons_self] at formed
  | elseIf condition body =>
    have formed := Forms.elseIf condition.unplaced body.unplaced
    rwa [start mem_cons_self] at formed
  | loop condition body =>
    have formed := Forms.loop condition.unplaced body.unplaced
    rwa [start mem_cons_self] at formed
  | rev value =>
    have formed := Forms.rev value.unplaced
    rwa [start mem_cons_self] at formed
  | neg value =>
    have formed := Forms.neg value.unplaced
    rwa [start mem_cons_self] at formed
  | name ident => exact .name ident.unplaced
  | _ => constructor

theorem Chained.isPlaced (chained : Chained level first items value) (placed : first.IsPlaced) :
    value.IsPlaced := by
  cases chained with
  | start => exact placed
  | more => rfl

/-- Marks put pointers around a type, so only without any mark the type can be void. -/
theorem Pointed.isPlaced (pointed : Pointed base marks written) (placed : base.IsPlaced) :
    written.IsPlaced ∧ (marks ≠ [] → written.isVoid = false) := by
  induction pointed with
  | nil => exact ⟨placed, fun marked => absurd rfl marked⟩
  | cons _ onward ih =>
    obtain ⟨whole, solid⟩ := ih rfl
    refine ⟨whole, fun _ => ?_⟩
    cases onward with
    | nil => rfl
    | cons => exact solid (cons_ne_nil _ _)

/-- What the items of a phrase make is a node of the kind that the rule stands for. -/
theorem Rule.Forms.makes (forms : rule.Forms items item) (placed : ∀ part ∈ items, part.IsPlaced)
    (unfolded : rule.isTransparent = true → items.length ≠ 1) (trees : List Tree) :
    rule.Makes (.node rule trees) item := by
  cases forms with
  | deref => exact ⟨_, _, rfl⟩
  | expr value | factor value => exact ⟨value, rfl, placed (.expr value) mem_cons_self⟩
  | rev | neg | exec | name | addressOf => exact ⟨_, rfl, rfl⟩
  | voidType | decimalType | booleanType | charType => exact ⟨_, rfl, rfl, rfl⟩
  | @chain _ _ first _ value isLevel chained =>
    obtain ⟨others, rfl, _⟩ := chained.exists_cons
    have whole := chained.isPlaced (placed (.expr first) mem_cons_self)
    cases rule <;> cases isLevel <;> exact ⟨value, rfl, whole⟩
  | @type base marks written pointed =>
    obtain ⟨whole, solid⟩ := pointed.isPlaced (placed (.type base) mem_cons_self)
    exact ⟨written, rfl, whole, solid (by simpa using unfolded rfl)⟩
  | _ => exact ⟨_, rfl⟩

end Forms

section Shapes

variable {trees : List Tree} {items : List Item}

section Levels

variable {level operand : Rule} {operators : List Terminal}
  (isLevel : level.level? = some (operand, operators))

include isLevel

theorem body_of_level? : level.body = .chain operand operators := by
  cases level <;> cases isLevel <;> rfl

theorem operator_of_level? :
    operators ≠ [] ∧ ∀ kind ∈ operators, kind.isShown = true ∧
      ∀ text ∈ kind.spelling.words, (level.operator? (.ofList text)).isSome = true := by
  cases level <;> cases isLevel <;> decide

theorem makes_operator {kind : Terminal}
    (member : kind ∈ operators) {item : Item} (makes : kind.Makes item) :
    ∃ word, item = .word word ∧ ∃ op, level.operator? word.text = some op := by
  obtain ⟨_, words⟩ := operator_of_level? isLevel
  have known := (words kind member).2
  have isWord : ∃ word, item = .word word ∧ ∃ text ∈ kind.spelling.words, word.text = .ofList text := by
    cases level <;> cases isLevel <;> simp only [mem_cons, not_mem_nil, or_false] at member <;>
      rcases member with rfl | rfl | rfl | rfl <;> exact makes
  obtain ⟨word, rfl, text, spelled, same⟩ := isWord
  exact ⟨word, rfl, Option.isSome_iff_exists.mp (by rw [same]; exact known text spelled)⟩

theorem makes_operand {tree : Tree} {item : Item}
    (makes : operand.Makes tree item) : ∃ value, item = .expr value := by
  cases level <;> cases isLevel <;> exact ⟨_, makes.choose_spec.1⟩

/-- Operators and operands in turn can be grouped to the left. -/
theorem exists_chained {first : Expr}
    (fits : Fits false (.many (.seq (.oneToken operators) (.phrase operand))) trees items) :
    ∃ value, Chained level first (.expr first :: items) value := by
  obtain ⟨filled, shown⟩ := operator_of_level? isLevel
  generalize repeated : Form.many (.seq (.oneToken operators) (.phrase operand)) = whole at fits
  induction fits with
  | empty | token | hidden | phrase | seq | left | right => cases repeated
  | none => exact ⟨first, .start⟩
  | more _ behind ih _ =>
    cases repeated
    obtain ⟨_, _, _, _, _, rfl, operator, operand⟩ := behind.of_seq
    obtain ⟨_, chosen, operator⟩ := Fits.of_oneOf (by simpa using filled) operator
    obtain ⟨kind, member, rfl⟩ := mem_map.mp chosen
    have visible : (false || kind.isShown) = true := (shown kind member).1
    obtain ⟨_, item, _, rfl, makes⟩ := operator.of_token visible
    obtain ⟨word, rfl, op, known⟩ := makes_operator isLevel member makes
    obtain ⟨_, _, _, rfl, makes⟩ := operand.of_phrase
    obtain ⟨rhs, rfl⟩ := makes_operand isLevel makes
    obtain ⟨value, chained⟩ := ih rfl
    exact ⟨_, chained.more known⟩

theorem forms_chain (fits : Fits level.keepsTokens level.body trees items) :
    ∃ item, level.Forms items item := by
  have hides : level.keepsTokens = false := by cases level <;> cases isLevel <;> rfl
  rw [body_of_level? isLevel, hides] at fits
  obtain ⟨_, _, _, others, rfl, rfl, operand, behind⟩ := fits.of_seq
  obtain ⟨_, _, rfl, rfl, makes⟩ := operand.of_phrase
  obtain ⟨first, rfl⟩ := makes_operand isLevel makes
  obtain ⟨value, chained⟩ := exists_chained isLevel behind
  exact ⟨.expr value, .chain isLevel chained⟩

end Levels

theorem exists_pointed {base : Ty} (marks : ∀ item ∈ items, Terminal.pointerMark.Makes item) :
    ∃ written, Pointed base items written := by
  induction items generalizing base with
  | nil => exact ⟨base, .nil⟩
  | cons item items ih =>
    rw [forall_mem_cons] at marks
    obtain ⟨word, rfl, text, spelled, same⟩ := marks.1
    obtain rfl := mem_singleton.mp spelled
    obtain ⟨written, pointed⟩ := ih marks.2
    exact ⟨written, .cons same pointed⟩

theorem makes_base (fits : Fits false (.oneOf [.phrase .voidType, .phrase .decimalType,
    .phrase .booleanType, .phrase .charType]) trees items) :
    ∃ tree item, trees = [tree] ∧ items = [item] ∧ Rule.type.Makes tree item := by
  obtain ⟨form, member, fits⟩ := Fits.of_oneOf (cons_ne_nil _ _) fits
  simp only [mem_cons, not_mem_nil, or_false] at member
  rcases member with rfl | rfl | rfl | rfl <;>
    obtain ⟨tree, item, rfl, rfl, makes⟩ := fits.of_phrase <;>
    exact ⟨tree, item, rfl, rfl, makes⟩

theorem forms_type (fits : Fits false Rule.type.body trees items) : ∃ item, Rule.type.Forms items item := by
  obtain ⟨_, _, _, others, rfl, rfl, base, behind⟩ := fits.of_seq
  obtain ⟨tree, _, rfl, rfl, written, rfl, _⟩ := makes_base base
  have marks : ∀ item ∈ others, Terminal.pointerMark.Makes item := by
    refine Fits.of_many ?_ behind
    intro _ _ fits item member
    obtain ⟨_, only, _, rfl, makes⟩ := fits.of_token rfl
    obtain rfl := mem_singleton.mp member
    exact makes
  obtain ⟨whole, pointed⟩ := exists_pointed marks
  exact ⟨.type whole, .type pointed⟩

theorem forms_program (fits : Fits false Rule.program.body trees items) :
    ∃ item, Rule.program.Forms items item := by
  obtain ⟨_, _, _, _, rfl, rfl, one, behind⟩ := fits.of_seq
  obtain ⟨_, _, rfl, rfl, first, rfl⟩ := one.of_phrase
  obtain ⟨functions, rfl⟩ := behind.exists_map Item.function fun _ _ makes => makes
  exact ⟨_, .program first functions⟩

theorem forms_function (fits : Fits true Rule.function.body trees items) :
    ∃ item, Rule.function.Forms items item := by
  obtain ⟨_, _, _, _, rfl, rfl, marked, fits⟩ := fits.of_seq
  obtain ⟨_, _, _, _, rfl, rfl, typed, fits⟩ := fits.of_seq
  obtain ⟨_, _, _, _, rfl, rfl, named, fits⟩ := fits.of_seq
  obtain ⟨_, _, _, _, rfl, rfl, declared, enclosed⟩ := fits.of_seq
  obtain ⟨_, _, rfl, rfl, mark, rfl, _⟩ := marked.of_token rfl
  obtain ⟨_, _, rfl, rfl, result, rfl, _⟩ := typed.of_phrase
  obtain ⟨_, _, rfl, rfl, ident, rfl⟩ := named.of_token rfl
  obtain ⟨_, _, rfl, rfl, params, rfl⟩ := declared.of_phrase
  obtain ⟨_, _, rfl, rfl, body, rfl⟩ := enclosed.of_phrase
  exact ⟨_, .function mark result ident params body⟩

theorem forms_block (fits : Fits true Rule.block.body trees items) :
    ∃ item, Rule.block.Forms items item := by
  obtain ⟨_, _, _, _, rfl, rfl, opening, fits⟩ := fits.of_seq
  obtain ⟨_, _, _, _, rfl, rfl, statements, closing⟩ := fits.of_seq
  obtain ⟨_, _, rfl, rfl, mark, rfl, _⟩ := opening.of_token rfl
  obtain ⟨_, _, rfl, rfl, last, rfl, _⟩ := closing.of_token rfl
  obtain ⟨actions, rfl⟩ := statements.exists_map Item.stmt fun _ _ makes => makes
  exact ⟨_, .block mark last actions⟩

theorem forms_retStmt (fits : Fits true Rule.retStmt.body trees items) :
    ∃ item, Rule.retStmt.Forms items item := by
  obtain ⟨_, _, _, _, rfl, rfl, marked, fits⟩ := fits.of_seq
  obtain ⟨_, _, _, _, rfl, rfl, valued, closing⟩ := fits.of_seq
  obtain ⟨_, _, rfl, rfl, mark, rfl, _⟩ := marked.of_token rfl
  obtain ⟨_, _, rfl, rfl, last, rfl, _⟩ := closing.of_token rfl
  rcases valued.of_alt with given | absent
  · obtain ⟨_, _, rfl, rfl, value, rfl, _⟩ := given.of_phrase
    exact ⟨_, .retValue mark value last⟩
  · obtain ⟨rfl, rfl⟩ := absent.of_empty
    exact ⟨_, .ret mark last⟩

theorem forms_assignStmt (fits : Fits false Rule.assignStmt.body trees items) :
    ∃ item, Rule.assignStmt.Forms items item := by
  obtain ⟨_, _, _, _, rfl, rfl, target, fits⟩ := fits.of_seq
  obtain ⟨_, _, rfl, rfl, value, rfl, _⟩ := ((fits.behind_hidden rfl).before_hidden rfl).of_phrase
  rcases target.of_alt with place | name
  · obtain ⟨_, _, rfl, rfl, pos, pointer, rfl⟩ := place.of_phrase
    exact ⟨_, .store pos pointer value⟩
  · obtain ⟨_, _, rfl, rfl, ident, rfl⟩ := name.of_token rfl
    exact ⟨_, .assign ident value⟩

theorem forms_ifStmt (fits : Fits false Rule.ifStmt.body trees items) :
    ∃ item, Rule.ifStmt.Forms items item := by
  obtain ⟨_, _, _, _, rfl, rfl, guarding, behind⟩ := (fits.behind_hidden rfl).of_seq
  obtain ⟨_, _, _, _, rfl, rfl, enclosed, others⟩ := behind.of_seq
  obtain ⟨_, _, _, rest, rfl, rfl, guarded, ending⟩ := others.of_seq
  obtain ⟨_, _, rfl, rfl, condition, rfl, _⟩ := guarding.of_phrase
  obtain ⟨_, _, rfl, rfl, body, rfl⟩ := enclosed.of_phrase
  obtain ⟨parts, rfl⟩ := guarded.exists_map Item.elseIf fun _ _ makes => makes
  rcases ending.of_alt with given | absent
  · obtain ⟨_, _, _, rfl, last, rfl⟩ := given.of_phrase
    exact ⟨_, .branch condition body parts (some last)⟩
  · obtain ⟨_, rfl⟩ := absent.of_empty
    exact ⟨_, .branch condition body parts none⟩

/-- A guarded body, whatever word stands before it. -/
theorem guarded_of_fits {mark : Terminal} (hides : mark.isShown = false)
    (fits : Fits false (.inOrder [.token mark, .phrase .expr, .phrase .block]) trees items) :
    ∃ condition body, items = [.expr condition, .block body] := by
  obtain ⟨_, _, _, _, rfl, rfl, guarding, enclosed⟩ := (fits.behind_hidden hides).of_seq
  obtain ⟨_, _, rfl, rfl, condition, rfl, _⟩ := guarding.of_phrase
  obtain ⟨_, _, rfl, rfl, body, rfl⟩ := enclosed.of_phrase
  exact ⟨condition, body, rfl⟩

theorem operand_of_fits {mark : Terminal} (hides : mark.isShown = false)
    (fits : Fits false (.seq (.token mark) (.phrase .factor)) trees items) :
    ∃ value, items = [.expr value] := by
  obtain ⟨_, _, rfl, rfl, value, rfl, _⟩ := (fits.behind_hidden hides).of_phrase
  exact ⟨value, rfl⟩

theorem forms_factor (fits : Fits false Rule.factor.body trees items) :
    ∃ item, Rule.factor.Forms items item := by
  suffices operand : ∃ value, items = [.expr value] by
    obtain ⟨value, rfl⟩ := operand
    exact ⟨_, .factor value⟩
  obtain ⟨form, member, fits⟩ := Fits.of_oneOf (cons_ne_nil _ _) fits
  simp only [mem_cons, not_mem_nil, or_false] at member
  rcases member with rfl | rfl | rfl | rfl | rfl | rfl | rfl
  case inr.inr.inr.inr.inr.inl =>
    obtain ⟨_, _, _, rfl, _, value, rfl⟩ := fits.of_phrase
    exact ⟨_, rfl⟩
  case inr.inr.inr.inr.inr.inr =>
    have inside := (fits.behind_hidden rfl).before_hidden rfl
    obtain ⟨_, _, _, rfl, value, rfl, _⟩ := inside.of_phrase
    exact ⟨value, rfl⟩
  all_goals
    obtain ⟨_, _, _, rfl, value, rfl, _⟩ := fits.of_phrase
    exact ⟨value, rfl⟩

theorem forms_derefExpr (fits : Fits false Rule.derefExpr.body trees items) :
    ∃ item, Rule.derefExpr.Forms items item := by
  obtain ⟨_, _, _, _, rfl, rfl, marked, operand⟩ := fits.of_seq
  obtain ⟨_, _, rfl, rfl, mark, rfl, text, spelled, same⟩ := marked.of_token rfl
  obtain ⟨_, _, rfl, rfl, value, rfl, _⟩ := operand.of_phrase
  obtain rfl := mem_singleton.mp spelled
  exact ⟨_, .deref value same⟩

theorem forms_execExpr (fits : Fits false Rule.execExpr.body trees items) :
    ∃ item, Rule.execExpr.Forms items item := by
  obtain ⟨_, _, _, _, rfl, rfl, named, behind⟩ := (fits.behind_hidden rfl).of_seq
  obtain ⟨_, _, rfl, rfl, ident, rfl⟩ := named.of_token rfl
  have arguments := (behind.behind_hidden rfl).before_hidden rfl
  obtain ⟨values, rfl⟩ := arguments.exists_map Item.expr fun _ _ ⟨value, made, _⟩ => ⟨value, made⟩
  exact ⟨_, .exec ident values⟩

theorem forms_nameExpr (fits : Fits false Rule.nameExpr.body trees items) :
    ∃ item, Rule.nameExpr.Forms items item := by
  obtain ⟨_, _, _, _, rfl, rfl, marked, named⟩ := fits.of_seq
  obtain ⟨_, _, rfl, rfl, ident, rfl⟩ := named.of_token rfl
  rcases marked.of_alt with given | absent
  · obtain ⟨_, _, rfl, rfl, mark, rfl, text, spelled, same⟩ := given.of_token rfl
    obtain rfl := mem_singleton.mp spelled
    exact ⟨_, .addressOf ident same⟩
  · obtain ⟨rfl, rfl⟩ := absent.of_empty
    exact ⟨_, .name ident⟩

end Shapes

end LeftHand
