import LeftHand.Proofs.Source.Render

/-!
What is written is read back: the text of a program that can be written down has one reading, and
this reading makes the program again, up to its places.
-/

namespace LeftHand

open List

section Expressions

variable {stop : Cursor → Prop} {keep : Bool} {words after : List (List Char)} {value : Expr}

theorem noOperand_operator (op : BinOp) (rest : List (List Char)) : NoOperand (op.text :: rest) := by
  rintro _ _ ⟨⟩
  exact op.onlyFor_text.refuses (by cases op <;> decide)

theorem Reads.single (operand : ∀ after, NoOperand after →
      Reads (fun _ => True) false (.phrase .factor) (words ++ after) [.expr value] after) :
    Reads (Cursor.Breaks 1) false (.phrase .expr) (words ++ ['!', 'e'] :: after) [.expr value]
      (['!', 'e'] :: after) := by
  have chain := @Reads.chain Unit NoOperand (fun _ => value) (fun _ => words) (['!', 'e'] :: after) () []
    operand (fun _ inside => absurd inside not_mem_nil) noOperand_operator
    (by rintro _ _ ⟨⟩; decide) (by rintro _ _ ⟨⟩; decide)
  rw [climb_nil] at chain
  exact chain

theorem Reads.binary {op : BinOp} {left right : List (List Char)} {lhs rhs : Expr}
    (first : ∀ after, Reads (fun _ => True) false (.phrase .factor) (left ++ after) [.expr lhs] after)
    (second : ∀ after, Reads (fun _ => True) false (.phrase .factor) (right ++ after) [.expr rhs] after) :
    Reads (Cursor.Breaks 1) false (.phrase .expr) (left ++ op.text :: right ++ ['!', 'e'] :: after)
      [.expr (.binary .start op lhs rhs)] (['!', 'e'] :: after) := by
  have chain := @Reads.chain (List (List Char) × Expr) (fun _ => True) Prod.snd Prod.fst
    (['!', 'e'] :: after) (left, lhs) [(op, right, rhs)] (fun after _ => first after)
    (fun item inside after _ => by rw [mem_singleton.mp inside]; exact second after)
    (fun _ _ => trivial) trivial (by rintro _ _ ⟨⟩; decide)
  have climbed : (climb Prod.snd 1 lhs [(op, right, rhs)]).1 = (Expr.binary .start op lhs rhs, []) := by
    rw [climb_step (by cases op <;> decide)]
    change (climb Prod.snd 1 (.binary .start op lhs (climb Prod.snd _ rhs []).1.1)
      (climb Prod.snd _ rhs []).1.2).1 = _
    rw [climb_nil, climb_nil]
  rw [climbed] at chain
  simpa [chainWords] using chain

/-- An operand that is read whatever follows is read as an expression where no operator follows. -/
theorem Reads.closed (operand : ∀ after, Reads (fun _ => True) false (.phrase .factor) (words ++ after)
      [.expr value] after) (closes : NoOperator after) :
    Reads (Cursor.Breaks 1) false (.phrase .expr) (words ++ after) [.expr value] after := by
  have chain := @Reads.chain Unit (fun _ => True) (fun _ => value) (fun _ => words) after () []
    (fun after _ => operand after) (fun _ inside => absurd inside not_mem_nil)
    (fun _ _ => trivial) trivial closes
  rw [climb_nil] at chain
  exact chain

/-- An expression is read between its marks, whatever follows. -/
abbrev ReadsInside (words : List (List Char)) (value : Expr) : Prop :=
  ∀ after, Reads (Cursor.Breaks 1) false (.phrase .expr) (words ++ ['!', 'e'] :: after) [.expr value]
    (['!', 'e'] :: after)

theorem Reads.outer (inner : ReadsInside words value) (closes : NoOperator after) :
    Reads (Cursor.Breaks 1) false (.phrase .expr) (wrapped words ++ after) [.expr value] after :=
  .closed (fun after => (inner after).enclosed) closes

theorem Expr.pos_unplaced {value : Expr} (writable : value.Writable) : value.unplaced.pos = .start := by
  cases value with
  | unknown => cases writable
  | _ => rfl

mutual

/-- An expression is read back between its marks. -/
theorem Expr.reads (value : Expr) (writable : value.Writable) (after : List (List Char)) :
    Reads (Cursor.Breaks 1) false (.phrase .expr) (value.words ++ ['!', 'e'] :: after)
      [.expr value.unplaced] (['!', 'e'] :: after) := by
  cases value with
  | decimal pos value =>
    refine .single fun after _ => ?_
    have number := @Reads.number (fun _ => True) false after (.ofInt value writable.1 writable.2)
    rwa [Numeral.value_ofInt] at number
  | string pos value =>
    refine .single fun after _ => ?_
    have string := @Reads.quoted (fun _ => True) false after _ writable
    rwa [String.ofList_toList] at string
  | boolean pos value => exact .single fun after _ => .truth value
  | name pos ident =>
    refine .single fun after none => ?_
    have name := @Reads.nameExpr (fun _ => True) false _ after writable none
    rwa [Ident.word, String.ofList_toList] at name
  | addressOf pos ident =>
    refine .single fun after _ => ?_
    have address := @Reads.addressOf (fun _ => True) false after _ writable
    rwa [Ident.word, String.ofList_toList] at address
  | deref pos value =>
    refine .single fun after _ => .deref ?_
    exact (Expr.reads value writable after).enclosed
  | exec pos ident arguments =>
    refine .single fun after _ => ?_
    have call := @Reads.exec (fun _ => True) false after _ _ writable.1 _
      (Expr.reads_all arguments writable.2 after)
    rw [Ident.word, String.ofList_toList] at call
    rw [Expr.words, cons_append, cons_append, wrapped_append]
    exact call
  | rev pos value =>
    refine .single fun after _ => .rev ?_ (Expr.pos_unplaced writable)
    exact (Expr.reads value writable after).enclosed
  | binary pos op lhs rhs =>
    refine .binary (fun after => ?_) fun after => ?_
    · exact (Expr.reads lhs writable.1 after).enclosed
    · exact (Expr.reads rhs writable.2 after).enclosed
  | unknown node => cases writable

theorem Expr.reads_all (values : List Expr) (writable : Expr.AllWritable values)
    (after : List (List Char)) :
    Reads (Cursor.Starts [.parenEnd]) false (.many (.phrase .expr))
      (Expr.allWords values ++ ['!', 'e'] :: after) ((Expr.unplacedAll values).map .expr)
      (['!', 'e'] :: after) := by
  cases values with
  | nil => exact .many_nil (rejects_of_refuses (by decide))
  | cons value values =>
    rw [Expr.allWords, append_assoc]
    refine .many_cons (.mono (.outer (Expr.reads value writable.1) ?_) ?_)
      (Expr.reads_all values writable.2 after) ?_
    · -- Behind an argument the next one is opened, or the call is closed.
      cases values with
      | nil =>
        rintro _ _ ⟨⟩
        decide
      | cons next values =>
        rintro _ _ ⟨⟩
        decide
    · intro there leads
      exact leads.starts_many.breaks (by decide)
    · intro here faces
      exact not_starts (by decide) faces

end

end Expressions

section Statements

variable {stop : Cursor → Prop} {keep : Bool} {words after : List (List Char)} {value : Expr}
  {actions body : List Stmt}

/-- Where a statement may end: before another one, or before the end of the block. -/
abbrev Cursor.EndsAction : Cursor → Prop :=
  Cursor.Starts (Rule.statement.first ++ [.scopeEnd])

/-- Words at which no else part starts. -/
def NoElse (after : List (List Char)) : Prop :=
  ∀ stop, Rejects stop (.phrase .elseIfStmt) after ∧ Rejects stop (.phrase .elseStmt) after

/-- A word that no else part and no end of a block starts with. -/
def opensAction (word : List Char) : Bool :=
  [Terminal.elseIfWord, .elseWord, .scopeEnd].all (·.refuses word)

theorem noElse_of_opensAction {word : List Char} (opens : opensAction word = true) :
    NoElse (word :: after) := by
  intro stop
  rw [opensAction, all_eq_true] at opens
  refine ⟨rejects_of_refuses ?_, rejects_of_refuses ?_⟩
  · change ([Terminal.elseIfWord].all (·.refuses word)) = true
    rw [all_cons, opens _ (by decide)]
    rfl
  · change ([Terminal.elseWord].all (·.refuses word)) = true
    rw [all_cons, opens _ (by decide)]
    rfl

theorem Stmt.opens {action : Stmt} (writable : action.Writable) (after : List (List Char)) :
    NoElse (action.words ++ after) ∧
      ∀ here : Cursor, here.Faces (action.words ++ after) → ¬ here.Starts [.scopeEnd] := by
  have fixed : ∀ (word : List Char) (more : List (List Char)), opensAction word = true →
      NoElse (word :: more) ∧
        ∀ here : Cursor, here.Faces (word :: more) → ¬ here.Starts [.scopeEnd] := by
    intro word more opens
    refine ⟨noElse_of_opensAction opens, fun here faces => not_starts ?_ faces⟩
    rw [all_cons, all_eq_true.mp opens _ (by decide)]
    rfl
  cases action with
  | expr pos value => exact fixed ['%', 'e'] _ (by decide)
  | ret pos value => cases value <;> exact fixed ['r', 'e', 't'] _ (by decide)
  | noOp pos => exact fixed ['b', 'a', 's', 's'] _ (by decide)
  | declare pos written ident =>
    obtain ⟨_, word, _, _, isBase, spelled, _⟩ := Ty.exists_base writable.1
    rw [Stmt.words, spelled]
    exact fixed word _ (by cases isBase <;> decide)
  | assign pos target value =>
    cases target with
    | name ident =>
      have isName : IsName ident.word := writable.1
      refine ⟨fun stop => ⟨rejects_assigned isName (by decide), rejects_assigned isName (by decide)⟩, ?_⟩
      intro here faces
      exact not_starts (isName.onlyFor.all_refuses (by decide)) faces
    | deref pos pointer => exact fixed ['#'] _ (by decide)
    | unknown node => exact absurd writable.1 not_false
  | branch pos condition bodyPos body rest => exact fixed ['1', 'f'] _ (by decide)
  | loop pos condition bodyPos body => exact fixed ['a', 's'] _ (by decide)
  | unknown node => cases writable

theorem Reads.condition (inner : ReadsInside words value) {next : Form}
    (solid : next.isNullable = false) (firsts : next.first = [.scopeStart]) (body : List (List Char)) :
    Reads (Leads next stop) false (.phrase .expr) (wrapped words ++ (braced body ++ after))
      [.expr value] (braced body ++ after) := by
  refine .mono (.outer inner ?_) ?_
  · rintro _ _ ⟨⟩
    decide
  · intro there leads
    have starts := leads.starts solid
    rw [firsts] at starts
    exact starts.breaks (by decide)

theorem Reads.ret : Reads stop keep (.phrase .retStmt) (['r', 'e', 't'] :: ['$'] :: after)
    [.stmt (.ret .start none)] after :=
  Reads.phrase .retStmt (.seq (.kept rfl) (.seq (.right .empty (rejects_of_refuses (by decide)))
    (.kept rfl))) rfl nofun

theorem Reads.retValue (inner : ReadsInside words value) (placed : value.pos = .start) :
    Reads stop keep (.phrase .retStmt) (['r', 'e', 't'] :: (wrapped words ++ ['$'] :: after))
      [.stmt (.ret .start (some value))] after := by
  have expression : Reads (Cursor.Breaks 1) true (.phrase .expr) (wrapped words ++ ['$'] :: after)
      [.expr value] (['$'] :: after) :=
    (Reads.outer inner (by rintro _ _ ⟨⟩; decide)).keeping
  refine Reads.phrase .retStmt (.seq (.kept rfl) (.seq (.left (expression.mono ?_) ?_) (.kept rfl))) ?_ nofun
  · intro there leads
    exact (leads.starts rfl).breaks (by decide)
  · rintro here faces ⟨_, there, derived, leads⟩
    cases derived
    exact not_starts (by decide) faces (leads.starts rfl)
  · rw [← placed]
    rfl

theorem Reads.bass : Reads stop keep (.phrase .bassStmt) (['b', 'a', 's', 's'] :: ['$'] :: after)
    [.stmt (.noOp .start)] after :=
  Reads.phrase .bassStmt (.seq (.kept rfl) (.kept rfl)) rfl nofun

theorem Reads.declare {written : Ty} (known : written.isKnown = true) (solid : written.isVoid = false)
    {name : List Char} (isName : IsName name) :
    Reads stop keep (.phrase .declareStmt) (written.words ++ name :: ['$'] :: after)
      [.stmt (.declare .start written.unplaced ⟨.start, .ofList name⟩)] after := by
  refine Reads.phrase .declareStmt (.seq (.mono (.type known isName) ?_)
    (.seq (.named isName) (.hidden rfl rfl))) ?_ nofun
  · intro there leads
    exact leads.starts rfl
  · change (demand (!written.unplaced.isVoid) >>= fun _ => _) = _
    rw [Ty.isVoid_unplaced, solid, ← Ty.pos_unplaced known]
    rfl

theorem Reads.assigned (inner : ReadsInside words value) :
    Reads stop false (.seq (.token .assignWord) (.seq (.phrase .expr) (.token .lineEnd)))
      (assWord :: (wrapped words ++ ['$'] :: after)) [.expr value] after := by
  refine .seq (.hidden rfl rfl) (.seq (.mono (.outer inner (by rintro _ _ ⟨⟩; decide)) ?_) (.hidden rfl rfl))
  intro there leads
  exact (leads.starts rfl).breaks (by decide)

/-- An assignment to a name is read as a statement, whatever keyword the name starts with. -/
theorem Reads.assignName {name : List Char} (isName : IsName name) (inner : ReadsInside words value) :
    Reads stop keep (.phrase .statement) (name :: assWord :: (wrapped words ++ ['$'] :: after))
      [.stmt (.assign .start (.name ⟨.start, .ofList name⟩) value)] after := by
  have assignment : Reads stop false (.phrase .assignStmt)
      (name :: assWord :: (wrapped words ++ ['$'] :: after))
      [.stmt (.assign .start (.name ⟨.start, .ofList name⟩) value)] after := by
    refine Reads.phrase .assignStmt (.seq (.right (.named isName) (rejects_of_refuses ?_))
      (.assigned inner)) rfl nofun
    exact isName.onlyFor.refuses (by decide)
  refine Reads.folded .statement (assignment.oneOf (by decide) ?_) rfl
  intro form inside
  by_cases avoids : form.avoids nameTakers = true
  · exact rejects_of_refuses (isName.onlyFor.refuses avoids)
  · have keyword : ∃ rule ∈ [Rule.retStmt, .exprStmt, .bassStmt, .asStmt, .elseIfStmt, .elseStmt],
        form = .phrase rule := by
      revert avoids inside
      revert form
      decide
    obtain ⟨rule, member, rfl⟩ := keyword
    exact rejects_assigned isName member

theorem Reads.assignDeref {target : List (List Char)} {pointer : Expr}
    (outer : ReadsInside target pointer) (inner : ReadsInside words value) :
    Reads stop keep (.phrase .statement)
      (['#'] :: (wrapped target ++ assWord :: (wrapped words ++ ['$'] :: after)))
      [.stmt (.assign .start (.deref .start pointer) value)] after := by
  have assignment : Reads stop false (.phrase .assignStmt)
      (['#'] :: (wrapped target ++ assWord :: (wrapped words ++ ['$'] :: after)))
      [.stmt (.assign .start (.deref .start pointer) value)] after :=
    Reads.phrase .assignStmt (.seq (.left (.derefExpr (outer _).enclosed) (rejects_of_refuses (by decide)))
      (.assigned inner)) rfl nofun
  refine Reads.folded .statement (assignment.oneOf (by decide) ?_) rfl
  intro form inside
  by_cases refused : form.refuses ['#'] = true
  · exact rejects_of_refuses refused
  · have isExpr : form = .phrase .exprStmt := by
      revert refused inside
      revert form
      decide
    -- The dereference is an expression too, but no line ends behind it.
    have dereference : Reads (Cursor.Breaks 1) false (.phrase .expr)
        (['#'] :: wrapped target ++ assWord :: (wrapped words ++ ['$'] :: after))
        [.expr (.deref .start pointer)] (assWord :: (wrapped words ++ ['$'] :: after)) :=
      .closed (fun after => .deref (outer after).enclosed) (by rintro _ _ ⟨⟩; decide)
    rw [isExpr]
    refine .phrase (.seq (Reads.rejects (dereference.mono ?_) ?_))
    · intro there leads
      exact (leads.starts rfl).breaks (by decide)
    · intro there faces leads
      exact not_starts (by decide) faces (leads.starts rfl)

theorem Reads.guarded {kind : Terminal} {word : List Char} (isWord : kind.isWord word = true)
    (hides : kind.isShown = false) (inner : ReadsInside words value) {body : List (List Char)}
    (reads : ReadsBody body actions after) :
    Reads stop false (.inOrder [.token kind, .phrase .expr, .phrase .block])
      (word :: (wrapped words ++ (braced body ++ after)))
      [.expr value, .block ⟨.start, actions⟩] after :=
  .seq (.hidden isWord hides) (.seq (.condition inner rfl rfl body) (.block reads))

/-- A further condition is no last body, though its keyword starts with the other one. -/
theorem rejects_elseStmt :
    Rejects stop (.phrase .elseStmt) (['e', '1', 's', 'e', '1', 'f'] :: after) := by
  refine .phrase ?_
  rintro here faces ⟨_, there, derived, ends⟩
  cases derived with
  | seq keyword behind =>
    cases keyword with
    | token taken =>
      obtain ⟨piece, tail, found, _, rfl⟩ := faces.take?_iff.mp taken
      obtain ⟨rfl, cut⟩ := take?_plain.mp found
      have rest : tail = ['1', 'f'] := by
        simpa using cut.symm
      rw [rest] at behind
      have leads : Leads _ stop _ := ⟨_, there, behind, ends⟩
      obtain ⟨kind, member, ⟨token, last⟩, taken⟩ := leads.starts rfl
      rw [mem_singleton.mp member] at taken
      obtain ⟨_, _, found, _⟩ := Cursor.take?_inside (cons_ne_nil _ _) (by decide) rfl taken
      cases found

/-- What follows the first body of a branch is read: the further conditions, and then the last
body. -/
def ReadsElse (rest : Else) (after : List (List Char)) : Prop :=
  ∃ parts otherwise middle,
    Reads (Leads (.optional (.phrase .elseStmt)) Cursor.EndsAction) false (.many (.phrase .elseIfStmt))
      (rest.words ++ after) (parts.map .elseIf) middle ∧
    Reads Cursor.EndsAction false (.optional (.phrase .elseStmt)) middle
      (otherwise.map .block).toList after ∧
    Else.ofParts otherwise parts = rest.unplaced

theorem readsElse_none (noElse : NoElse after) : ReadsElse .none after :=
  ⟨[], none, after, .many_nil (noElse _).1, .right .empty (noElse _).2, rfl⟩

theorem readsElse_otherwise {pos : Pos}
    (reads : ReadsBody (Stmt.allWords body) (Stmt.unplacedAll body) after) :
    ReadsElse (.otherwise pos body) after := by
  refine ⟨[], some ⟨.start, Stmt.unplacedAll body⟩, _, .many_nil (rejects_of_refuses ?_), .left ?_ ?_, rfl⟩
  · decide
  · exact Reads.phrase .elseStmt (.seq (.hidden rfl rfl) (.block reads)) rfl nofun
  · -- No other statement starts with the keyword.
    rintro here faces ⟨_, there, derived, ends⟩
    cases derived
    exact not_starts (by decide) faces ends

theorem readsElse_elseIf {pos bodyPos : Pos} {condition : Expr} {rest : Else}
    (inner : ReadsInside condition.words condition.unplaced)
    (placed : condition.unplaced.pos = .start)
    (reads : ReadsBody (Stmt.allWords body) (Stmt.unplacedAll body) (rest.words ++ after))
    (others : ReadsElse rest after) :
    ReadsElse (.elseIf pos condition bodyPos body rest) after := by
  obtain ⟨parts, otherwise, middle, many, last, made⟩ := others
  refine ⟨⟨.start, condition.unplaced, ⟨.start, Stmt.unplacedAll body⟩⟩ :: parts, otherwise, middle, ?_,
    last, ?_⟩
  · rw [Else.words, cons_append, append_assoc, append_assoc]
    refine .many_cons (Reads.phrase .elseIfStmt (.guarded rfl rfl inner reads) ?_ nofun) many ?_
    · rw [← placed]
      rfl
    · -- Neither a last body nor another statement starts with the keyword.
      rintro here faces ⟨_, there, derived, ends⟩
      cases derived with
      | left derived => exact rejects_elseStmt here faces ⟨_, there, derived, ends⟩
      | right derived =>
        cases derived
        exact not_starts (by decide) faces ends
  · rw [Else.ofParts, made]
    rfl

theorem Reads.branch {body : List (List Char)} {rest : Else} (inner : ReadsInside words value)
    (placed : value.pos = .start) (reads : ReadsBody body actions (rest.words ++ after))
    (others : ReadsElse rest after) :
    Reads Cursor.EndsAction keep (.phrase .ifStmt)
      (['1', 'f'] :: (wrapped words ++ (braced body ++ (rest.words ++ after))))
      [.stmt (.branch .start value .start actions rest.unplaced)] after := by
  obtain ⟨parts, otherwise, middle, many, last, made⟩ := others
  refine Reads.phrase .ifStmt (.seq (.hidden rfl rfl) (.seq (.condition inner rfl rfl body)
    (.seq (.block reads) (.seq many last)))) ?_ nofun
  have built := (Rule.Forms.branch value ⟨.start, actions⟩ parts otherwise).construct
  rw [made, placed] at built
  exact built

mutual

/-- A statement is read back where no else part follows it. -/
theorem Stmt.reads (action : Stmt) (writable : action.Writable) (after : List (List Char))
    (noElse : NoElse after) :
    Reads Cursor.EndsAction true (.phrase .statement) (action.words ++ after) [.stmt action.unplaced]
      after := by
  cases action with
  | expr pos value =>
    rw [Stmt.words, append_assoc]
    exact Reads.folded .statement (.choose (.exprStmt (.outer (value.reads writable)
      (by rintro _ _ ⟨⟩; decide)) (Expr.pos_unplaced writable)) (by decide) (by decide)) rfl
  | ret pos value =>
    cases value with
    | none => exact Reads.folded .statement (.choose .ret (by decide) (by decide)) rfl
    | some value =>
      rw [Stmt.words, cons_append, append_assoc]
      exact Reads.folded .statement (.choose (.retValue (value.reads writable)
        (Expr.pos_unplaced writable)) (by decide) (by decide)) rfl
  | noOp pos => exact Reads.folded .statement (.choose .bass (by decide) (by decide)) rfl
  | declare pos written ident =>
    obtain ⟨known, solid, isName⟩ := writable
    have declaration := @Reads.declare Cursor.EndsAction false after _ known solid _ isName
    obtain ⟨_, word, _, _, isBase, spelled, _⟩ := Ty.exists_base known
    rw [Ident.word, String.ofList_toList] at declaration
    rw [Stmt.words, append_assoc]
    rw [spelled] at declaration ⊢
    exact Reads.folded .statement (declaration.choose (by decide) (by cases isBase <;> decide)) rfl
  | assign pos target value =>
    rw [Stmt.words, append_assoc, cons_append, append_assoc]
    cases target with
    | name ident =>
      have assignment := @Reads.assignName Cursor.EndsAction true _ after _ _ writable.1
        (value.reads writable.2)
      rwa [Ident.word, String.ofList_toList] at assignment
    | deref pos pointer =>
      exact .assignDeref (pointer.reads writable.1) (value.reads writable.2)
    | unknown node => exact absurd writable.1 not_false
  | branch pos condition bodyPos body rest =>
    rw [Stmt.words, cons_append, append_assoc, append_assoc]
    exact Reads.folded .statement (.choose (.branch (condition.reads writable.1)
      (Expr.pos_unplaced writable.1) (Stmt.reads_all body writable.2.1 _)
      (Else.reads rest writable.2.2 after noElse)) (by decide) (by decide)) rfl
  | loop pos condition bodyPos body =>
    rw [Stmt.words, cons_append, append_assoc]
    have loop : Reads Cursor.EndsAction false (.phrase .asStmt)
        (['a', 's'] :: (wrapped condition.words ++ (braced (Stmt.allWords body) ++ after)))
        [.stmt (.loop .start condition.unplaced .start (Stmt.unplacedAll body))] after := by
      refine Reads.phrase .asStmt (.guarded rfl rfl (condition.reads writable.1)
        (Stmt.reads_all body writable.2 _)) ?_ nofun
      rw [← Expr.pos_unplaced writable.1]
      rfl
    exact Reads.folded .statement (loop.choose (by decide) (by decide)) rfl
  | unknown node => cases writable

theorem Stmt.reads_all (actions : List Stmt) (writable : Stmt.AllWritable actions)
    (after : List (List Char)) :
    ReadsBody (Stmt.allWords actions) (Stmt.unplacedAll actions) after := by
  cases actions with
  | nil => exact .many_nil (rejects_of_refuses (by decide))
  | cons action actions =>
    rw [ReadsBody, Stmt.allWords, append_assoc]
    have noElse : NoElse (Stmt.allWords actions ++ ['!', 's'] :: after) := by
      cases actions with
      | nil => exact fun stop => ⟨rejects_of_refuses (by decide), rejects_of_refuses (by decide)⟩
      | cons next actions =>
        rw [Stmt.allWords, append_assoc]
        exact (Stmt.opens writable.2.1 _).1
    refine .many_cons ((Stmt.reads action writable.1 _ noElse).mono ?_)
      (Stmt.reads_all actions writable.2 after) (Stmt.opens writable.1 _).2
    intro there leads
    exact leads.starts_many

theorem Else.reads (rest : Else) (writable : rest.Writable) (after : List (List Char))
    (noElse : NoElse after) : ReadsElse rest after := by
  cases rest with
  | none => exact readsElse_none noElse
  | elseIf pos condition bodyPos body rest =>
    exact readsElse_elseIf (condition.reads writable.1) (Expr.pos_unplaced writable.1)
      (Stmt.reads_all body writable.2.1 _) (Else.reads rest writable.2.2 after noElse)
  | otherwise bodyPos body =>
    exact readsElse_otherwise (Stmt.reads_all body writable _)

end

end Statements

theorem Function.reads {function : Function} (writable : function.Writable) (stop : Cursor → Prop)
    (rest : List (List Char)) :
    Reads stop false (.phrase .function) (function.words ++ rest) [.function function.unplaced] rest := by
  have defined := @Reads.function stop false rest _ writable.isKnown _ writable.isName _ writable.params _ _
    (Stmt.reads_all function.body.statements writable.body rest)
  rw [Ident.word, String.ofList_toList] at defined
  rw [Function.words, cons_append, append_assoc, cons_append, append_assoc]
  exact defined

/-- A program that can be written down is parsed without ambiguity from its text, and the tree makes
the program again, up to its places. -/
theorem render_reads_back (program : Program) (writable : program.Writable) :
    ∃ tree made, parse program.render = .ok tree ∧ tree.item = .ok (.program made) ∧
      made.unplaced = program.unplaced := by
  obtain ⟨pos, functions⟩ := program
  cases functions with
  | nil => exact absurd rfl writable.filled
  | cons first others =>
    refine Reads.parse ?_ (.program rfl fun function inside => ⟨⟨_, rfl⟩, fun stop rest => ?_⟩)
    · intro word inside
      obtain ⟨function, member, among⟩ := mem_flatMap.mp inside
      exact Function.allSolid (writable.functions function member) word among
    · exact Function.reads (writable.functions function inside) stop rest

/-- A program whose names start with keywords. -/
def keywordProgram : Program :=
  ⟨⟨1, 1⟩, [⟨⟨1, 1⟩, .void ⟨1, 5⟩, ⟨⟨1, 10⟩, "retx"⟩, [⟨⟨2, 1⟩, .pointer ⟨2, 6⟩ (.void ⟨2, 1⟩), ⟨⟨2, 8⟩, "sf@"⟩⟩],
    ⟨⟨3, 1⟩,
      [.declare ⟨4, 1⟩ (.decimal ⟨4, 1⟩) ⟨⟨4, 6⟩, "e1sex"⟩,
       .branch ⟨5, 1⟩ (.boolean ⟨5, 4⟩ true) ⟨5, 9⟩ []
         (.elseIf ⟨6, 1⟩ (.string ⟨6, 8⟩ "a_b") ⟨6, 12⟩ [] .none),
       .assign ⟨7, 1⟩ (.name ⟨⟨7, 1⟩, "e1sex"⟩)
         (.binary ⟨7, 9⟩ .sub (.decimal ⟨7, 9⟩ 0)
           (.exec ⟨7, 11⟩ ⟨⟨7, 16⟩, "execf"⟩ [.deref ⟨7, 20⟩ (.name ⟨7, 21⟩ ⟨⟨7, 21⟩, "sf@"⟩)])),
       .ret ⟨8, 1⟩ none]⟩⟩]⟩

theorem keywordProgram_writable : keywordProgram.Writable := by
  refine ⟨cons_ne_nil _ _, ?_⟩
  intro function inside
  obtain rfl := mem_singleton.mp inside
  refine ⟨rfl, by decide, ?_, ?_⟩
  · intro param inside
    obtain rfl := mem_singleton.mp inside
    exact ⟨rfl, rfl, by decide⟩
  · simp only [Stmt.AllWritable, Stmt.Writable, Expr.Writable, Expr.AllWritable, Target.Writable,
      Else.Writable]
    decide

theorem keywordProgram_reads_back : keywordProgram.Writable ∧
    ∃ tree made, parse keywordProgram.render = .ok tree ∧ tree.item = .ok (.program made) ∧
      made.unplaced = keywordProgram.unplaced :=
  ⟨keywordProgram_writable, render_reads_back keywordProgram keywordProgram_writable⟩

end LeftHand
