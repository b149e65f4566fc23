import LeftHand.Proofs.Lower.Shape
import LeftHand.Proofs.Typing.Expr
import LeftHand.Proofs.Typing.Live

/-! Statements are lowered if and only if every live one keeps the rules. -/

namespace LeftHand

open Ir

variable {isVerbose : Bool} {callees : Callees} {env env' : Env} {vars : Vars}
  {before after : Draft} {pos bodyPos : Pos} {condition : Expr} {stmt : Stmt} {body : List Stmt}
  {rest : Else} {waiting : List BlockRef}

/-- Whether a node is a type all the way down. -/
def Ty.isKnown : Ty → Bool
  | .pointer _ base => base.isKnown
  | .unknown _ => false
  | _ => true

theorem Ty.lower_kind_eq_void {type : Ty} (known : type.isKnown = true) :
    type.kind.lower = .void ↔ type.isVoid = true := by
  cases type with
  | void | decimal | boolean | char | pointer => simp [kind, isVoid, Kind.lower]
  | unknown => cases known

/-- Types are lowered as their kinds are, unless they point to void. -/
theorem lowerType_eq_ok {isRaised : Bool} {type : Ty} {lowered : Ir.Ty} :
    lowerType isRaised type = .ok lowered ↔
      type.isKnown = true ∧ type.pointsToVoid = false ∧ lowered = type.kind.lower := by
  induction type generalizing lowered with
  | void | decimal | boolean | char =>
    simp [lowerType, Ty.isKnown, Ty.pointsToVoid, Ty.kind, Kind.lower, eq_comm]
  | unknown => simp [lowerType, Ty.isKnown]
  | pointer pos base ih =>
    -- The base is lowered first, and must not have become void.
    have peel : lowerType isRaised (.pointer pos base) = .ok lowered ↔
        ∃ target, lowerType isRaised base = .ok target ∧ target ≠ .void ∧
          lowered = .pointer target := by
      rw [lowerType, bind_eq_ok]
      refine exists_congr fun target => and_congr_right fun _ => ?_
      cases target <;> simp [pure, Except.pure, eq_comm]
    rw [peel]
    constructor
    · intro accepted
      obtain ⟨target, inner, full, rfl⟩ := accepted
      obtain ⟨known, proper, rfl⟩ := ih.mp inner
      have notVoid : base.isVoid = false := by
        by_contra isVoid
        exact full ((Ty.lower_kind_eq_void known).mpr (by simpa using isVoid))
      exact ⟨known, by simp [Ty.pointsToVoid, notVoid, proper], rfl⟩
    · intro accepted
      obtain ⟨known, proper, rfl⟩ := accepted
      simp only [Ty.isKnown, Ty.pointsToVoid, Bool.or_eq_false_iff] at known proper
      refine ⟨base.kind.lower, ih.mpr ⟨known, proper.2, rfl⟩, ?_, rfl⟩
      rw [ne_eq, Ty.lower_kind_eq_void known, proper.1]
      decide

theorem Draft.Ready.moves {draft : Draft} (ready : draft.Ready callees) (moved : draft.Moves after) :
    after.Ready callees :=
  ready.alike moved.session moved.constants moved.name moved.signature moved.params

theorem Env.Matches.cons (agree : env.Matches vars) {address : Value} {kind : Kind}
    (placed : address.type = .pointer kind.lower) (name : String) :
    Env.Matches ((name, address) :: env) ((name, kind) :: vars) := by
  intro wanted
  rw [List.lookup_cons, List.lookup_cons]
  by_cases same : wanted = name
  · simp [same, placed]
  · have other : (wanted == name) = false := by simpa using same
    simpa [other] using agree wanted

/-- A part that keeps the rules. -/
abbrev Part.WellTyped (callees : Callees) (vars : Vars) (part : Part) : Prop :=
  part.Keeps (fun vars asked => HasKind callees vars asked .boolean)
    (fun vars stmt => stmt.Typed callees vars) vars

theorem Stmt.typed_branch :
    (Stmt.branch pos condition bodyPos body rest).Typed callees vars ↔
      ∀ asked ∈ condition :: rest.conditions, HasKind callees vars asked .boolean := by
  constructor
  · intro typed
    cases typed with
    | branch truths => exact truths
  · exact .branch

theorem Stmt.typed_loop :
    (Stmt.loop pos condition bodyPos body).Typed callees vars ↔
      HasKind callees vars condition .boolean ∧ body.any Stmt.isRet = false := by
  constructor
  · intro typed
    cases typed with
    | loop truth repeats => exact ⟨truth, repeats⟩
  · intro typed
    exact .loop typed.1 typed.2

section

variable (agree : env.Matches vars)

include agree

variable (ready : before.Ready callees)

include ready

theorem lowerTarget_sound {target : Target} {address : Value}
    (lowered : Gives (lowerTarget isVerbose env target) before address after) :
    after.Ready callees ∧ ∀ kind : Kind, address.type = .pointer kind.lower →
      target.HasKind callees vars kind := by
  cases target with
  | name ident =>
    obtain ⟨known, rfl⟩ := gives_lookupName.mp lowered
    obtain ⟨kind, declared, placed⟩ := agree.exists_kind known
    refine ⟨ready, fun other same => .name ?_⟩
    rwa [← Kind.lower_injective (Ir.Ty.pointer.inj (placed.symm.trans same))]
  | deref derefPos value =>
    obtain ⟨ready, kind, typed, typeEq⟩ := lowerExpr_sound agree value ready lowered
    refine ⟨ready, fun other same => .deref ?_⟩
    rwa [← Kind.eq_of_type (.pointer other) typeEq same]
  | unknown node => simp only [lowerTarget, gives_report] at lowered

theorem lowerTarget_complete {target : Target} {kind : Kind}
    (typed : target.HasKind callees vars kind) :
    ∃ address after, Gives (lowerTarget isVerbose env target) before address after ∧
      address.type = .pointer kind.lower := by
  cases typed with
  | name declared =>
    obtain ⟨address, known, placed⟩ := agree.exists_address declared
    exact ⟨address, before, by simp [lowerTarget, known], placed⟩
  | deref typed => exact lowerExpr_complete agree _ ready typed

theorem lowerCondition_sound {truth : Value}
    (lowered : Gives (lowerCondition isVerbose env condition) before truth after) :
    after.Ready callees ∧ HasKind callees vars condition .boolean := by
  obtain ⟨evaluated, isTruth⟩ := gives_lowerCondition.mp lowered
  obtain ⟨ready, kind, typed, typeEq⟩ := lowerExpr_sound agree condition ready evaluated
  obtain rfl := Kind.eq_of_type .boolean typeEq isTruth
  exact ⟨ready, typed⟩

theorem lowerCondition_complete (typed : HasKind callees vars condition .boolean) :
    ∃ truth after, Gives (lowerCondition isVerbose env condition) before truth after := by
  obtain ⟨truth, after, evaluated, typeEq⟩ := lowerExpr_complete agree condition ready typed
  exact ⟨truth, after, gives_lowerCondition.mpr ⟨evaluated, typeEq⟩⟩

theorem plain_sound (isPlain : stmt.isPlain = true)
    (lowered : Gives (lowerStmt isVerbose env stmt) before env' after) :
    after.Ready callees ∧ env'.Matches (stmt.scope vars) ∧ stmt.Typed callees vars := by
  cases stmt with
  | expr exprPos value =>
    simp only [lowerStmt, gives_bind, gives_pure] at lowered
    obtain ⟨_, _, evaluated, rfl, rfl⟩ := lowered
    obtain ⟨ready, kind, typed, _⟩ := lowerExpr_sound agree value ready evaluated
    exact ⟨ready, agree, .expr typed⟩
  | noOp =>
    obtain ⟨rfl, rfl⟩ := gives_pure.mp lowered
    exact ⟨ready, agree, .noOp⟩
  | declare declarePos type ident =>
    obtain ⟨lowered, absent, accepted, _, rfl, rfl⟩ := gives_declare.mp lowered
    obtain ⟨_, proper, rfl⟩ := lowerType_eq_ok.mp accepted
    have free : vars.lookup ident.text = none := by simpa [absent] using (agree ident.text).symm
    exact ⟨ready.write .., agree.cons rfl _, .declare free proper⟩
  | assign assignPos target value =>
    obtain ⟨rfl, address, targeted, operand, evaluated, placed, valued, stored⟩ :=
      gives_assign.mp lowered
    obtain ⟨ready, place⟩ := lowerTarget_sound agree ready placed
    obtain ⟨ready, kind, typed, typeEq⟩ := lowerExpr_sound agree value ready valued
    rcases stored with ⟨character, string, rfl⟩ | ⟨same, rfl⟩
    · obtain rfl := Kind.eq_of_type (.pointer .char) typeEq string
      exact ⟨(ready.write ..).write .., agree, .assignFirst (place .char character) typed⟩
    · exact ⟨ready.write .., agree, .assign (place kind (by rw [same, typeEq])) typed⟩
  | ret | branch | loop | unknown => cases isPlain

end

/-- A draft into which statements can be lowered: its block is open, others wait, and it is known
what can be called and what the function gives. -/
structure Draft.Stage (callees : Callees) (result : Ir.Ty) (waiting : List BlockRef) (draft : Draft) :
    Prop where
  shape : draft.Shape waiting
  going : draft.isEnded = false
  ready : draft.Ready callees
  gives : draft.function.signature.result = result

namespace Draft.Stage

variable {draft : Draft} {result : Ir.Ty}

theorem moves {others : List BlockRef} (stage : before.Stage callees result waiting)
    (moved : before.Moves after) (shape : after.Shape others) (going : after.isEnded = false) :
    after.Stage callees result others :=
  ⟨shape, going, stage.ready.moves moved, moved.signature ▸ stage.gives⟩

theorem toInside {ring : Ring} (stage : draft.Stage callees result (ring.inside :: waiting))
    (truth : Value) : (draft.toInside ring truth).Stage callees result waiting :=
  stage.moves (toInside_moves stage.going ring truth) (stage.shape.toInside truth)
    (stage.shape.isEnded_toInside truth)

variable (stage : draft.Stage callees result waiting)

include stage

theorem toTest : draft.toTest.Stage callees result (draft.ring.inside :: draft.ring.join :: waiting) :=
  stage.moves (toTest_moves stage.going) stage.shape.toTest (isEnded_eq_false stage.shape.block?_toTest)

theorem fork_false (truth : Value) :
    (draft.fork truth false).Stage callees result ((draft.arms false).join :: waiting) :=
  stage.moves (fork_moves stage.going truth false) (stage.shape.fork_false truth)
    (stage.shape.isEnded_fork truth false)

theorem fork_true (truth : Value) : (draft.fork truth true).Stage callees result
    ((draft.arms true).whenFalse :: (draft.arms true).join :: waiting) :=
  stage.moves (fork_moves stage.going truth true) (stage.shape.fork_true truth)
    (stage.shape.isEnded_fork truth true)

/-- Behind a condition, lowering goes on where it was. -/
theorem tested {truth : Value} (agree : env.Matches vars)
    (evaluated : Gives (lowerCondition isVerbose env condition) draft truth after) :
    after.Stage callees result waiting ∧ HasKind callees vars condition .boolean := by
  obtain ⟨code, appended⟩ := lowerCondition_appends evaluated
  obtain ⟨ready, typed⟩ := lowerCondition_sound agree stage.ready evaluated
  exact ⟨⟨stage.shape.appends appended, appended.isEnded_eq.trans stage.going, ready,
    appended.signature ▸ stage.gives⟩, typed⟩

end Draft.Stage

section

variable {site : Site} {part : Part} {log : Log} {result : Ir.Ty}
  (lowered : Lowers isVerbose site env part before env' after log)

include lowered

theorem Lowers.stage (stage : before.Stage callees result waiting) (ready : after.Ready callees)
    (going : after.isEnded = false) : after.Stage callees result waiting :=
  ⟨lowered.shape stage.shape, going, ready,
    (lowered.grows stage.shape stage.going).signature ▸ stage.gives⟩

/-- From the end of a part, lowering goes on in a block that waits. -/
theorem Lowers.stage_leave_goTo {block : BlockRef}
    (stage : before.Stage callees result (block :: waiting)) (ready : after.Ready callees)
    (join : BlockRef) : ((after.leave join).goTo block).Stage callees result waiting := by
  have atEnd := lowered.shape stage.shape
  have moved := after.leave_goTo_moves join block
  have gives := (lowered.grows stage.shape stage.going).signature ▸ stage.gives
  exact ⟨atEnd.leave_goTo join, atEnd.isEnded_leave_goTo join, ready.moves moved,
    moved.signature ▸ gives⟩

/-- Statements that are lowered into an open block keep the rules. -/
theorem Lowers.sound (stage : before.Stage callees result waiting) (agree : env.Matches vars) :
    after.Ready callees ∧ env'.Matches (part.scope vars) ∧ part.WellTyped callees vars := by
  -- Along the derivation; what is skipped comes behind a return.
  induction lowered generalizing waiting vars with
  | plain isPlain written =>
    obtain ⟨ready, agree, typed⟩ := plain_sound agree stage.ready isPlain written
    exact ⟨ready, agree, (Part.Keeps.single (.inl isPlain)).mpr typed⟩
  | retVoid =>
    exact ⟨stage.ready.moves (Draft.finish_moves stage.going _), agree,
      (Part.Keeps.single (.inr rfl)).mpr .retVoid⟩
  | retValue evaluated valueGoing =>
    obtain ⟨ready, kind, typed, _⟩ := lowerExpr_sound agree _ stage.ready evaluated
    exact ⟨ready.moves (Draft.finish_moves valueGoing _), agree,
      (Part.Keeps.single (.inr rfl)).mpr (.ret typed)⟩
  | branch _ ih =>
    obtain ⟨ready, agree, typed⟩ := ih stage agree
    exact ⟨ready, agree, (Part.Keeps.branch Stmt.typed_branch).mpr typed⟩
  | @loop _ _ _ _ _ _ _ operand _ _ _ _ evaluated _ lowered bodyGoing ih =>
    obtain ⟨tested, truth⟩ := stage.toTest.tested agree evaluated
    have inside := tested.toInside operand
    obtain ⟨ready, _, typed⟩ := ih inside agree
    -- The body has not ended, so none of its own statements is a return.
    have repeats := (lowered.isEnded_eq inside.shape inside.going).symm.trans bodyGoing
    exact ⟨ready.moves (Draft.behind_moves bodyGoing _), agree,
      Part.Keeps.loop.mpr ⟨.loop truth repeats, typed⟩⟩
  | nil => exact ⟨stage.ready, agree, .nil⟩
  | dead isEnded => simp [stage.going] at isEnded
  | @cons _ _ stmt stmts _ _ between _ _ _ _ first others firstIh othersIh =>
    obtain ⟨ready, agreeBetween, firstTyped⟩ := firstIh stage agree
    have ends : between.isEnded = stmt.isRet := first.isEnded_eq stage.shape stage.going
    cases isRet : stmt.isRet with
    | true =>
      obtain ⟨rfl, _⟩ := others.eq_of_isEnded (ends.trans isRet)
      exact ⟨ready, agree, Part.Keeps.cons.mpr ⟨firstTyped, by simp [isRet]⟩⟩
    | false =>
      obtain ⟨ready, _, othersTyped⟩ :=
        othersIh (first.stage stage ready (ends.trans isRet)) agreeBetween
      exact ⟨ready, agree, Part.Keeps.cons.mpr ⟨firstTyped, fun _ => othersTyped⟩⟩
  | none => exact ⟨stage.ready, agree, .none⟩
  | ifThen evaluated _ _ ih =>
    obtain ⟨tested, truth⟩ := stage.tested agree evaluated
    obtain ⟨ready, _, typed⟩ := ih (tested.fork_false _) agree
    exact ⟨ready.moves (Draft.leave_goTo_moves ..), agree,
      Part.Keeps.elseIf.mpr ⟨truth, typed, .none⟩⟩
  | ifElse _ evaluated _ lowered _ ih restIh =>
    obtain ⟨tested, truth⟩ := stage.tested agree evaluated
    obtain ⟨ready, _, typed⟩ := ih (tested.fork_true _) agree
    obtain ⟨ready, _, restTyped⟩ :=
      restIh (lowered.stage_leave_goTo (tested.fork_true _) ready _) agree
    exact ⟨ready.moves (Draft.leave_goTo_moves ..), agree,
      Part.Keeps.elseIf.mpr ⟨truth, typed, restTyped⟩⟩
  | otherwise _ ih =>
    obtain ⟨ready, agree, typed⟩ := ih stage agree
    exact ⟨ready, agree, Part.Keeps.otherwise.mpr typed⟩

end

/-- Whether a type can be the one of a variable. -/
def Ty.isSolid (type : Ty) : Bool :=
  type.isKnown && !type.isVoid

mutual

/-- The types that a statement declares variables of, at any depth. -/
def Stmt.declares : Stmt → List Ty
  | .declare _ type _ => [type]
  | .branch _ _ _ body rest => bodyDeclares body ++ rest.declares
  | .loop _ _ _ body => bodyDeclares body
  | .expr .. | .ret .. | .noOp _ | .assign .. | .unknown _ => []

/-- The types that statements declare variables of. -/
def bodyDeclares : List Stmt → List Ty
  | [] => []
  | stmt :: stmts => stmt.declares ++ bodyDeclares stmts

/-- The types that an else part declares variables of. -/
def Else.declares : Else → List Ty
  | .none => []
  | .elseIf _ _ _ body rest => bodyDeclares body ++ rest.declares
  | .otherwise _ body => bodyDeclares body

end

theorem plain_complete (agree : env.Matches vars) (ready : before.Ready callees)
    (isPlain : stmt.isPlain = true) (solid : ∀ type ∈ stmt.declares, type.isSolid = true)
    (typed : stmt.Typed callees vars) :
    ∃ env' after, Gives (lowerStmt isVerbose env stmt) before env' after := by
  cases typed with
  | expr typed =>
    obtain ⟨operand, after, evaluated, _⟩ := lowerExpr_complete agree _ ready typed
    refine ⟨env, after, ?_⟩
    simp only [lowerStmt, gives_bind, gives_pure]
    exact ⟨operand, after, evaluated, trivial, rfl⟩
  | noOp => exact ⟨env, before, by simp [lowerStmt]⟩
  | @declare _ type ident absent proper =>
    obtain ⟨known, full⟩ : type.isKnown = true ∧ type.isVoid = false := by
      simpa [Ty.isSolid] using solid type (by simp [Stmt.declares])
    have free : env.lookup ident.text = none := by simpa [absent] using agree ident.text
    refine ⟨_, _, gives_declare.mpr ⟨type.kind.lower, free, lowerType_eq_ok.mpr ⟨known, proper, rfl⟩,
      ?_, rfl, rfl⟩⟩
    rw [ne_eq, Ty.lower_kind_eq_void known, full]
    decide
  | assign place typed | assignFirst place typed =>
    obtain ⟨address, targeted, placed, addressType⟩ := lowerTarget_complete agree ready place
    obtain ⟨ready, _⟩ := lowerTarget_sound agree ready placed
    obtain ⟨operand, evaluated, valued, typeEq⟩ := lowerExpr_complete agree _ ready typed
    exact ⟨env, _, gives_assign.mpr ⟨rfl, address, targeted, operand, evaluated, placed, valued, by
      first
      | exact .inl ⟨addressType, typeEq, rfl⟩
      | exact .inr ⟨by rw [addressType, typeEq], rfl⟩⟩⟩
  | retVoid | ret | branch | loop => cases isPlain

theorem elseIf_complete {result : Ir.Ty} (agree : env.Matches vars)
    (stage : before.Stage callees result waiting)
    (bodyComplete : ∀ {before : Draft} {waiting : List BlockRef},
      before.Stage callees result waiting → (Part.body body).WellTyped callees vars →
      ∃ after, Gives (lowerBody isVerbose env body) before () after)
    (restComplete : ∀ {before : Draft} {waiting : List BlockRef},
      before.Stage callees result waiting → (Part.rest rest).WellTyped callees vars →
      ∃ after, Gives (lowerElse isVerbose env rest) before () after)
    (typed : (Part.rest (.elseIf pos condition bodyPos body rest)).WellTyped callees vars) :
    ∃ after, Gives (lowerElse isVerbose env (.elseIf pos condition bodyPos body rest)) before ()
      after := by
  obtain ⟨truthTyped, bodyTyped, restTyped⟩ := Part.Keeps.elseIf.mp typed
  obtain ⟨truth, tested, evaluated⟩ := lowerCondition_complete agree stage.ready truthTyped
  obtain ⟨atTest, _⟩ := stage.tested agree evaluated
  cases empty : rest.isEmpty with
  | true =>
    obtain ⟨ended, bodyLowered⟩ := bodyComplete (atTest.fork_false truth) bodyTyped
    refine ⟨(ended.leave (tested.arms false).join).goTo (tested.arms false).join,
      gives_lowerElse_elseIf.mpr ⟨truth, tested, evaluated, ?_⟩⟩
    rw [if_pos empty]
    exact gives_ifThen.mpr ⟨atTest.going, ended, bodyLowered, rfl⟩
  | false =>
    have inside := atTest.fork_true truth
    obtain ⟨ended, bodyLowered⟩ := bodyComplete inside bodyTyped
    -- What has been written for the body is a derivation, so the else part finds its block empty.
    obtain ⟨log, derived⟩ := lowerBody_lowers [] body bodyLowered
    obtain ⟨ready, _⟩ := derived.sound inside agree
    obtain ⟨last, restLowered⟩ := restComplete (derived.stage_leave_goTo inside ready _) restTyped
    refine ⟨(last.leave (tested.arms true).join).goTo (tested.arms true).join,
      gives_lowerElse_elseIf.mpr ⟨truth, tested, evaluated, ?_⟩⟩
    rw [if_neg (by simp [empty])]
    exact gives_ifElse.mpr ⟨atTest.going, ended, bodyLowered, last, restLowered, rfl⟩

mutual

/-- A statement that keeps the rules is lowered. -/
theorem lowerStmt_complete {env : Env} {vars : Vars} {before : Draft} {waiting : List BlockRef}
    {result : Ir.Ty} (agree : env.Matches vars) : (stmt : Stmt) →
    (∀ type ∈ stmt.declares, type.isSolid = true) → before.Stage callees result waiting →
      (Part.stmt stmt).WellTyped callees vars →
      ∃ env' after, Gives (lowerStmt isVerbose env stmt) before env' after
  | .expr .., solid, stage, typed | .noOp _, solid, stage, typed
  | .declare .., solid, stage, typed | .assign .., solid, stage, typed =>
    plain_complete agree stage.ready rfl solid ((Part.Keeps.single (.inl rfl)).mp typed)
  | .ret pos none, _, stage, _ => by
    refine ⟨env, before.finish .retVoid, ?_⟩
    simp only [lowerStmt, gives_bind, gives_exit, gives_pure]
    exact ⟨(), _, ⟨stage.going, rfl⟩, trivial, rfl⟩
  | .ret pos (some value), _, stage, typed => by
    cases (Part.Keeps.single (.inr rfl)).mp typed with
    | ret typed =>
      obtain ⟨operand, written, evaluated, _⟩ := lowerExpr_complete agree value stage.ready typed
      obtain ⟨code, appended⟩ := lowerExpr_appends _ evaluated
      refine ⟨env, written.finish (.ret operand), ?_⟩
      simp only [lowerStmt, gives_bind, gives_exit, gives_pure]
      exact ⟨_, _, evaluated, (), _, ⟨appended.isEnded_eq.trans stage.going, rfl⟩, trivial, rfl⟩
  | .branch pos condition bodyPos body rest, solid, stage, typed => by
    simp only [Stmt.declares, List.mem_append] at solid
    obtain ⟨after, lowered⟩ := elseIf_complete agree stage
      (lowerBody_complete agree body fun type member => solid type (.inl member))
      (lowerElse_complete agree rest fun type member => solid type (.inr member))
      ((Part.Keeps.branch Stmt.typed_branch).mp typed)
    exact ⟨env, after, gives_lowerStmt_branch.mpr ⟨rfl, lowered⟩⟩
  | .loop pos condition bodyPos body, solid, stage, typed => by
    obtain ⟨loopTyped, bodyTyped⟩ := Part.Keeps.loop.mp typed
    obtain ⟨truthTyped, repeats⟩ := Stmt.typed_loop.mp loopTyped
    obtain ⟨truth, tested, evaluated⟩ :=
      lowerCondition_complete agree stage.toTest.ready truthTyped
    obtain ⟨atTest, _⟩ := stage.toTest.tested agree evaluated
    have inside := atTest.toInside truth
    obtain ⟨ended, bodyLowered⟩ := lowerBody_complete agree body solid inside bodyTyped
    -- No statement of the body's own is a return, so the body has not ended.
    obtain ⟨log, derived⟩ := lowerBody_lowers [] body bodyLowered
    have bodyGoing := (derived.isEnded_eq inside.shape inside.going).trans repeats
    refine ⟨env, ended.behind before.ring, ?_⟩
    simp only [lowerStmt, gives_bind, gives_loop, gives_pure]
    exact ⟨(), _, ⟨stage.going, truth, tested, evaluated, atTest.going, ended, bodyLowered, bodyGoing,
      rfl⟩, trivial, rfl⟩
  | .unknown node, _, _, typed => by cases typed.live _ _ .self

theorem lowerBody_complete {env : Env} {vars : Vars} {before : Draft} {waiting : List BlockRef}
    {result : Ir.Ty} (agree : env.Matches vars) : (stmts : List Stmt) →
    (∀ type ∈ bodyDeclares stmts, type.isSolid = true) → before.Stage callees result waiting →
      (Part.body stmts).WellTyped callees vars →
      ∃ after, Gives (lowerBody isVerbose env stmts) before () after
  | [], _, _, _ => ⟨before, by simp [lowerBody]⟩
  | stmt :: stmts, solid, stage, typed => by
    obtain ⟨firstTyped, othersTyped⟩ := Part.Keeps.cons.mp typed
    simp only [bodyDeclares, List.mem_append] at solid
    obtain ⟨env', between, lowered⟩ := lowerStmt_complete agree stmt
      (fun type member => solid type (.inl member)) stage firstTyped
    obtain ⟨log, derived⟩ := lowerStmt_lowers [] stmt lowered
    obtain ⟨ready, agreeBetween, _⟩ := derived.sound stage agree
    have ends : between.isEnded = stmt.isRet := derived.isEnded_eq stage.shape stage.going
    -- Behind a return nothing is left to do.
    have others : ∃ after, Gives (lowerBody isVerbose env' stmts) between () after := by
      cases isRet : stmt.isRet with
      | true => exact ⟨between, (gives_lowerBody_ended _ (ends.trans isRet)).mpr rfl⟩
      | false =>
        exact lowerBody_complete agreeBetween stmts (fun type member => solid type (.inr member))
          (derived.stage stage ready (ends.trans isRet)) (othersTyped isRet)
    obtain ⟨after, othersLowered⟩ := others
    exact ⟨after, (gives_lowerBody_cons stage.going).mpr ⟨env', between, lowered, othersLowered⟩⟩

theorem lowerElse_complete {env : Env} {vars : Vars} {before : Draft} {waiting : List BlockRef}
    {result : Ir.Ty} (agree : env.Matches vars) : (rest : Else) →
    (∀ type ∈ rest.declares, type.isSolid = true) → before.Stage callees result waiting →
      (Part.rest rest).WellTyped callees vars →
      ∃ after, Gives (lowerElse isVerbose env rest) before () after
  | .none, _, _, _ => ⟨before, by simp [lowerElse]⟩
  | .elseIf pos condition bodyPos body rest, solid, stage, typed => by
    simp only [Else.declares, List.mem_append] at solid
    exact elseIf_complete agree stage
      (lowerBody_complete agree body fun type member => solid type (.inl member))
      (lowerElse_complete agree rest fun type member => solid type (.inr member)) typed
  | .otherwise bodyPos body, solid, stage, typed => by
    exact lowerBody_complete agree body solid stage (Part.Keeps.otherwise.mp typed)

end

end LeftHand
