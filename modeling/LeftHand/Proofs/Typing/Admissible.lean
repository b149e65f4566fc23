import LeftHand.Ir.Accept
import LeftHand.Proofs.Ir.Assembly
import LeftHand.Proofs.Typing.Stmt

/-! Admissible programs: those whose code is accepted by the code generator. -/

namespace LeftHand

open Ir List

variable {change : Ir.Block → Ir.Block} {before after : Draft} {value operand : Value}

section Rules

variable (callees : Callees) (vars : Vars)

/-- Where anything can be taken, an address is given. -/
def GiveAddresses (arguments : List Expr) (params : List Parameter) : Prop :=
  ∀ (i : Nat) (argument : Expr), arguments[i]? = some argument → params[i]? = some .anything →
    ∃ target, HasKind callees vars argument (.pointer target)

mutual

/-- Expressions that compare no void values and write nothing but addresses as addresses. -/
def Expr.Admissible : Expr → Prop
  | .deref _ value | .rev _ value => value.Admissible
  | .exec _ ident arguments =>
    argumentsAdmissible arguments ∧
      ∀ callee, callees ident.text = some callee →
        GiveAddresses callees vars arguments callee.params
  | .binary _ op lhs rhs =>
    lhs.Admissible ∧ rhs.Admissible ∧
      (op ∈ [.equals, .revEquals] → ¬HasKind callees vars lhs .void)
  | .decimal .. | .string .. | .boolean .. | .name .. | .addressOf .. | .unknown _ => True

/-- Arguments that are all admissible. -/
def argumentsAdmissible : List Expr → Prop
  | [] => True
  | argument :: arguments => argument.Admissible ∧ argumentsAdmissible arguments

end

/-- What an assignment writes to. -/
def Target.Admissible : Target → Prop
  | .deref _ value => value.Admissible callees vars
  | .name _ | .unknown _ => True

/-- Statements of a function that gives values of some kind. It must return such values, and nothing
if it is void. -/
def Stmt.Admissible (result : Kind) : Stmt → Prop
  | .expr _ value => value.Admissible callees vars
  | .ret _ none => result = .void
  | .ret _ (some value) =>
    value.Admissible callees vars ∧ HasKind callees vars value result ∧ result ≠ .void
  | .assign _ target value => target.Admissible callees vars ∧ value.Admissible callees vars
  | .branch _ condition _ _ rest =>
    ∀ asked ∈ condition :: rest.conditions, asked.Admissible callees vars
  | .loop _ condition _ _ => condition.Admissible callees vars
  | .noOp _ | .declare .. | .unknown _ => True

end Rules

/-- Functions all of whose live statements are admissible, behind some others. -/
def Function.Admissible (earlier : List Function) (function : Function) : Prop :=
  ∀ inner stmt, Live function.vars (.body function.body.statements) inner stmt →
    stmt.Admissible (callees (earlier ++ [function])) inner function.type.kind

/-- Programs of admissible functions. -/
def Program.Admissible (program : Program) : Prop :=
  ∀ earlier function later, program.functions = earlier ++ function :: later →
    function.Admissible earlier

section Drafts

variable {draft before between after : Draft} {demand other : Prop}

/-- A block all of whose lines are accepted, be it open or not. -/
def Ir.Block.AcceptedSoFar (result : Ir.Ty) (block : Ir.Block) : Prop :=
  ∀ line ∈ block.body, line.isAccepted result = true

/-- A draft all of whose code is accepted, with the constants that it needs. -/
def Draft.Accepted (draft : Draft) : Prop :=
  (∀ block ∈ draft.function.blocks, block.AcceptedSoFar draft.function.signature.result) ∧
    ∀ global ∈ draft.strings, global.isAccepted = true

theorem forall_mem_modify {rule : Ir.Block → Prop} {blocks : List Ir.Block} {i : Nat}
    {block : Ir.Block} (located : blocks[i]? = some block)
    (changes : rule (change block) ↔ rule block ∧ demand) :
    (∀ other ∈ blocks.modify i change, rule other) ↔ (∀ other ∈ blocks, rule other) ∧ demand := by
  -- The other blocks stand in front of it and behind it, and stay.
  obtain ⟨front, back, whole, changed⟩ := Ir.Function.exists_split located
  rw [Ir.modify_eq_set located, changed, whole]
  simp only [forall_mem_append, forall_mem_cons, changes]
  tauto

/-- From one draft to another, code has been written that is accepted exactly on a demand. -/
structure Admits (before after : Draft) (demand : Prop) : Prop where
  inside : after.current < after.function.blocks.length
  accepted : after.Accepted ↔ before.Accepted ∧ demand

namespace Admits

theorem refl (inside : draft.current < draft.function.blocks.length) : Admits draft draft True :=
  ⟨inside, by simp⟩

theorem trans (first : Admits before between demand) (second : Admits between after other) :
    Admits before after (demand ∧ other) :=
  ⟨second.inside, by rw [second.accepted, first.accepted, and_assoc]⟩

theorem congr (admits : Admits before after demand) (same : demand ↔ other) :
    Admits before after other :=
  ⟨admits.inside, by rw [admits.accepted, same]⟩

theorem modifyBlock {block : Ir.Block}
    (located : draft.function.blocks[draft.current]? = some block) (base : String)
    (changes : (change block).AcceptedSoFar draft.function.signature.result ↔
      block.AcceptedSoFar draft.function.signature.result ∧ demand) :
    Admits draft ((draft.take base).modifyBlock change) demand where
  inside := by
    -- A block that is changed stays in its place.
    have within := (List.getElem?_eq_some_iff.mp located).1
    simpa [Draft.modifyBlock, Draft.take] using within
  accepted := by
    -- The constants stay the same, so the blocks decide.
    have blocks := forall_mem_modify located changes
    simp only [Draft.Accepted, Draft.modifyBlock, Draft.take, blocks]
    tauto

theorem write (inside : draft.current < draft.function.blocks.length) (base : String)
    (operation : Operation) :
    Admits draft (draft.write base operation) (operation.isAccepted = true) := by
  refine modifyBlock (getElem?_eq_getElem inside) base ?_
  -- Wherever the instruction is put, the block has one line more.
  rw [Block.push]
  split <;> simp only [Ir.Block.AcceptedSoFar, Block.body, map_append, map_singleton,
    forall_mem_append, forall_mem_singleton, Line.isAccepted] <;> tauto

/-- Most operations are accepted whatever they work on. -/
theorem writeAny (admits : Admits before after demand) (base : String) {operation : Operation}
    (accepted : operation.isAccepted = true) : Admits before (after.write base operation) demand :=
  (admits.trans (write admits.inside base operation)).congr (and_iff_left accepted)

variable (inside : draft.current < draft.function.blocks.length)

include inside

theorem keep (text : String) : Admits draft (draft.keep text) True := by
  refine ⟨inside, ?_⟩
  -- Constants hold no code.
  have isString : (Global.string draft.constant (constantBytes text)).isAccepted = true := rfl
  simp only [Draft.Accepted, Draft.keep, forall_mem_append, forall_mem_singleton, isString,
    and_true]

theorem finish (going : draft.isEnded = false) (exit : Exit) :
    Admits draft (draft.finish exit)
      (exit.isAccepted draft.function.signature.result = true) := by
  have located := getElem?_eq_getElem inside
  -- The block had no end before, so it is this one that counts.
  have isOpen := Draft.exit_eq_none going located
  refine modifyBlock located "" ?_
  simp only [Ir.Block.AcceptedSoFar, Block.body, isOpen, Option.toList_some, Option.toList_none, map_nil,
    map_singleton, forall_mem_append, forall_mem_singleton, Line.isAccepted]
  tauto

end Admits

end Drafts

section Expressions

variable {isVerbose : Bool} {callees : Callees} {env : Env} {vars : Vars}

/-- The kind of an expression that has been lowered is told by the type of its value. -/
theorem hasKind_iff_type {expr : Expr} (agree : env.Matches vars) (ready : before.Ready callees)
    (lowered : Gives (lowerExpr isVerbose env expr) before value after) (kind : Kind) :
    HasKind callees vars expr kind ↔ value.type = kind.lower := by
  constructor
  · intro typed
    -- Lowering gives one value only, so what has this kind is what has been lowered.
    obtain ⟨again, _, loweredAgain, sameType⟩ : ∃ again after,
        Gives (lowerExpr isVerbose env expr) before again after ∧ again.type = kind.lower :=
      lowerExpr_complete agree expr ready typed
    obtain ⟨rfl, _⟩ := loweredAgain.unique lowered
    exact sameType
  · intro sameType
    -- What has been lowered has some kind, and no other has the same type.
    obtain ⟨_, other, typed, typeEq⟩ := lowerExpr_sound agree expr ready lowered
    rwa [← Kind.eq_of_type kind typeEq sameType]

theorem giveAddresses_cons {argument : Expr} {arguments : List Expr} {params : List Parameter} :
    GiveAddresses callees vars (argument :: arguments) params ↔
      (params[0]? = some .anything → ∃ target, HasKind callees vars argument (.pointer target)) ∧
        GiveAddresses callees vars arguments params.tail := by
  constructor
  · intro give
    -- Behind the first argument, positions are counted from one less.
    refine ⟨give 0 argument rfl, fun i other found taken => ?_⟩
    exact give (i + 1) other found (by simpa using taken)
  · intro give i other found taken
    cases i with
    | zero =>
      obtain rfl : argument = other := by simpa using found
      exact give.1 taken
    | succ i => exact give.2 i other found (by simpa using taken)

theorem lowerBinary_admits {pos : Pos} {op : BinOp} {lhs rhs : Value}
    (inside : before.current < before.function.blocks.length)
    (lowered : Gives (lowerBinary isVerbose pos op lhs rhs) before value after) :
    Admits before after (op ∈ [.equals, .revEquals] → lhs.type ≠ .void) := by
  -- Only equality takes operands of any type.
  cases BinOp.operates_of_gives lowered with
  | plain same suits =>
    refine (Admits.write inside _ _).congr ?_
    cases op with
    -- Values of a void type have no comparison.
    | equals | revEquals => simp [BinOp.operation, Operation.isAccepted]
    | _ => simp [BinOp.operation, Operation.isAccepted, suits _ rfl]
  | forward | forwardBy => exact ((Admits.refl inside).writeAny _ rfl).congr (by simp)
  | backward =>
    -- A pointer is moved back by the negated number.
    exact (((Admits.refl inside).writeAny _ rfl).writeAny _ rfl).congr (by simp)

theorem Passes.admits {casts : List Nat} {position : Nat}
    (inside : before.current < before.function.blocks.length)
    (passes : Passes casts position operand before value after) :
    Admits before after (position ∈ casts → operand.type.isPointer = true) := by
  rw [Passes] at passes
  split at passes
  · -- A cast is refused unless it starts from a pointer.
    rename_i cast
    rw [passes.2]
    exact (Admits.write inside _ _).congr (by simp [Operation.isAccepted, cast.1])
  · rename_i uncast
    rw [passes.2]
    refine (Admits.refl inside).congr ⟨fun _ isCast => ?_, fun _ => trivial⟩
    -- What is a pointer to bytes already need not be cast.
    have isBytes : operand.type = .bytes := by
      by_contra other
      exact uncast ⟨isCast, other⟩
    rw [isBytes]
    rfl

mutual

/-- The code of an expression is accepted exactly if the expression is admissible. -/
theorem lowerExpr_admits (agree : env.Matches vars) {before after : Draft} {value : Value} :
    (expr : Expr) → before.Ready callees → before.current < before.function.blocks.length →
      Gives (lowerExpr isVerbose env expr) before value after →
      Admits before after (expr.Admissible callees vars)
  | .decimal _ _, _, inside, lowered | .boolean _ _, _, inside, lowered => by
    obtain ⟨rfl, rfl⟩ := gives_pure.mp lowered
    exact .refl inside
  | .string _ text, _, inside, lowered => by
    simp only [lowerExpr, Emit.firstByte, gives_bind, gives_addString, gives_element] at lowered
    obtain ⟨_, _, ⟨_, rfl, rfl⟩, rfl, rfl⟩ := lowered
    exact (Admits.keep inside text).writeAny _ rfl
  | .name _ ident, _, inside, lowered => by
    obtain ⟨_, _, rfl, rfl⟩ := gives_name.mp lowered
    exact (Admits.refl inside).writeAny _ rfl
  | .addressOf _ ident, _, inside, lowered => by
    obtain ⟨_, rfl⟩ := gives_lookupName.mp lowered
    exact .refl inside
  | .deref _ operand, ready, inside, lowered => by
    simp only [lowerExpr, Emit.report, gives_bind, gives_allowed, gives_load] at lowered
    obtain ⟨_, _, operandLowered, _, rfl, rfl⟩ := lowered
    have operandAdmits := lowerExpr_admits agree operand ready inside operandLowered
    exact operandAdmits.writeAny _ rfl
  | .exec _ ident arguments, ready, inside, lowered => by
    obtain ⟨function, values, _, operation, found, _, argumentsLowered, checked, rfl, rfl⟩ :=
      gives_exec.mp lowered
    obtain ⟨callee, known, suits⟩ := ready.exists_callee found
    rw [suits.named] at argumentsLowered
    obtain ⟨_, _, rfl⟩ := exists_of_checkCall checked
    -- The arguments that are cast are those that can be anything.
    have argumentsAdmit := lowerArguments_admits agree arguments ready inside argumentsLowered
      (fun i => by simpa using suits.casts i)
    refine (argumentsAdmit.writeAny _ rfl).congr ?_
    simp [Expr.Admissible, known]
  | .rev _ operand, ready, inside, lowered => by
    obtain ⟨_, _, operandLowered, _, rfl, rfl⟩ := gives_rev.mp lowered
    have operandAdmits := lowerExpr_admits agree operand ready inside operandLowered
    exact operandAdmits.writeAny _ rfl
  | .binary _ op lhs rhs, ready, inside, lowered => by
    simp only [lowerExpr, gives_bind] at lowered
    obtain ⟨_, _, leftLowered, _, _, rightLowered, combined⟩ := lowered
    have leftAdmits := lowerExpr_admits agree lhs ready inside leftLowered
    obtain ⟨leftReady, _⟩ := lowerExpr_sound agree lhs ready leftLowered
    have rightAdmits := lowerExpr_admits agree rhs leftReady leftAdmits.inside rightLowered
    have admits := lowerBinary_admits rightAdmits.inside combined
    refine (leftAdmits.trans (rightAdmits.trans admits)).congr ?_
    -- The value on the left is void exactly if its expression is.
    rw [Expr.Admissible, hasKind_iff_type agree ready leftLowered]
    rfl
  | .unknown node, _, _, lowered => by
    simp only [lowerExpr, gives_report] at lowered

theorem lowerArguments_admits (agree : env.Matches vars) {before after : Draft} {casts : List Nat}
    {position : Nat} {values : List Value} {params : List Parameter} :
    (arguments : List Expr) → before.Ready callees →
      before.current < before.function.blocks.length →
      Gives (lowerArguments isVerbose env casts position arguments) before values after →
      (∀ i, position + i ∈ casts ↔ params[i]? = some .anything) →
      Admits before after (argumentsAdmissible callees vars arguments ∧
        GiveAddresses callees vars arguments params)
  | [], _, inside, lowered, _ => by
    obtain ⟨rfl, rfl⟩ := gives_pure.mp lowered
    exact (Admits.refl inside).congr (by simp [argumentsAdmissible, GiveAddresses])
  | argument :: arguments, ready, inside, lowered, cast => by
    rw [gives_lowerArguments_cons] at lowered
    obtain ⟨operand, _, passed, between, rest, argumentLowered, passes, restLowered, rfl⟩ := lowered
    have argumentAdmits := lowerExpr_admits agree argument ready inside argumentLowered
    obtain ⟨argumentReady, kind, _, typeEq⟩ :=
      lowerExpr_sound agree argument ready argumentLowered
    have passAdmits := passes.admits argumentAdmits.inside
    -- The casts are counted from the first argument, and the parameters from this one.
    have later (i : Nat) : position + 1 + i ∈ casts ↔ params.tail[i]? = some .anything := by
      rw [Nat.add_assoc, Nat.add_comm 1 i, cast (i + 1), getElem?_tail]
    have restAdmits := lowerArguments_admits agree arguments (passes.ready argumentReady)
      passAdmits.inside restLowered later
    refine (argumentAdmits.trans (passAdmits.trans restAdmits)).congr ?_
    -- The value is a pointer exactly if its expression is one.
    have isAddress : operand.type.isPointer = true ↔
        ∃ target, HasKind callees vars argument (.pointer target) := by
      simp only [hasKind_iff_type agree ready argumentLowered]
      constructor
      · intro pointer
        obtain ⟨target, rfl⟩ := Kind.exists_of_isPointer (typeEq ▸ pointer)
        exact ⟨target, typeEq⟩
      · intro address
        obtain ⟨target, isPointer⟩ := address
        rw [isPointer]
        rfl
    rw [argumentsAdmissible, giveAddresses_cons, isAddress, ← cast 0, Nat.add_zero]
    tauto

end

end Expressions

section Moves

variable {draft : Draft} {waiting : List BlockRef}

@[simp] theorem Draft.accepted_grow (base : String) :
    (draft.grow base).Accepted ↔ draft.Accepted := by
  have empty : Ir.Block.AcceptedSoFar draft.function.signature.result { label := draft.named base } :=
    forall_mem_nil _
  simp only [Accepted, grow, forall_mem_append, forall_mem_singleton, empty, and_true]

namespace Draft.Shape

variable (shape : draft.Shape waiting)

include shape

theorem accepted_finish (going : draft.isEnded = false)
    {exit : Exit} (moves : ∀ result, exit.isAccepted result = true) :
    (draft.finish exit).Accepted ↔ draft.Accepted := by
  rw [(Admits.finish shape.inside going exit).accepted, moves]
  simp

theorem accepted_fork (going : draft.isEnded = false) (truth : Value) (hasElse : Bool) :
    (draft.fork truth hasElse).Accepted ↔ draft.Accepted := by
  -- The blocks of a branch are added empty, before the branch leads to them.
  have added : (draft.withArms hasElse).Accepted ↔ draft.Accepted := by
    cases hasElse <;> simp [withArms]
  have arms : ∃ others, (draft.withArms hasElse).Shape others := by
    cases hasElse with
    | false => exact ⟨_, shape.withArms_false⟩
    | true => exact ⟨_, shape.withArms_true⟩
  obtain ⟨others, arms⟩ := arms
  exact (arms.accepted_finish (by simpa using going) fun _ => rfl).trans added

theorem accepted_leave_goTo (join block : BlockRef) :
    ((draft.leave join).goTo block).Accepted ↔ draft.Accepted := by
  -- Going to another block writes nothing.
  change (draft.leave join).Accepted ↔ _
  rw [Draft.leave]
  -- A block that has ended already is left as it is.
  split
  · rfl
  · rename_i going
    exact shape.accepted_finish (by simpa using going) fun _ => rfl

variable (going : draft.isEnded = false)

include going

theorem accepted_toTest : draft.toTest.Accepted ↔ draft.Accepted := by
  refine (shape.withRing.accepted_finish (by simpa using going) fun _ => rfl).trans ?_
  simp

theorem accepted_toInside (ring : Ring) (truth : Value) :
    (draft.toInside ring truth).Accepted ↔ draft.Accepted :=
  shape.accepted_finish going fun _ => rfl

theorem accepted_behind (ring : Ring) : (draft.behind ring).Accepted ↔ draft.Accepted :=
  shape.accepted_finish going fun _ => rfl

end Draft.Shape

end Moves

section Statements

variable {isVerbose : Bool} {callees : Callees} {env env' : Env} {vars : Vars}
  {before after : Draft}

/-- A part whose statements and conditions are admissible. -/
abbrev Part.Admissible (callees : Callees) (result : Kind) (vars : Vars) (part : Part) : Prop :=
  part.Keeps (fun vars asked => asked.Admissible callees vars)
    (fun vars stmt => stmt.Admissible callees vars result) vars

section Straight

variable (agree : env.Matches vars) (ready : before.Ready callees)
  (inside : before.current < before.function.blocks.length)

include agree ready inside

theorem lowerTarget_admits {target : Target}
    {address : Value} (lowered : Gives (lowerTarget isVerbose env target) before address after) :
    Admits before after (target.Admissible callees vars) := by
  cases target with
  | name ident =>
    obtain ⟨_, rfl⟩ := gives_lookupName.mp lowered
    exact .refl inside
  | deref pos value =>
    exact lowerExpr_admits agree value ready inside lowered
  | unknown node => simp only [lowerTarget, gives_report] at lowered

theorem plain_admits {stmt : Stmt} (isPlain : stmt.isPlain = true)
    (lowered : Gives (lowerStmt isVerbose env stmt) before env' after) (result : Kind) :
    Admits before after (stmt.Admissible callees vars result) := by
  cases stmt with
  | expr pos value =>
    simp only [lowerStmt, gives_bind, gives_pure] at lowered
    obtain ⟨_, _, evaluated, _, rfl⟩ := lowered
    exact lowerExpr_admits agree value ready inside evaluated
  | noOp =>
    obtain ⟨_, rfl⟩ := gives_pure.mp lowered
    exact .refl inside
  | declare pos type ident =>
    obtain ⟨_, _, _, _, _, rfl⟩ := gives_declare.mp lowered
    exact (Admits.refl inside).writeAny _ rfl
  | assign pos target value =>
    obtain ⟨_, address, targeted, operand, evaluated, placed, valued, stored⟩ :=
      gives_assign.mp lowered
    -- The target is lowered first, and then the value.
    obtain ⟨targetReady, _⟩ := lowerTarget_sound agree ready placed
    have targetAdmits := lowerTarget_admits agree ready inside placed
    have valueAdmits := lowerExpr_admits agree value targetReady targetAdmits.inside valued
    have both := targetAdmits.trans valueAdmits
    -- Whichever way the value is stored, it is accepted.
    rcases stored with ⟨_, _, rfl⟩ | ⟨_, rfl⟩
    · exact (both.writeAny _ rfl).writeAny _ rfl
    · exact both.writeAny _ rfl
  | ret | branch | loop | unknown => cases isPlain

theorem condition_admits {condition : Expr}
    {truth : Value} (lowered : Gives (lowerCondition isVerbose env condition) before truth after) :
    Admits before after (condition.Admissible callees vars) :=
  lowerExpr_admits agree condition ready inside (gives_lowerCondition.mp lowered).1

end Straight

/-- Wherever a part has been lowered between two drafts, its code is accepted exactly if it is
admissible. -/
def Part.Judged (callees : Callees) (result : Kind) (env : Env) (part : Part) (before after : Draft) :
    Prop :=
  ∀ ⦃vars : Vars⦄ ⦃waiting : List BlockRef⦄, before.Stage callees result.lower waiting →
    env.Matches vars → (after.Accepted ↔ before.Accepted ∧ part.Admissible callees result vars)

namespace Part.Judged

variable {site other : Site} {log more : Log} {pos bodyPos : Pos} {condition : Expr} {body : List Stmt}
  {rest : Else} {truth : Value} {tested ended : Draft} {result : Kind}

theorem retVoid : Judged callees result env (.stmt (.ret pos none)) before (before.finish .retVoid) := by
  intro vars waiting stage agree
  have lowersVoid : Kind.void.lower = .void := rfl
  rw [Part.Admissible, Part.Keeps.single (.inr rfl),
    (Admits.finish stage.shape.inside stage.going _).accepted, stage.gives]
  simp [Exit.isAccepted, Stmt.Admissible, ← lowersVoid]

/-- What a function returns is accepted exactly if it is of the kind that the function gives. -/
theorem retValue {value : Expr} (evaluated : Gives (lowerExpr isVerbose env value) before operand after)
    (going : after.isEnded = false) :
    Judged callees result env (.stmt (.ret pos (some value))) before (after.finish (.ret operand)) := by
  intro vars waiting stage agree
  obtain ⟨code, appended⟩ := lowerExpr_appends _ evaluated
  have admits := lowerExpr_admits agree value stage.ready stage.shape.inside evaluated
  rw [Part.Admissible, Part.Keeps.single (.inr rfl)]
  refine ((admits.trans (.finish admits.inside going _)).congr ?_).accepted
  -- Types of values and of results are those of their kinds.
  have lowersVoid : Kind.void.lower = .void := rfl
  simp only [Stmt.Admissible, hasKind_iff_type agree stage.ready evaluated, Exit.isAccepted,
    appended.signature, stage.gives, ← lowersVoid, Bool.and_eq_true, beq_iff_eq, bne_iff_ne, ne_eq,
    Kind.lower_inj]

/-- From behind a loop back to its front, only the body and the condition can be refused. -/
theorem loop (evaluated : Gives (lowerCondition isVerbose env condition) before.toTest truth tested)
    (testGoing : tested.isEnded = false) (bodyGoing : ended.isEnded = false)
    (lowered : Lowers isVerbose site env (.body body) (tested.toInside before.ring truth) env ended log)
    (judged : Judged callees result env (.body body) (tested.toInside before.ring truth) ended) :
    Judged callees result env (.stmt (.loop pos condition bodyPos body)) before
      (ended.behind before.ring) := by
  intro vars waiting stage agree
  have atTest := stage.toTest
  obtain ⟨behindTest, _⟩ := atTest.tested agree evaluated
  have inside := behindTest.toInside truth
  rw [Part.Admissible, Part.Keeps.loop, (lowered.shape inside.shape).accepted_behind bodyGoing,
    judged inside agree, behindTest.shape.accepted_toInside testGoing,
    (condition_admits agree atTest.ready atTest.shape.inside evaluated).accepted,
    stage.shape.accepted_toTest stage.going, and_assoc]
  rfl

theorem cons {stmt : Stmt} {stmts : List Stmt} {between : Draft}
    (first : Lowers isVerbose site env (.stmt stmt) before env' between log)
    (others : Lowers isVerbose other env' (.body stmts) between env' after more)
    (firstJudged : Judged callees result env (.stmt stmt) before between)
    (othersJudged : Judged callees result env' (.body stmts) between after) :
    Judged callees result env (.body (stmt :: stmts)) before after := by
  intro vars waiting stage agree
  obtain ⟨ready, agreeBetween, _⟩ := first.sound stage agree
  have ends : between.isEnded = stmt.isRet := first.isEnded_eq stage.shape stage.going
  rw [Part.Admissible, Part.Keeps.cons]
  cases isRet : stmt.isRet with
  | true =>
    -- Behind a return nothing is lowered.
    obtain ⟨rfl, _⟩ := others.eq_of_isEnded (ends.trans isRet)
    simpa using firstJudged stage agree
  | false =>
    rw [othersJudged (first.stage stage ready (ends.trans isRet)) agreeBetween,
      firstJudged stage agree, and_assoc]
    simp [Part.scope]

variable (evaluated : Gives (lowerCondition isVerbose env condition) before truth tested)

include evaluated

/-- The body is written to the first arm, and the block behind both waits. -/
theorem ifThen (lowered : Lowers isVerbose site env (.body body) (tested.fork truth false) env ended log)
    (judged : Judged callees result env (.body body) (tested.fork truth false) ended) :
    Judged callees result env (.rest (.elseIf pos condition bodyPos body .none)) before
      ((ended.leave (tested.arms false).join).goTo (tested.arms false).join) := by
  intro vars waiting stage agree
  obtain ⟨atTest, _⟩ := stage.tested agree evaluated
  have inside := atTest.fork_false truth
  rw [Part.Admissible, Part.Keeps.elseIf, (lowered.shape inside.shape).accepted_leave_goTo,
    judged inside agree, atTest.shape.accepted_fork atTest.going,
    (condition_admits agree stage.ready stage.shape.inside evaluated).accepted, and_assoc]
  simp [Part.Keeps.none]

/-- The other arm begins where the first one has been left. -/
theorem ifElse {last : Draft}
    (lowered : Lowers isVerbose site env (.body body) (tested.fork truth true) env ended log)
    (followed : Lowers isVerbose other env (.rest rest)
      ((ended.leave (tested.arms true).join).goTo (tested.arms true).whenFalse) env last more)
    (judged : Judged callees result env (.body body) (tested.fork truth true) ended)
    (restJudged : Judged callees result env (.rest rest)
      ((ended.leave (tested.arms true).join).goTo (tested.arms true).whenFalse) last) :
    Judged callees result env (.rest (.elseIf pos condition bodyPos body rest)) before
      ((last.leave (tested.arms true).join).goTo (tested.arms true).join) := by
  intro vars waiting stage agree
  obtain ⟨atTest, _⟩ := stage.tested agree evaluated
  have inside := atTest.fork_true truth
  obtain ⟨ready, _⟩ := lowered.sound inside agree
  have atRest := lowered.stage_leave_goTo inside ready (tested.arms true).join
  rw [Part.Admissible, Part.Keeps.elseIf, (followed.shape atRest.shape).accepted_leave_goTo,
    restJudged atRest agree, (lowered.shape inside.shape).accepted_leave_goTo, judged inside agree,
    atTest.shape.accepted_fork atTest.going,
    (condition_admits agree stage.ready stage.shape.inside evaluated).accepted, and_assoc, and_assoc]

end Part.Judged

/-- The code of statements is accepted exactly if they are admissible. -/
theorem Lowers.admits {site : Site} {part : Part} {log : Log} {result : Kind}
    (lowered : Lowers isVerbose site env part before env' after log) :
    part.Judged callees result env before after := by
  -- Along the derivation; the moves between blocks are accepted always.
  induction lowered with
  | plain isPlain written =>
    intro vars waiting stage agree
    rw [Part.Admissible, Part.Keeps.single (.inl isPlain)]
    exact (plain_admits agree stage.ready stage.shape.inside isPlain written result).accepted
  | retVoid => exact .retVoid
  | retValue evaluated going => exact .retValue evaluated going
  | branch _ ih =>
    intro vars waiting stage agree
    rw [Part.Admissible, Part.Keeps.branch Iff.rfl]
    exact ih stage agree
  | loop _ evaluated testGoing lowered bodyGoing ih =>
    exact .loop evaluated testGoing bodyGoing lowered ih
  | nil => simp [Part.Judged, Part.Keeps.nil]
  | dead isEnded =>
    intro vars waiting stage
    simp [stage.going] at isEnded
  | cons _ first others firstIh othersIh => exact .cons first others firstIh othersIh
  | none => simp [Part.Judged, Part.Keeps.none]
  | ifThen evaluated _ lowered ih => exact .ifThen evaluated lowered ih
  | ifElse _ evaluated _ lowered followed ih restIh =>
    exact .ifElse evaluated lowered followed ih restIh
  | otherwise _ ih =>
    intro vars waiting stage agree
    rw [Part.Admissible, Part.Keeps.otherwise]
    exact ih stage agree

end Statements

end LeftHand
