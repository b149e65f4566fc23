import LeftHand.Proofs.Binding.Source
import LeftHand.Proofs.Lower.DeadCode
import LeftHand.Proofs.Lower.Frame
import LeftHand.Proofs.Typing.Ready

/-!
String constants of a function: one for each live literal, in the order in which literals are
lowered.
-/

namespace LeftHand

open Ir List

variable {before : Draft} {site : Site} {waiting : List BlockRef}

mutual

/-- The string literals of an expression, from left to right. -/
def Expr.literals : Expr → List String
  | .string _ text => [text]
  | .deref _ value | .rev _ value => value.literals
  | .exec _ _ arguments => argumentLiterals arguments
  | .binary _ _ lhs rhs => lhs.literals ++ rhs.literals
  | .decimal .. | .boolean .. | .name .. | .addressOf .. | .unknown .. => []

/-- The string literals of the arguments of a call. -/
def argumentLiterals : List Expr → List String
  | [] => []
  | argument :: arguments => argument.literals ++ argumentLiterals arguments

end

/-- The string literals of what an assignment writes to. -/
def Target.literals : Target → List String
  | .deref _ value => value.literals
  | .name _ | .unknown _ => []

/-- The string literals of a statement that holds no others. What an assignment writes to comes
first. -/
def Stmt.literals : Stmt → List String
  | .expr _ value | .ret _ (some value) => value.literals
  | .assign _ target value => target.literals ++ value.literals
  | _ => []

/-- The string literals of a live place. -/
def Visit.literals : Visit → List String
  | .condition _ tested => tested.literals
  | .stmt _ single => single.literals
  | .fallOff => []

/-- The string literals of live places, one place after the other. -/
def visitedLiterals (visits : List Visit) : List String :=
  visits.flatMap Visit.literals

/-- The live string literals of a function, in the order in which they are lowered. -/
def Function.literals (function : Function) : List String :=
  visitedLiterals function.visits

/-- The string constants of literals, numbered from a count on. -/
def constantsFrom (count : Nat) : List String → List Global
  | [] => []
  | text :: texts => .string (constantNumbered count) (constantBytes text) :: constantsFrom (count + 1) texts

theorem constantsFrom_append (count : Nat) (texts more : List String) :
    constantsFrom count (texts ++ more) =
      constantsFrom count texts ++ constantsFrom (count + texts.length) more := by
  induction texts generalizing count with
  | nil => rfl
  | cons text texts ih =>
    have shift : count + 1 + texts.length = count + (texts.length + 1) := by omega
    simp only [cons_append, constantsFrom, ih, length_cons, shift]

theorem visitedLiterals_nil : visitedLiterals [] = [] :=
  flatMap_nil

theorem visitedLiterals_append (visits others : List Visit) :
    visitedLiterals (visits ++ others) = visitedLiterals visits ++ visitedLiterals others :=
  flatMap_append

theorem visitedLiterals_cons (visit : Visit) (visits : List Visit) :
    visitedLiterals (visit :: visits) = visit.literals ++ visitedLiterals visits :=
  flatMap_cons

/-- Drafts with the same string constants. -/
def SameStrings (before after : Draft) : Prop :=
  after.strings = before.strings ∧ after.session.counters = before.session.counters

/-- A step that makes no string constant, and counts none. -/
abbrev Silent {α : Type} (step : Emit α) : Prop :=
  Leaves SameStrings step

theorem SameStrings.trans {one two three : Draft} (first : SameStrings one two)
    (second : SameStrings two three) : SameStrings one three :=
  ⟨second.1.trans first.1, second.2.trans first.2⟩

/-- Only the step that is made for it adds string constants. -/
theorem upheld_silent : Emit.Upheld (LeaveBoth SameStrings) :=
  .of_leaves (fun _ => ⟨rfl, rfl⟩) .trans (fun _ _ => ⟨rfl, rfl⟩) (fun _ _ => ⟨rfl, rfl⟩)
    (fun _ _ => ⟨rfl, rfl⟩) fun _ _ => ⟨rfl, rfl⟩

theorem Silent.report {α : Type} {isVerbose : Bool} {diagnostic : Diagnostic} {pos : Pos} :
    Silent (Emit.report isVerbose diagnostic pos : Emit α) :=
  fun _ => ⟨rfl, rfl⟩

theorem Silent.lookupName (isVerbose : Bool) (env : Env) (ident : Ident) :
    Silent (lookupName isVerbose env ident) :=
  .of_both (LeftHand.lookupName · env ident) (upheld_silent.lookupName env ident) isVerbose

/-- From a draft, a step makes the string constants of some texts in order. If it fails, it has made
those of the first few. -/
def Stores {α : Type} (texts : List String) (step : Emit α) (before : Draft) : Prop :=
  ∃ kept, kept <+: texts ∧
    (step.run.run before : Except Fault α × Draft).2.strings =
      before.strings ++ constantsFrom (constantCount before.session.counters) kept ∧
    ∀ value after, Gives step before value after → kept = texts ∧
      constantCount after.session.counters = constantCount before.session.counters + texts.length

namespace Stores

section Steps

variable {α β : Type} {texts more : List String} {before : Draft} {step first : Emit α}
  {next : α → Emit β}

theorem of_silent (silent : Silent step) : Stores [] step before := by
  obtain ⟨strings, counters⟩ := silent before
  refine ⟨[], prefix_rfl, ?_, fun value after given => ⟨rfl, ?_⟩⟩
  · simpa [constantsFrom] using strings
  · have ran : (step.run.run before : Except Fault α × Draft) = (.ok value, after) := given
    rw [ran] at counters
    simp only at counters
    rw [counters, length_nil, Nat.add_zero]

/-- A sequence makes the constants of its first step and then those of the others. -/
theorem bind (stored : Stores texts first before)
    (behind : ∀ value between, Gives first before value between →
      Stores more (next value) between) :
    Stores (texts ++ more) (first >>= next) before := by
  obtain ⟨kept, isPrefix, strings, whole⟩ := stored
  simp only [Stores, Gives, ExceptT.run, StateT.run, Bind.bind, ExceptT.bind, ExceptT.mk,
    StateT.bind] at strings whole behind ⊢
  rcases ran : first before with ⟨fault | value, between⟩
  · -- The sequence has stopped inside its first step.
    rw [ran] at strings
    refine ⟨kept, isPrefix.trans (prefix_append _ _), strings, fun _ _ given => ?_⟩
    cases given
  · rw [ran] at strings
    simp only at strings
    obtain ⟨rfl, count⟩ := whole value between ran
    obtain ⟨others, isPrefix, added, complete⟩ := behind value between ran
    refine ⟨kept ++ others, (prefix_append_right_inj kept).mpr isPrefix, ?_, ?_⟩
    · rw [constantsFrom_append, ← append_assoc, ← strings, ← count]
      exact added
    · intro last after given
      obtain ⟨rfl, final⟩ := complete last after given
      exact ⟨rfl, by rw [final, count, length_append]; omega⟩

theorem behind (silent : Silent first)
    (others : ∀ value between, Gives first before value between →
      Stores texts (next value) between) :
    Stores texts (first >>= next) before :=
  (of_silent silent).bind others

theorem before_silent (stored : Stores texts first before) (silent : ∀ value, Silent (next value)) :
    Stores texts (first >>= next) before := by
  have whole : Stores (texts ++ []) (first >>= next) before :=
    stored.bind fun value _ _ => of_silent (silent value)
  rwa [List.append_nil] at whole

theorem of_sameFrom {other : Emit α} (same : SameFrom before step other)
    (stored : Stores texts other before) : Stores texts step before := by
  simp only [Stores, Gives] at stored ⊢
  rwa [same]

/-- A string constant gets the next number, if its name is not taken. -/
theorem addString (text : String) : Stores [text] (Emit.addString text) before := by
  have count : constantCount (before.keep text).session.counters =
      constantCount before.session.counters + 1 := constantCount_constantName _
  rw [Stores, run_addString]
  split
  · -- The constant is counted but not added.
    rename_i taken
    refine ⟨[], nil_prefix, by simp [constantsFrom], fun value after given => ?_⟩
    have ran : ((Emit.addString text).run.run before : Except Fault Value × Draft) =
        (.ok value, after) := given
    rw [run_addString, if_pos taken] at ran
    cases ran
  · refine ⟨[text], prefix_rfl, ?_, fun value after given => ⟨rfl, ?_⟩⟩
    · rw [Draft.keep, Draft.constant, constantName_fst]
      rfl
    · obtain ⟨_, _, rfl⟩ := gives_addString.mp given
      exact count

end Steps

section Expressions

variable {isVerbose : Bool} {env : Env}

mutual

theorem lowerExpr {before : Draft} (expr : Expr) :
    Stores expr.literals (lowerExpr isVerbose env expr) before := by
  cases expr with
  | decimal | boolean => exact of_silent (upheld_silent.pure _).1
  | string pos text =>
    exact (addString text).before_silent fun _ => (upheld_silent.instr _ _).1
  | name pos ident =>
    exact .behind (.lookupName isVerbose env ident) fun _ _ _ =>
      of_silent (upheld_silent.instr _ _).1
  | addressOf pos ident => exact of_silent (.lookupName isVerbose env ident)
  | deref pos value =>
    refine (lowerExpr value).before_silent fun address => ?_
    split
    · exact (upheld_silent.instr _ _).1
    · exact .report
  | exec pos ident arguments =>
    refine .behind (Leaves.of_both (findCallee · _ _ _) (upheld_silent.findCallee _ _ _) isVerbose) fun callee _ _ => ?_
    refine .behind upheld_silent.get.1 fun _ _ _ => ?_
    exact (lowerArguments _ 0 arguments).before_silent fun _ => (upheld_silent.call _ _ _).1
  | rev pos value =>
    refine (lowerExpr value).before_silent fun truth => ?_
    exact .bind SameStrings.trans (Leaves.of_both (Emit.check <| checkType · _ _ _) (upheld_silent.checkType _ _ _)
      isVerbose) fun _ => (upheld_silent.instr _ _).1
  | binary pos op lhs rhs =>
    exact (lowerExpr lhs).bind fun _ _ _ => (lowerExpr rhs).before_silent fun _ =>
      Leaves.of_both (lowerBinary · _ _ _ _) (upheld_silent.lowerBinary _ _ _ _) isVerbose
  | unknown node =>
    exact of_silent .report

theorem lowerArguments {before : Draft} (casts : List Nat) (position : Nat) (arguments : List Expr) :
    Stores (argumentLiterals arguments) (lowerArguments isVerbose env casts position arguments)
      before := by
  cases arguments with
  | nil => exact of_silent (upheld_silent.pure _).1
  | cons argument arguments =>
    refine (lowerExpr argument).bind fun given between _ => ?_
    -- Whether the argument is cast or not, the others follow.
    have others (value : Value) (between : Draft) : Stores (argumentLiterals arguments) (do
          let values ← LeftHand.lowerArguments isVerbose env casts (position + 1) arguments
          return value :: values) between :=
      (lowerArguments casts (position + 1) arguments).before_silent fun _ => (upheld_silent.pure _).1
    split
    · exact .behind (upheld_silent.cast _ _ _ _).1 fun value between _ => others value between
    · exact .behind (upheld_silent.pure _).1 fun value between _ => others value between

end

variable {before : Draft}

theorem lowerCondition (condition : Expr) :
    Stores condition.literals (lowerCondition isVerbose env condition) before := by
  refine (lowerExpr condition).before_silent fun truth => ?_
  exact .bind SameStrings.trans (Leaves.of_both (Emit.check <| checkType · _ _ _) (upheld_silent.checkType _ _ _)
    isVerbose) fun _ => (upheld_silent.pure _).1

theorem lowerTarget (target : Target) :
    Stores target.literals (lowerTarget isVerbose env target) before := by
  cases target with
  | name ident => exact of_silent (.lookupName isVerbose env ident)
  | deref pos value => exact lowerExpr value
  | unknown node => exact of_silent .report

theorem lowerAssign (target : Target) (value : Expr) :
    Stores (target.literals ++ value.literals) (lowerAssign isVerbose env target value) before := by
  refine (lowerTarget target).bind fun address _ _ => (lowerExpr value).before_silent fun given => ?_
  split
  · exact (upheld_silent.bind (upheld_silent.instr _ _) fun _ => upheld_silent.store _ _).1
  · exact (upheld_silent.store _ _).1

end Expressions

section Control

variable {before : Draft} {truth : Value} {texts more : List String} {body other : Emit Unit}

theorem addBlock {base : String} {next : BlockRef → Emit Unit}
    (stored : Stores texts (next (before.grown base)) (before.grow base)) :
    Stores texts (Emit.addBlock base >>= next) before := by
  refine .behind (upheld_silent.addBlock _).1 fun _ _ added => ?_
  obtain ⟨rfl, rfl⟩ := gives_addBlock.mp added
  exact stored

theorem exit {exit : Exit} {next : PUnit → Emit Unit} (stored : Stores texts (next ()) (before.finish exit)) :
    Stores texts (Emit.exit exit >>= next) before := by
  refine .behind (upheld_silent.exit _).1 fun _ _ left => ?_
  obtain ⟨_, rfl⟩ := gives_exit.mp left
  exact stored

theorem enter {block : BlockRef} {next : PUnit → Emit Unit} (stored : Stores texts (next ()) (before.goTo block)) :
    Stores texts (Emit.enter block >>= next) before := by
  refine .behind (upheld_silent.enter _).1 fun _ _ entered => ?_
  obtain rfl := gives_enter.mp entered
  exact stored

theorem bodyInto {block join : BlockRef} (stored : Stores texts body (before.goTo block)) :
    Stores texts (Emit.bodyInto block join body) before := by
  refine .enter ?_
  refine stored.before_silent fun _ => ?_
  refine .bind SameStrings.trans upheld_silent.get.1 fun draft => ?_
  split
  · exact (upheld_silent.exit _).1
  · exact (upheld_silent.pure _).1

theorem ifThen (stored : Stores texts body (before.fork truth false)) :
    Stores texts (Emit.ifThen truth body) before := by
  refine .behind upheld_silent.currentLabel.1 fun _ _ labelled => ?_
  obtain ⟨rfl, rfl⟩ := gives_currentLabel.mp labelled
  refine .addBlock ?_
  refine .addBlock ?_
  refine .exit ?_
  exact (bodyInto stored).before_silent fun _ => (upheld_silent.enter _).1

theorem ifElse (stored : Stores texts body (before.fork truth true))
    (also : ∀ ended, Gives body (before.fork truth true) () ended →
      Stores more other ((ended.leave (before.arms true).join).goTo (before.arms true).whenFalse)) :
    Stores (texts ++ more) (Emit.ifElse truth body other) before := by
  refine .behind upheld_silent.currentLabel.1 fun _ _ labelled => ?_
  obtain ⟨rfl, rfl⟩ := gives_currentLabel.mp labelled
  refine .addBlock ?_
  refine .addBlock ?_
  refine .addBlock ?_
  refine .exit ?_
  refine (bodyInto stored).bind fun _ _ first => ?_
  obtain ⟨ended, written, rfl⟩ := gives_bodyInto.mp first
  exact (bodyInto (also ended written)).before_silent fun _ => (upheld_silent.enter _).1

theorem loop {condition : Emit Value} (tested : Stores texts condition before.toTest)
    (stored : ∀ truth tested, Gives condition before.toTest truth tested →
      Stores more body (tested.toInside before.ring truth)) :
    Stores (texts ++ more) (Emit.loop condition body) before := by
  refine .addBlock ?_
  refine .addBlock ?_
  refine .addBlock ?_
  refine .exit ?_
  refine .enter ?_
  refine tested.bind fun truth reached evaluated => ?_
  refine .exit ?_
  refine .enter ?_
  refine (stored truth reached evaluated).before_silent fun _ => ?_
  exact (upheld_silent.bind (upheld_silent.exit _) fun _ => upheld_silent.enter _).1

end Control

section Statements

variable {isVerbose : Bool} {env : Env}

theorem lowerStmt_flat {stmt : Stmt} (flat : stmt.visits site = [.stmt site stmt]) :
    Stores (visitedLiterals (stmt.visits site)) (lowerStmt isVerbose env stmt) before := by
  suffices stored : Stores stmt.literals (lowerStmt isVerbose env stmt) before by
    rw [flat, visitedLiterals_cons, visitedLiterals_nil, List.append_nil]
    exact stored
  cases stmt with
  | expr pos value => exact (lowerExpr value).before_silent fun _ => (upheld_silent.pure _).1
  | ret pos value =>
    cases value with
    | none => exact of_silent (upheld_silent.bind (upheld_silent.exit _) fun _ => upheld_silent.pure _).1
    | some value =>
      exact (lowerExpr value).before_silent fun _ =>
        (upheld_silent.bind (upheld_silent.exit _) fun _ => upheld_silent.pure _).1
  | noOp pos => exact of_silent (upheld_silent.pure _).1
  | declare pos type ident =>
    exact of_silent (Leaves.of_both (LeftHand.lowerStmt · env (.declare pos type ident))
      (upheld_silent.declare env pos type ident) isVerbose)
  | assign pos target value =>
    exact (lowerAssign target value).before_silent fun _ => (upheld_silent.pure _).1
  | branch | loop => simp [Stmt.visits] at flat
  | unknown node =>
    exact of_silent .report

/-- A step makes the constants of live literals wherever a function can be continued. -/
def Anywhere (texts : List String) (step : Emit Unit) : Prop :=
  ∀ {before : Draft} {waiting : List BlockRef}, before.Shape waiting → before.isEnded = false →
    Stores texts step before

theorem elseIf {pos bodyPos : Pos} {condition : Expr} {body : List Stmt} {rest : Else}
    (inside : Anywhere (visitedLiterals (bodyVisits site.body body)) (lowerBody isVerbose env body))
    (others : Anywhere (visitedLiterals (rest.visits site.rest)) (lowerElse isVerbose env rest))
    (shape : before.Shape waiting) :
    Stores (visitedLiterals ((Else.elseIf pos condition bodyPos body rest).visits site))
      (lowerElse isVerbose env (.elseIf pos condition bodyPos body rest)) before := by
  rw [lowerElse, Else.visits, visitedLiterals_cons, visitedLiterals_append]
  refine (lowerCondition condition).bind fun truth tested evaluated => ?_
  have atTest := shape.condition evaluated
  split
  · -- Without an else part there are no literals in it.
    rename_i empty
    have none : rest.visits site.rest = [] := by
      cases rest <;> first | rfl | cases empty
    rw [none, visitedLiterals_nil, List.append_nil]
    exact .ifThen (inside (atTest.fork_false truth) (atTest.isEnded_fork ..))
  · refine .ifElse (inside (atTest.fork_true truth) (atTest.isEnded_fork ..))
      fun ended written => ?_
    obtain ⟨_, lowered⟩ := lowerBody_lowers site.body body written
    have atEnd := lowered.shape (atTest.fork_true truth)
    exact others (atEnd.leave_goTo _) (atEnd.isEnded_leave_goTo _)

/-- Behind the constants of a statement come those of the others, unless it is a return. -/
theorem lowerBody_cons {stmt : Stmt} {stmts : List Stmt} (shape : before.Shape waiting)
    (going : before.isEnded = false)
    (first : Stores (visitedLiterals (stmt.visits site)) (lowerStmt isVerbose env stmt) before)
    (others : ∀ env, Anywhere (visitedLiterals (bodyVisits site.next stmts))
      (lowerBody isVerbose env stmts)) :
    Stores (visitedLiterals (bodyVisits site (stmt :: stmts))) (lowerBody isVerbose env (stmt :: stmts))
      before := by
  have reached : SameFrom before (lowerBody isVerbose env (stmt :: stmts)) (do
      let env ← lowerStmt isVerbose env stmt
      lowerBody isVerbose env stmts) := by
    rw [SameFrom, lowerBody, run_get_bind, if_neg (by simp [going])]
  rw [bodyVisits, visitedLiterals_append]
  refine .of_sameFrom reached (first.bind fun env between written => ?_)
  obtain ⟨_, lowered⟩ := lowerStmt_lowers site stmt written
  have ended : between.isEnded = stmt.isRet := lowered.isEnded_eq shape going
  cases isRet : stmt.isRet with
  | true =>
    -- The block has ended, so nothing is lowered behind it.
    exact .of_sameFrom (.lowerBody_ended (ended.trans isRet) stmts) (of_silent (upheld_silent.pure _).1)
  | false => exact others env (lowered.shape shape) (ended.trans isRet)

mutual

theorem lowerStmt {env : Env} {before : Draft} {waiting : List BlockRef} {site : Site} (stmt : Stmt)
    (shape : before.Shape waiting) :
    Stores (visitedLiterals (stmt.visits site)) (lowerStmt isVerbose env stmt) before := by
  cases stmt with
  | branch pos condition bodyPos body rest =>
    -- A branch is lowered as an else-if is.
    rw [lowerStmt_branch, Part.lower]
    exact (elseIf (lowerBody body) (lowerElse rest) shape).before_silent fun _ =>
      (upheld_silent.pure _).1
  | loop pos condition bodyPos body =>
    rw [LeftHand.lowerStmt, Stmt.visits, visitedLiterals_cons]
    refine before_silent (loop (lowerCondition condition) fun truth tested evaluated => ?_) fun _ =>
      (upheld_silent.pure _).1
    have inside := shape.toTest.condition evaluated
    exact lowerBody body (inside.toInside truth) (inside.isEnded_toInside _)
  | expr | ret | noOp | declare | assign | unknown => exact lowerStmt_flat (by simp [Stmt.visits])
termination_by structural stmt

theorem lowerBody {env : Env} {site : Site} (stmts : List Stmt) :
    Anywhere (visitedLiterals (bodyVisits site stmts)) (lowerBody isVerbose env stmts) := by
  intro before waiting shape going
  cases stmts with
  | nil => exact of_silent (upheld_silent.pure _).1
  | cons stmt stmts => exact lowerBody_cons shape going (lowerStmt stmt shape) fun _ => lowerBody stmts
termination_by structural stmts

theorem lowerElse {env : Env} {site : Site} (rest : Else) :
    Anywhere (visitedLiterals (rest.visits site)) (lowerElse isVerbose env rest) := by
  intro before waiting shape going
  cases rest with
  | none => exact of_silent (upheld_silent.pure _).1
  | elseIf pos condition bodyPos body rest => exact elseIf (lowerBody body) (lowerElse rest) shape
  | otherwise pos body => exact lowerBody body shape going
termination_by structural rest

end

/-- A function makes the constants of its live literals. -/
theorem lowerFunctionBody (isVerbose : Bool) (function : Function) (session : Session) (name : String)
    (signature : Signature) :
    Stores function.literals (lowerFunctionBody isVerbose function)
      (.opening session name signature) := by
  refine .behind upheld_silent.get.1 fun _ _ opened => ?_
  obtain ⟨rfl, rfl⟩ := gives_get.mp opened
  refine .behind (upheld_silent.lowerParams _ _).1 fun env start params => ?_
  obtain ⟨_, appended⟩ := lowerParams_appends params
  have shape := (Draft.shape_opening ..).appends appended
  have going : start.isEnded = false := by
    rw [appended.isEnded_eq]
    exact Draft.isEnded_opening ..
  -- The end of the function has no literals.
  have none : visitedLiterals (if function.body.statements.any Stmt.isRet then [] else [.fallOff]) = [] := by
    split <;> rfl
  rw [Function.literals, Function.visits, visitedLiterals_append, none, List.append_nil]
  refine (lowerBody function.body.statements shape going).before_silent fun _ => ?_
  refine .bind SameStrings.trans upheld_silent.get.1 fun draft => ?_
  split
  · split
    · exact (upheld_silent.exit _).1
    · exact Silent.report
  · exact (upheld_silent.pure _).1

end Statements

end Stores

end LeftHand
