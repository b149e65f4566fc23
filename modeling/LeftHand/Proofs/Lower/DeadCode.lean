import LeftHand.Lower.Script
import LeftHand.Proofs.Lower.Parallel

/-!
Dead code: whatever stands behind a return in the same list of statements has no influence on a
build.
-/

namespace LeftHand

variable {function changed : Function}

/-- A change of a part behind a return: in one of its lists of statements, at some depth, other
statements stand behind a return than before. -/
inductive DeadEdit : Part → Part → Prop where
  | behind (front : List Stmt) {pos value old new} :
      DeadEdit (.body (front ++ .ret pos value :: old)) (.body (front ++ .ret pos value :: new))
  | within (front : List Stmt) {stmt changed back} (edit : DeadEdit (.stmt stmt) (.stmt changed)) :
      DeadEdit (.body (front ++ stmt :: back)) (.body (front ++ changed :: back))
  /-- A branch is changed as an else-if is. -/
  | branch {pos condition bodyPos body changed rest other}
      (edit : DeadEdit (.rest (.elseIf pos condition bodyPos body rest))
        (.rest (.elseIf pos condition bodyPos changed other))) :
      DeadEdit (.stmt (.branch pos condition bodyPos body rest))
        (.stmt (.branch pos condition bodyPos changed other))
  | loop {pos condition bodyPos body changed} (edit : DeadEdit (.body body) (.body changed)) :
      DeadEdit (.stmt (.loop pos condition bodyPos body)) (.stmt (.loop pos condition bodyPos changed))
  | inside {pos condition bodyPos body changed rest} (edit : DeadEdit (.body body) (.body changed)) :
      DeadEdit (.rest (.elseIf pos condition bodyPos body rest))
        (.rest (.elseIf pos condition bodyPos changed rest))
  | other {pos condition bodyPos body rest changed} (edit : DeadEdit (.rest rest) (.rest changed)) :
      DeadEdit (.rest (.elseIf pos condition bodyPos body rest))
        (.rest (.elseIf pos condition bodyPos body changed))
  | otherwise {bodyPos body changed} (edit : DeadEdit (.body body) (.body changed)) :
      DeadEdit (.rest (.otherwise bodyPos body)) (.rest (.otherwise bodyPos changed))

/-- A change behind a return in the statements of a function. -/
inductive Function.DeadEdit (function : Function) : Function → Prop where
  | intro {stmts} (edit : LeftHand.DeadEdit (.body function.body.statements) (.body stmts)) :
      function.DeadEdit { function with body := { function.body with statements := stmts } }

/-- A change behind a return in one function of a program. -/
inductive Program.DeadEdit (program : Program) : Program → Prop where
  | intro (front : List Function) {function changed back}
      (split : program.functions = front ++ function :: back) (edit : function.DeadEdit changed) :
      program.DeadEdit { program with functions := front ++ changed :: back }

/-- Steps that do the same in one state, whether they succeed or fail. -/
def SameFrom {σ α : Type} (before : σ) (step other : ExceptT Fault (StateM σ) α) : Prop :=
  (step.run.run before : Except Fault α × σ) = other.run.run before

namespace SameFrom

section Sequences

variable {σ α β : Type} {before : σ} {next next' : α → ExceptT Fault (StateM σ) β}

theorem refl (before : σ) (step : ExceptT Fault (StateM σ) α) : SameFrom before step step :=
  Eq.refl _

/-- Steps that follow are compared only in the state that the first ones lead to. -/
theorem bind {first first' : ExceptT Fault (StateM σ) α} (same : SameFrom before first first')
    (behind : ∀ value between, Gives first before value between →
      SameFrom between (next value) (next' value)) :
    SameFrom before (first >>= next) (first' >>= next') := by
  simp only [SameFrom, Gives, ExceptT.run, StateT.run, Bind.bind, ExceptT.bind, ExceptT.mk,
    StateT.bind] at same behind ⊢
  rw [← same]
  rcases ran : first before with ⟨fault | value, between⟩
  · rfl
  · exact behind value between ran

theorem behind {first : ExceptT Fault (StateM σ) α}
    (others : ∀ value between, Gives first before value between →
      SameFrom between (next value) (next' value)) :
    SameFrom before (first >>= next) (first >>= next') :=
  bind (refl before first) others

/-- A value given behind a step does not hide what the step does. -/
theorem of_return {step other : ExceptT Fault (StateM σ) Unit} {value : β}
    (same : SameFrom before (do step; return value) (do other; return value)) :
    SameFrom before step other := by
  simp only [SameFrom, ExceptT.run, StateT.run, Bind.bind, ExceptT.bind, ExceptT.mk, StateT.bind]
    at same ⊢
  revert same
  rcases step before with ⟨_ | _, _⟩ <;> rcases other before with ⟨_ | _, _⟩ <;> intro same <;>
    cases same <;> rfl

end Sequences

section Control

variable {before : Draft} {truth : Ir.Value} {body body' other other' : Emit Unit}

theorem addBlock {base : String} {next next' : BlockRef → Emit Unit}
    (same : SameFrom (before.grow base) (next (before.grown base)) (next' (before.grown base))) :
    SameFrom before (Emit.addBlock base >>= next) (Emit.addBlock base >>= next') := by
  refine .behind fun _ _ added => ?_
  obtain ⟨rfl, rfl⟩ := gives_addBlock.mp added
  exact same

theorem bodyInto {block join : BlockRef} (same : SameFrom (before.goTo block) body body') :
    SameFrom before (Emit.bodyInto block join body) (Emit.bodyInto block join body') := by
  refine .behind fun _ _ entered => ?_
  obtain rfl := gives_enter.mp entered
  exact .bind same fun _ _ _ => .refl _ _

theorem ifThen (same : SameFrom (before.fork truth false) body body') :
    SameFrom before (Emit.ifThen truth body) (Emit.ifThen truth body') := by
  -- The blocks are added and the condition is left in either case.
  refine .behind fun _ _ labelled => ?_
  obtain ⟨rfl, rfl⟩ := gives_currentLabel.mp labelled
  refine .addBlock ?_
  refine .addBlock ?_
  refine .behind fun _ _ left => ?_
  obtain ⟨_, rfl⟩ := gives_exit.mp left
  exact .bind (.bodyInto same) fun _ _ _ => .refl _ _

theorem ifElse (same : SameFrom (before.fork truth true) body body')
    (also : ∀ ended, Gives body (before.fork truth true) () ended →
      SameFrom ((ended.leave (before.arms true).join).goTo (before.arms true).whenFalse) other other') :
    SameFrom before (Emit.ifElse truth body other) (Emit.ifElse truth body' other') := by
  refine .behind fun _ _ labelled => ?_
  obtain ⟨rfl, rfl⟩ := gives_currentLabel.mp labelled
  refine .addBlock ?_
  refine .addBlock ?_
  refine .addBlock ?_
  refine .behind fun _ _ left => ?_
  obtain ⟨_, rfl⟩ := gives_exit.mp left
  -- The second body is written from where the first one has led.
  refine .bind (.bodyInto same) fun _ _ first => ?_
  obtain ⟨ended, written, rfl⟩ := gives_bodyInto.mp first
  exact .bind (.bodyInto (also ended written)) fun _ _ _ => .refl _ _

theorem loop {condition : Emit Ir.Value}
    (same : ∀ truth tested, Gives condition before.toTest truth tested →
      SameFrom (tested.toInside before.ring truth) body body') :
    SameFrom before (Emit.loop condition body) (Emit.loop condition body') := by
  refine .addBlock ?_
  refine .addBlock ?_
  refine .addBlock ?_
  refine .behind fun _ _ left => ?_
  obtain ⟨_, rfl⟩ := gives_exit.mp left
  refine .behind fun _ _ entered => ?_
  obtain rfl := gives_enter.mp entered
  refine .behind fun truth tested evaluated => ?_
  refine .behind fun _ _ left => ?_
  obtain ⟨_, rfl⟩ := gives_exit.mp left
  refine .behind fun _ _ entered => ?_
  obtain rfl := gives_enter.mp entered
  exact .bind (same truth tested evaluated) fun _ _ _ => .refl _ _

end Control

section Bodies

variable {isVerbose : Bool} {env : Env} {before : Draft}

/-- Nothing is done with statements behind the end of the block, whatever they are. -/
theorem lowerBody_ended (isEnded : before.isEnded = true) (stmts : List Stmt) :
    SameFrom before (lowerBody isVerbose env stmts) (pure ()) := by
  induction stmts with
  | nil => exact .refl before (pure ())
  | cons stmt stmts ih =>
    rw [SameFrom, lowerBody, run_get_bind, if_pos isEnded]
    exact ih

theorem lowerBody_cons {stmt stmt' : Stmt} {stmts stmts' : List Stmt}
    (first : SameFrom before (lowerStmt isVerbose env stmt) (lowerStmt isVerbose env stmt'))
    (others : ∀ env' between, before.isEnded = false →
      Gives (lowerStmt isVerbose env stmt) before env' between →
      SameFrom between (lowerBody isVerbose env' stmts) (lowerBody isVerbose env' stmts')) :
    SameFrom before (lowerBody isVerbose env (stmt :: stmts))
      (lowerBody isVerbose env (stmt' :: stmts')) := by
  cases isEnded : before.isEnded with
  | true => exact (lowerBody_ended isEnded _).trans (lowerBody_ended isEnded _).symm
  | false =>
    have going : ¬ before.isEnded = true := by simp [isEnded]
    rw [SameFrom, lowerBody, lowerBody, run_get_bind, run_get_bind, if_neg going, if_neg going]
    exact SameFrom.bind first fun env' between => others env' between isEnded

end Bodies

end SameFrom

/-- Parts that are lowered to the same, or fail alike, wherever a function can be continued. -/
def LoweredAlike (isVerbose : Bool) (part changed : Part) : Prop :=
  ∀ (env : Env) (before : Draft) (waiting : List BlockRef), before.Shape waiting →
    SameFrom before (part.lower isVerbose env) (changed.lower isVerbose env)

namespace LoweredAlike

variable {isVerbose : Bool} {env : Env} {before : Draft} {waiting : List BlockRef}
  {pos bodyPos : Pos}

theorem body {stmts changed : List Stmt} (alike : LoweredAlike isVerbose (.body stmts) (.body changed))
    (shape : before.Shape waiting) :
    SameFrom before (lowerBody isVerbose env stmts) (lowerBody isVerbose env changed) :=
  .of_return (alike env before waiting shape)

theorem rest {rest changed : Else} (alike : LoweredAlike isVerbose (.rest rest) (.rest changed))
    (shape : before.Shape waiting) :
    SameFrom before (lowerElse isVerbose env rest) (lowerElse isVerbose env changed) :=
  .of_return (alike env before waiting shape)

theorem append (front : List Stmt) {stmts changed : List Stmt}
    (alike : LoweredAlike isVerbose (.body stmts) (.body changed)) :
    LoweredAlike isVerbose (.body (front ++ stmts)) (.body (front ++ changed)) := by
  induction front with
  | nil => exact alike
  | cons stmt front ih =>
    intro env before waiting shape
    refine .bind (.lowerBody_cons (.refl _ _) fun env' between _ written => ?_) fun _ _ _ => .refl _ _
    obtain ⟨_, lowered⟩ := lowerStmt_lowers [] stmt written
    exact ih.body (lowered.shape shape)

theorem behind_ret {value : Option Expr} {old new : List Stmt} :
    LoweredAlike isVerbose (.body (.ret pos value :: old)) (.body (.ret pos value :: new)) := by
  intro env before waiting shape
  refine .bind (.lowerBody_cons (.refl _ _) fun env' between going returned => ?_)
    fun _ _ _ => .refl _ _
  obtain ⟨_, lowered⟩ := lowerStmt_lowers [] (.ret pos value) returned
  have isEnded : between.isEnded = true := lowered.isEnded_eq shape going
  exact (SameFrom.lowerBody_ended isEnded old).trans (SameFrom.lowerBody_ended isEnded new).symm

variable {body changed : List Stmt} (alike : LoweredAlike isVerbose (.body body) (.body changed))

include alike

theorem elseIf {condition : Expr} {rest other : Else}
    (follows : LoweredAlike isVerbose (.rest rest) (.rest other))
    (empty : other.isEmpty = rest.isEmpty) :
    LoweredAlike isVerbose (.rest (.elseIf pos condition bodyPos body rest))
      (.rest (.elseIf pos condition bodyPos changed other)) := by
  intro env before waiting shape
  refine .bind ?_ fun _ _ _ => .refl _ _
  rw [lowerElse, lowerElse, empty]
  refine .behind fun truth tested evaluated => ?_
  have tested := shape.condition evaluated
  cases rest.isEmpty with
  | true => exact .ifThen (alike.body (tested.fork_false truth))
  | false =>
    refine .ifElse (alike.body (tested.fork_true truth)) fun ended written => ?_
    obtain ⟨_, lowered⟩ := lowerBody_lowers [] body written
    exact follows.rest ((lowered.shape (tested.fork_true truth)).leave_goTo _)

theorem loop {condition : Expr} :
    LoweredAlike isVerbose (.stmt (.loop pos condition bodyPos body))
      (.stmt (.loop pos condition bodyPos changed)) := by
  intro env before waiting shape
  refine .bind (.loop fun truth tested evaluated => ?_) fun _ _ _ => .refl _ _
  exact alike.body ((shape.toTest.condition evaluated).toInside truth)

end LoweredAlike

theorem lowerStmt_branch {isVerbose : Bool} {env : Env} {pos bodyPos : Pos} {condition : Expr}
    {body : List Stmt} {rest : Else} :
    lowerStmt isVerbose env (.branch pos condition bodyPos body rest) =
      (Part.rest (.elseIf pos condition bodyPos body rest)).lower isVerbose env := by
  rw [lowerStmt, Part.lower, lowerElse, bind_assoc]
  cases rest.isEmpty <;> rfl

namespace DeadEdit

theorem isEmpty_eq {rest changed : Else} (edit : DeadEdit (.rest rest) (.rest changed)) :
    changed.isEmpty = rest.isEmpty := by
  cases edit <;> rfl

/-- A change behind a return changes nothing in what a part is lowered to. -/
theorem loweredAlike {part changed : Part} (edit : DeadEdit part changed) (isVerbose : Bool) :
    LoweredAlike isVerbose part changed := by
  induction edit with
  | behind front => exact .append front .behind_ret
  | within front _ alike =>
    refine .append front fun env before waiting shape => ?_
    exact .bind (.lowerBody_cons (alike env before waiting shape) fun _ _ _ _ => .refl _ _)
      fun _ _ _ => .refl _ _
  | branch _ alike =>
    intro env before waiting shape
    simp only [Part.lower, lowerStmt_branch]
    exact alike env before waiting shape
  | loop _ alike => exact .loop alike
  | inside _ alike => exact .elseIf alike (fun _ _ _ _ => .refl _ _) rfl
  | other edit alike => exact .elseIf (fun _ _ _ _ => .refl _ _) alike edit.isEmpty_eq
  | otherwise _ alike =>
    intro env before waiting shape
    exact alike env before waiting shape

end DeadEdit

theorem Function.DeadEdit.sameFrom (edit : function.DeadEdit changed) (isVerbose : Bool)
    (session : Session) :
    SameFrom session (Build.function isVerbose function) (Build.function isVerbose changed) := by
  -- Neither the name nor the parameters change, so the statements are reached in one draft.
  have sameName : changed.ident = function.ident := by
    cases edit
    rfl
  have sameSignature : changed.signature = function.signature := by
    cases edit
    rfl
  rw [Build.function, Build.function, ← Function.signature, ← Function.signature, sameSignature,
    sameName]
  cases function.signature with
  | error fault => exact .refl _ _
  | ok signature =>
    suffices same : SameFrom (.opening session (functionName function.ident.text) signature)
        (lowerFunctionBody isVerbose function) (lowerFunctionBody isVerbose changed) by
      rw [SameFrom, run_define, run_define, same]
    obtain ⟨edit⟩ := edit
    refine .behind fun _ _ opened => ?_
    obtain ⟨rfl, rfl⟩ := gives_get.mp opened
    refine .behind fun env start params => ?_
    obtain ⟨_, appended⟩ := lowerParams_appends params
    have shape := (Draft.shape_opening ..).appends appended
    exact .bind ((edit.loweredAlike isVerbose).body shape) fun _ _ _ => .refl _ _

theorem Function.DeadEdit.sameFrom_forM (edit : function.DeadEdit changed) (isVerbose : Bool)
    (front back : List Function) (session : Session) :
    SameFrom session ((front ++ function :: back).forM (Build.function isVerbose))
      ((front ++ changed :: back).forM (Build.function isVerbose)) := by
  induction front generalizing session with
  | nil => exact .bind (edit.sameFrom isVerbose session) fun _ _ _ => .refl _ _
  | cons first front ih => exact .behind fun _ between _ => ih between

/-- **Dead code**: a program is built to the same module with the same counters, or fails with the
same fault, whatever stands behind a return in the same list of statements. -/
theorem runOn_program_eq_of_deadEdit {program changed : Program} (edit : program.DeadEdit changed)
    (isVerbose : Bool) (session : Session) :
    (Build.program isVerbose changed).runOn session =
      (Build.program isVerbose program).runOn session := by
  obtain @⟨front, _, changed, back, split, edit⟩ := edit
  have same : SameFrom session (Build.program isVerbose program)
      (Build.program isVerbose { program with functions := front ++ changed :: back }) := by
    refine .behind fun _ between _ => .bind ?_ fun _ _ _ => .refl _ _
    rw [split]
    exact edit.sameFrom_forM isVerbose front back between
  exact same.symm

/-- A program that returns early, with some statements behind the return. -/
def cutShort (dead : List Stmt) : Program :=
  let pos : Pos := ⟨1, 1⟩
  { pos
    functions := [
      { pos, type := .decimal pos, ident := ⟨pos, "start"⟩, params := []
        body := ⟨pos,
          [.branch pos (.boolean pos true) pos (.ret pos (some (.decimal pos 1)) :: dead) .none,
           .ret pos (some (.decimal pos 0))]⟩ }] }

/-- Statements that could not stand where they are reached: a name declared twice, a name that
nobody has declared, operands of different types, and a string that would be counted. -/
def unreachable : List Stmt :=
  let pos : Pos := ⟨2, 1⟩
  let twice : Stmt := .declare pos (.decimal pos) ⟨pos, "twice"⟩
  [twice, twice, .assign pos (.name ⟨pos, "nobody"⟩) (.string pos "text"),
   .expr pos (.binary pos .add (.boolean pos true) (.decimal pos 1))]

/-- The program that returns early can be built, and unreachable statements make no difference. -/
theorem runOn_cutShort_unreachable :
    ((Build.program false (cutShort [])).runOn {}).1.isOk = true ∧
      (cutShort []).DeadEdit (cutShort unreachable) ∧
      (Build.program false (cutShort unreachable)).runOn {} =
        (Build.program false (cutShort [])).runOn {} := by
  have edit : (cutShort []).DeadEdit (cutShort unreachable) :=
    .intro [] rfl (.intro (.within [] (.branch (.inside (.behind [])))))
  exact ⟨by decide +kernel, edit, runOn_program_eq_of_deadEdit edit false {}⟩

end LeftHand
