import LeftHand.Proofs.Lower.Function

/-! Quiet and verbose lowering side by side. -/

namespace LeftHand

open Ir

/-- The mistakes that end the program even in a verbose run: whoever finds them is not told which
run it is. -/
def Diagnostic.isPlain : Diagnostic → Bool
  | unknownType _ | noStart => true
  | _ => false

/-- The faults that are the same in quiet and verbose runs. -/
def Fault.isPlain : Fault → Bool
  | reported diagnostic _ isRaised => diagnostic.isPlain && !isRaised
  | _ => true

/-- A relation between steps that sequences inherit, and that the basic steps have of which none
adds a string constant. -/
structure Emit.Upheld (rel : ∀ ⦃α : Type⦄, Emit α → Emit α → Prop) : Prop where
  pure {α : Type} (value : α) : rel (Pure.pure value) (Pure.pure value)
  bind {α β : Type} {first first' : Emit α} {next next' : α → Emit β} (before : rel first first')
    (behind : ∀ value, rel (next value) (next' value)) : rel (first >>= next) (first' >>= next')
  fails {α : Type} {fault : Fault} (plain : fault.isPlain = true) :
    rel (throw fault : Emit α) (throw fault)
  report {α : Type} {diagnostic : Diagnostic} {pos : Pos} (voiced : diagnostic.isPlain = false) :
    rel (Emit.report false diagnostic pos : Emit α) (Emit.report true diagnostic pos)
  get : rel MonadState.get MonadState.get
  takeName (base : String) : rel (Emit.takeName base) (Emit.takeName base)
  modifyBlock (change : Ir.Block → Ir.Block) :
    rel (modify (·.modifyBlock change)) (modify (·.modifyBlock change))
  addBlock (base : String) : rel (Emit.addBlock base) (Emit.addBlock base)
  enter (block : BlockRef) : rel (Emit.enter block) (Emit.enter block)

/-- A relation between steps that the basic steps have and sequences inherit. -/
structure Emit.Respected (rel : ∀ ⦃α : Type⦄, Emit α → Emit α → Prop) : Prop
    extends Emit.Upheld rel where
  addString (text : String) : rel (Emit.addString text) (Emit.addString text)

theorem run_get_bind {σ α : Type} (next : σ → ExceptT Fault (StateM σ) α) (state : σ) :
    ((get >>= next).run.run state : Except Fault α × σ) = (next state).run.run state :=
  rfl

/-- A string constant counts its name even where it cannot be added. -/
theorem run_addString (text : String) (before : Draft) :
    ((Emit.addString text).run.run before : Except Fault Value × Draft) =
      if before.constant.isEmpty || before.globals.any (·.name == before.constant) then
        (.error (.duplicate before.constant), { before.keep text with strings := before.strings })
      else (.ok (.global before.constant (.pointer (.array (constantBytes text).length .i8))),
        before.keep text) := by
  rw [Emit.addString, run_get_bind]
  change (ite ((before.constant.isEmpty || before.globals.any (·.name == before.constant)) = true)
    _ _ : Emit Value).run.run _ = _
  split <;> rfl

/-- A function is added with what has been written of it, whether it could be finished or not. -/
theorem run_define (name : String) (signature : Signature) (body : Emit Unit) (session : Session) :
    ((Build.define name signature body).run.run session : Except Fault Unit × Session) =
      if session.isTaken name then (.error (.duplicate name), session)
      else
        let ended : Except Fault Unit × Draft := body.run.run (.opening session name signature)
        (ended.1, ended.2.close) := by
  rw [Build.define, run_get_bind]
  split
  · rfl
  · -- Opening a function always succeeds, so what follows is what its body gives.
    have opened : (do let _ ← Emit.addBlock "entry"; body : Emit Unit).run.run
        { session, function := .declare name signature } =
          body.run.run (.opening session name signature) :=
      rfl
    dsimp only
    rw [opened]
    rcases (body.run.run (.opening session name signature) : Except Fault Unit × Draft) with
      ⟨_ | _, draft⟩ <;> rfl

/-- A check whose faults are the same in quiet and verbose runs. -/
def Plain {α : Type} (check : Except Fault α) : Prop :=
  ∀ fault, check = .error fault → fault.isPlain = true

namespace Plain

variable {α β : Type}

theorem ok (value : α) : Plain (.ok value) := fun _ refused => nomatch refused

theorem bind {first : Except Fault α} {next : α → Except Fault β} (before : Plain first)
    (behind : ∀ value, Plain (next value)) : Plain (first >>= next) := by
  intro fault refused
  cases first with
  | error =>
    cases refused
    exact before fault rfl
  | ok value => exact behind value fault refused

theorem mapM {check : α → Except Fault β} (each : ∀ item, Plain (check item)) (items : List α) :
    Plain (items.mapM check) := by
  induction items with
  | nil => exact ok _
  | cons item items ih =>
    rw [List.mapM_cons]
    exact (each item).bind fun _ => ih.bind fun _ => ok _

theorem checkCall (callee : Global) (arguments : List Value) :
    Plain (LeftHand.checkCall callee arguments) := by
  intro fault refused
  cases callee with
  | string =>
    cases refused
    rfl
  | function =>
    rw [LeftHand.checkCall] at refused
    split at refused <;> cases refused
    rfl

/-- Types are lowered without regard to the kind of run. -/
theorem lowerType (type : Ty) : Plain (LeftHand.lowerType false type) := by
  induction type with
  | void | decimal | boolean | char => exact ok _
  | pointer _ base ih =>
    refine ih.bind fun type fault refused => ?_
    -- The only other fault is a pointer to void.
    cases type <;> cases refused
    rfl
  | unknown node =>
    intro fault refused
    cases refused
    cases node with
    | node kind pos fields =>
      rw [unknownTypeFault]
      split <;> rfl
    | _ => rfl

end Plain

/-- A relation holds between the two kinds of run of a step. -/
abbrev Both (rel : ∀ ⦃α : Type⦄, Emit α → Emit α → Prop) {α : Type} (step : Bool → Emit α) : Prop :=
  rel (step false) (step true)

namespace Emit.Upheld

variable {rel : ∀ ⦃α : Type⦄, Emit α → Emit α → Prop} (upheld : Emit.Upheld rel)

include upheld

section Basic

theorem instr (base : String) (operation : Operation) :
    Both rel fun _ => Emit.instr base operation :=
  upheld.bind (upheld.takeName _) fun _ =>
    upheld.bind (upheld.modifyBlock _) fun _ => upheld.pure _

theorem exit (exit : Exit) : rel (Emit.exit exit) (Emit.exit exit) := by
  refine upheld.bind (upheld.takeName _) fun _ => upheld.bind upheld.get fun draft => ?_
  split
  · exact upheld.bind (upheld.fails rfl) fun _ => upheld.modifyBlock _
  · exact upheld.modifyBlock _

theorem currentLabel : rel Emit.currentLabel Emit.currentLabel :=
  upheld.bind upheld.get fun _ => upheld.pure _

theorem store (value target : Value) : Both rel fun _ => Emit.store value target := by
  rw [Emit.store]
  have written : rel (do let _ ← Emit.instr "" (.store value target))
      (do let _ ← Emit.instr "" (.store value target)) :=
    upheld.bind (upheld.instr _ _) fun _ => upheld.pure _
  split
  · split
    · exact upheld.bind (upheld.fails rfl) fun _ => written
    · exact written
  · exact upheld.bind upheld.get fun _ => upheld.fails rfl

theorem cast (op : Cast) (value : Value) (type : Ir.Ty) (name : String) :
    Both rel fun _ => Emit.cast op value type name := by
  rw [Emit.cast]
  split
  · exact upheld.pure _
  · exact upheld.instr _ _

theorem call (callee : Global) (arguments : List Value) (name : String) :
    Both rel fun _ => Emit.call callee arguments name := by
  rw [Emit.call]
  split
  · exact upheld.instr _ _
  · rename_i refused
    exact upheld.fails (Plain.checkCall _ _ _ refused)

theorem checkType (given expected : Ir.Ty) (pos : Pos) :
    Both rel fun run => Emit.check (LeftHand.checkType run given expected pos) := by
  rw [Both, LeftHand.checkType, LeftHand.checkType]
  split
  · exact upheld.pure _
  · exact upheld.report rfl

theorem lowerType (type : Ty) : rel (Emit.check (LeftHand.lowerType false type))
    (Emit.check (LeftHand.lowerType false type)) := by
  cases lowered : LeftHand.lowerType false type with
  | ok => exact upheld.pure _
  | error => exact upheld.fails (Plain.lowerType _ _ lowered)

end Basic

section Expressions

theorem lookupName (env : Env) (ident : Ident) :
    Both rel (LeftHand.lookupName · env ident) := by
  rw [Both, LeftHand.lookupName, LeftHand.lookupName]
  split
  · exact upheld.pure _
  · exact upheld.report rfl

section

variable (pos : Pos)

include pos

theorem findCallee (name : String) (count : Nat) :
    Both rel (LeftHand.findCallee · pos name count) := by
  refine upheld.bind (upheld.bind upheld.get fun _ => upheld.pure _) fun found => ?_
  split
  · exact upheld.report rfl
  · exact upheld.report rfl
  · split
    · exact upheld.report rfl
    · exact upheld.pure _

theorem lowerArith (type : Ir.Ty) (op : Arith) (name : String) (lhs rhs : Value) :
    Both rel (LeftHand.lowerArith · pos type op name lhs rhs) :=
  upheld.bind (upheld.checkType _ _ _) fun _ =>
    upheld.bind (upheld.checkType _ _ _) fun _ => upheld.instr _ _

theorem lowerOrder (op : Comparison) (lhs rhs : Value) :
    Both rel (LeftHand.lowerOrder · pos op lhs rhs) :=
  upheld.bind (upheld.checkType _ _ _) fun _ =>
    upheld.bind (upheld.checkType _ _ _) fun _ => upheld.instr _ _

theorem lowerEquality (op : Comparison) (lhs rhs : Value) :
    Both rel (LeftHand.lowerEquality · pos op lhs rhs) := by
  rw [Both, LeftHand.lowerEquality, LeftHand.lowerEquality]
  split
  · exact upheld.report rfl
  · exact upheld.instr _ _

theorem lowerAdd (lhs rhs : Value) :
    Both rel (LeftHand.lowerAdd · pos lhs rhs) := by
  rw [Both, LeftHand.lowerAdd, LeftHand.lowerAdd]
  split
  · exact upheld.report rfl
  · exact upheld.bind (upheld.checkType _ _ _) fun _ => upheld.instr _ _
  · exact upheld.bind (upheld.checkType _ _ _) fun _ => upheld.instr _ _
  · exact upheld.lowerArith _ _ _ _ _ _

theorem lowerSub (lhs rhs : Value) :
    Both rel (LeftHand.lowerSub · pos lhs rhs) := by
  rw [Both, LeftHand.lowerSub, LeftHand.lowerSub]
  split
  · exact upheld.report rfl
  · exact upheld.bind (upheld.checkType _ _ _) fun _ =>
      upheld.bind (upheld.instr _ _) fun _ => upheld.instr _ _
  · exact upheld.lowerArith _ _ _ _ _ _

theorem lowerBinary (op : BinOp) (lhs rhs : Value) :
    Both rel (LeftHand.lowerBinary · pos op lhs rhs) := by
  cases op with
  | or | and | mul | div | mod => exact upheld.lowerArith _ _ _ _ _ _
  | equals | revEquals => exact upheld.lowerEquality _ _ _ _
  | less | lessEqual | greater | greaterEqual => exact upheld.lowerOrder _ _ _ _
  | add => exact upheld.lowerAdd _ _ _
  | sub => exact upheld.lowerSub _ _ _

end

theorem lowerParams (params : List (String × Value)) (env : Env) :
    rel (LeftHand.lowerParams params env) (LeftHand.lowerParams params env) := by
  induction params generalizing env with
  | nil => exact upheld.pure _
  | cons param params ih =>
    obtain ⟨name, value⟩ := param
    rw [LeftHand.lowerParams]
    have kept := upheld.bind (upheld.instr name (.alloca value.type)) fun address =>
      upheld.bind (upheld.store value address) fun _ => ih ((name, address) :: env)
    split
    · exact upheld.bind (upheld.fails rfl) fun _ => kept
    · exact kept

theorem declare (env : Env) (pos : Pos) (type : Ty) (ident : Ident) :
    Both rel (LeftHand.lowerStmt · env (.declare pos type ident)) := by
  rw [Both, LeftHand.lowerStmt, LeftHand.lowerStmt]
  -- The variable is made behind the checks, whichever of them there are.
  have made : rel (do
        let type ← Emit.check (LeftHand.lowerType false type)
        if type = .void then throw .impossible
        let address ← Emit.instr ident.text (.alloca type)
        return (ident.text, address) :: env)
      (do
        let type ← Emit.check (LeftHand.lowerType false type)
        if type = .void then throw .impossible
        let address ← Emit.instr ident.text (.alloca type)
        return (ident.text, address) :: env) := by
    refine upheld.bind (upheld.lowerType type) fun type => ?_
    have added := upheld.bind (upheld.instr ident.text (.alloca type))
      fun address => upheld.pure ((ident.text, address) :: env)
    split
    · exact upheld.bind (upheld.fails rfl) fun _ => added
    · exact added
  split
  · exact upheld.bind (upheld.report rfl) fun _ => made
  · exact made

end Expressions

end Emit.Upheld

namespace Emit.Respected

variable {rel : ∀ ⦃α : Type⦄, Emit α → Emit α → Prop} (respected : Emit.Respected rel)

include respected

section Expressions

mutual

theorem lowerExpr (env : Env) (expr : Expr) :
    Both rel (LeftHand.lowerExpr · env expr) := by
  cases expr with
  | decimal | boolean => exact respected.pure _
  | string => exact respected.bind (respected.addString _) fun _ => respected.instr _ _
  | name _ ident => exact respected.bind (respected.lookupName env ident) fun _ => respected.instr _ _
  | addressOf _ ident => exact respected.lookupName env ident
  | deref _ value =>
    refine respected.bind (lowerExpr env value) fun address => ?_
    split
    · exact respected.instr _ _
    · exact respected.report rfl
  | exec _ ident arguments =>
    refine respected.bind (respected.findCallee _ _ _) fun callee =>
      respected.bind respected.get fun draft => ?_
    exact respected.bind (lowerArguments env _ 0 arguments) fun _ => respected.call _ _ _
  | rev _ value =>
    exact respected.bind (lowerExpr env value) fun _ =>
      respected.bind (respected.checkType _ _ _) fun _ => respected.instr _ _
  | binary _ op lhs rhs =>
    exact respected.bind (lowerExpr env lhs) fun _ =>
      respected.bind (lowerExpr env rhs) fun _ => respected.lowerBinary _ _ _ _
  | unknown => exact respected.report rfl

theorem lowerArguments (env : Env) (casts : List Nat) (position : Nat) (arguments : List Expr) :
    Both rel (LeftHand.lowerArguments · env casts position arguments) := by
  cases arguments with
  | nil => exact respected.pure _
  | cons argument arguments =>
    refine respected.bind (lowerExpr env argument) fun given => ?_
    -- Whatever the first argument has become, the others follow behind it.
    have others (value : Value) := respected.bind
      (lowerArguments env casts (position + 1) arguments)
      fun values => respected.pure (value :: values)
    split
    · exact respected.bind (respected.cast _ _ _ _) others
    · exact respected.bind (respected.pure _) others

end

end Expressions

section Statements

theorem lowerCondition (env : Env) (condition : Expr) :
    Both rel (LeftHand.lowerCondition · env condition) :=
  respected.bind (respected.lowerExpr env condition) fun _ =>
    respected.bind (respected.checkType _ _ _) fun _ => respected.pure _

theorem lowerTarget (env : Env) (target : Target) :
    Both rel (LeftHand.lowerTarget · env target) := by
  cases target with
  | name ident => exact respected.lookupName env ident
  | deref _ value => exact respected.lowerExpr env value
  | unknown => exact respected.report rfl

theorem lowerAssign (env : Env) (target : Target) (value : Expr) :
    Both rel (LeftHand.lowerAssign · env target value) := by
  refine respected.bind (respected.lowerTarget env target) fun address =>
    respected.bind (respected.lowerExpr env value) fun given => ?_
  split
  · exact respected.bind (respected.instr _ _) fun _ => respected.store _ _
  · exact respected.store _ _

variable {body body' other other' : Emit Unit}

theorem bodyInto (block join : BlockRef) (same : rel body body') :
    rel (Emit.bodyInto block join body) (Emit.bodyInto block join body') := by
  refine respected.bind (respected.enter _) fun _ => respected.bind same fun _ =>
    respected.bind respected.get fun draft => ?_
  split
  · exact respected.exit _
  · exact respected.pure _

theorem ifThen (condition : Value) (same : rel body body') :
    rel (Emit.ifThen condition body) (Emit.ifThen condition body') :=
  respected.bind respected.currentLabel fun _ => respected.bind (respected.addBlock _) fun _ =>
    respected.bind (respected.addBlock _) fun _ => respected.bind (respected.exit _) fun _ =>
      respected.bind (respected.bodyInto _ _ same) fun _ => respected.enter _

theorem ifElse (condition : Value) (same : rel body body') (also : rel other other') :
    rel (Emit.ifElse condition body other) (Emit.ifElse condition body' other') :=
  respected.bind respected.currentLabel fun _ => respected.bind (respected.addBlock _) fun _ =>
    respected.bind (respected.addBlock _) fun _ => respected.bind (respected.addBlock _) fun _ =>
      respected.bind (respected.exit _) fun _ =>
        respected.bind (respected.bodyInto _ _ same) fun _ =>
          respected.bind (respected.bodyInto _ _ also) fun _ => respected.enter _

theorem loop {condition condition' : Emit Value} (tested : rel condition condition')
    (same : rel body body') : rel (Emit.loop condition body) (Emit.loop condition' body') :=
  respected.bind (respected.addBlock _) fun _ => respected.bind (respected.addBlock _) fun _ =>
    respected.bind (respected.addBlock _) fun _ => respected.bind (respected.exit _) fun _ =>
      respected.bind (respected.enter _) fun _ => respected.bind tested fun _ =>
        respected.bind (respected.exit _) fun _ => respected.bind (respected.enter _) fun _ =>
          respected.bind same fun _ => respected.bind (respected.exit _) fun _ => respected.enter _

mutual

theorem lowerStmt (env : Env) (stmt : Stmt) :
    Both rel (LeftHand.lowerStmt · env stmt) := by
  cases stmt with
  | expr _ value => exact respected.bind (respected.lowerExpr env value) fun _ => respected.pure _
  | ret _ value =>
    cases value with
    | none => exact respected.bind (respected.exit _) fun _ => respected.pure _
    | some value =>
      exact respected.bind (respected.lowerExpr env value) fun _ =>
        respected.bind (respected.exit _) fun _ => respected.pure _
  | noOp => exact respected.pure _
  | declare pos type ident => exact respected.declare env pos type ident
  | assign _ target value =>
    exact respected.bind (respected.lowerAssign env target value) fun _ => respected.pure _
  | branch _ condition _ body rest =>
    refine respected.bind (respected.lowerCondition env condition) fun truth => ?_
    split
    · exact respected.bind (respected.ifThen _ (lowerBody env body)) fun _ => respected.pure _
    · exact respected.bind (respected.ifElse _ (lowerBody env body)
        (lowerElse env rest)) fun _ => respected.pure _
  | loop _ condition _ body =>
    exact respected.bind (respected.loop (respected.lowerCondition env condition)
      (lowerBody env body)) fun _ => respected.pure _
  | unknown => exact respected.report rfl

theorem lowerBody (env : Env) (stmts : List Stmt) :
    Both rel (LeftHand.lowerBody · env stmts) := by
  cases stmts with
  | nil => exact respected.pure _
  | cons stmt stmts =>
    refine respected.bind respected.get fun draft => ?_
    split
    · exact lowerBody env stmts
    · exact respected.bind (lowerStmt env stmt) fun env => lowerBody env stmts

theorem lowerElse (env : Env) (rest : Else) :
    Both rel (LeftHand.lowerElse · env rest) := by
  cases rest with
  | none => exact respected.pure _
  | elseIf _ condition _ body rest =>
    refine respected.bind (respected.lowerCondition env condition) fun truth => ?_
    split
    · exact respected.ifThen _ (lowerBody env body)
    · exact respected.ifElse _ (lowerBody env body) (lowerElse env rest)
  | otherwise _ body => exact lowerBody env body

end

theorem lowerFunctionBody (function : Function) :
    Both rel (LeftHand.lowerFunctionBody · function) := by
  -- First the parameters, then the statements, and then the end of a void function.
  refine respected.bind respected.get fun draft => ?_
  refine respected.bind (respected.lowerParams _ _) fun env => ?_
  refine respected.bind (respected.lowerBody env _) fun _ => respected.bind respected.get fun ended => ?_
  split
  · split
    · exact respected.exit _
    · exact respected.report rfl
  · exact respected.pure _

end Statements

end Emit.Respected

end LeftHand
