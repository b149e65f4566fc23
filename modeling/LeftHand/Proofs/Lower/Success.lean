import LeftHand.Lower.Stmt
import LeftHand.Proofs.Ir.Scope
import LeftHand.Proofs.Ir.Type

/-! Steps that succeed: what a successful step gives, and what it leaves behind. -/

namespace LeftHand

open Ir

variable {fault : Fault} {base name : String} {done : Unit} {value : Value}

section Success

variable {σ α β : Type} {step next : ExceptT Fault (StateM σ) α}

theorem bind_eq_ok {ε : Type} {first : Except ε α} {next : α → Except ε β} {value : β} :
    first >>= next = .ok value ↔ ∃ between, first = .ok between ∧ next between = .ok value := by
  cases first <;> simp [Bind.bind, Except.bind]

theorem map_eq_ok {ε : Type} {change : α → β} {first : Except ε α} {value : β} :
    first.map change = .ok value ↔ ∃ given, first = .ok given ∧ value = change given := by
  cases first <;> simp [Except.map, eq_comm]

theorem mapError_eq_ok {ε δ : Type} {change : ε → δ} {first : Except ε α} {value : α} :
    first.mapError change = .ok value ↔ first = .ok value := by
  cases first <;> simp [Except.mapError]

/-- A step that starts in one state succeeds with a value, and leaves another state behind. -/
def Gives (step : ExceptT Fault (StateM σ) α) (before : σ) (value : α) (after : σ) : Prop :=
  (step.run.run before : Except Fault α × σ) = (.ok value, after)

variable {before after : σ}

@[simp] theorem gives_pure {value given : α} :
    Gives (pure value) before given after ↔ given = value ∧ after = before := by
  change (Except.ok value, before) = (Except.ok given, after) ↔ _
  simp [eq_comm]

/-- A sequence succeeds if its first step does and the others do from there. -/
@[simp] theorem gives_bind {first : ExceptT Fault (StateM σ) α}
    {next : α → ExceptT Fault (StateM σ) β} {value : β} :
    Gives (first >>= next) before value after ↔
      ∃ given between, Gives first before given between ∧ Gives (next given) between value after := by
  -- The first step either stops the sequence with its fault or hands its value on.
  simp only [Gives, ExceptT.run, StateT.run, bind, ExceptT.bind, ExceptT.mk, StateT.bind]
  rcases first before with ⟨_ | given, between⟩
  · constructor
    · intro stopped
      cases stopped
    · rintro ⟨_, _, stopped, _⟩
      cases stopped
  · constructor
    · intro rest
      exact ⟨given, between, rfl, rest⟩
    · rintro ⟨_, _, same, rest⟩
      cases same
      exact rest

@[simp] theorem gives_map {change : α → β} {value : β} :
    Gives (change <$> step) before value after ↔
      ∃ given, Gives step before given after ∧ value = change given := by
  rw [map_eq_pure_bind, gives_bind]
  simp [and_comm]

@[simp] theorem gives_throw {value : α} : Gives (throw fault) before value after ↔ False := by
  simp only [iff_false]
  intro given
  cases given

@[simp] theorem gives_guard {stop : Prop} [Decidable stop] {value : α} :
    Gives (if stop then throw fault else next) before value after ↔
      ¬stop ∧ Gives next before value after := by
  split <;> simp [*]

@[simp] theorem gives_guard_bind {stop : Prop} [Decidable stop]
    {never : β → ExceptT Fault (StateM σ) α} {value : α} :
    Gives (if stop then throw fault >>= never else next) before value after ↔
      ¬stop ∧ Gives next before value after := by
  split <;> simp [*]

@[simp] theorem gives_allowed {go : Prop} [Decidable go] {value : α} :
    Gives (if go then next else throw fault) before value after ↔
      go ∧ Gives next before value after := by
  split <;> simp [*]

@[simp] theorem gives_get {value : σ} :
    Gives get before value after ↔ value = before ∧ after = before := by
  constructor
  · intro given
    cases given
    exact ⟨rfl, rfl⟩
  · rintro ⟨rfl, rfl⟩
    rfl

@[simp] theorem gives_set {state : σ} {value : PUnit} :
    Gives (set state) before value after ↔ after = state := by
  constructor
  · intro given
    cases given
    rfl
  · rintro rfl
    rfl

@[simp] theorem gives_modify {change : σ → σ} {value : PUnit} :
    Gives (modify change) before value after ↔ after = change before := by
  constructor
  · intro given
    cases given
    rfl
  · rintro rfl
    rfl

/-- A step succeeds in at most one way. -/
theorem Gives.unique {value other : α} {after' : σ} (given : Gives step before value after)
    (again : Gives step before other after') :
    value = other ∧ after = after' := by
  have same : (Except.ok value, after) = ((Except.ok other, after') : Except Fault α × σ) :=
    Eq.trans (Eq.symm given) again
  simpa using same

/-- A step that ends without a fault has succeeded. -/
theorem Gives.of_isOk (isOk : (step.run.run before : Except Fault α × σ).1.isOk = true) :
    ∃ value after, Gives step before value after := by
  rcases ran : (step.run.run before : Except Fault α × σ) with ⟨fault | value, after⟩
  · rw [ran] at isOk
    cases isOk
  · exact ⟨value, after, ran⟩

end Success

section Stops

variable {σ α β : Type} {before between after : σ}
  {next : α → ExceptT Fault (StateM σ) β} {first : ExceptT Fault (StateM σ) α}

/-- A step that starts in one state fails, and leaves another state behind. -/
def StopsAt (step : ExceptT Fault (StateM σ) α) (before : σ) (fault : Fault) (after : σ) : Prop :=
  (step.run.run before : Except Fault α × σ) = (.error fault, after)

theorem StopsAt.bind (stops : StopsAt first before fault after) :
    StopsAt (first >>= next) before fault after := by
  simp only [StopsAt, ExceptT.run, StateT.run, Bind.bind, ExceptT.bind, ExceptT.mk, StateT.bind] at stops ⊢
  rw [stops]
  rfl

theorem run_bind_of_gives {value : α} (gives : Gives first before value between) :
    ((first >>= next).run.run before : Except Fault β × σ) = (next value).run.run between := by
  simp only [Gives, ExceptT.run, StateT.run, Bind.bind, ExceptT.bind, ExceptT.mk, StateT.bind] at gives ⊢
  rw [gives]
  rfl

theorem Gives.stops {value : α} (gives : Gives first before value between)
    (stops : StopsAt (next value) between fault after) :
    StopsAt (first >>= next) before fault after :=
  (run_bind_of_gives gives).trans stops

end Stops

namespace Draft

/-- The name that a base gets. -/
def named (draft : Draft) (base : String) : String :=
  (draft.function.scope.take base).1

/-- The draft behind a name that was taken. -/
def take (draft : Draft) (base : String) : Draft :=
  { draft with function := { draft.function with scope := (draft.function.scope.take base).2 } }

/-- The draft behind an instruction. -/
def write (draft : Draft) (base : String) (operation : Operation) : Draft :=
  (draft.take base).modifyBlock (.push ⟨draft.named base, operation⟩)

/-- The draft with its block ended. -/
def finish (draft : Draft) (exit : Exit) : Draft :=
  (draft.take "").modifyBlock fun block => { block with exit := some exit }

/-- The draft with one more block. -/
def grow (draft : Draft) (base : String) : Draft :=
  { draft with function :=
      { draft.function with
        scope := (draft.function.scope.take base).2
        blocks := draft.function.blocks ++ [{ label := draft.named base }] } }

/-- The block that growing adds. -/
def grown (draft : Draft) (base : String) : BlockRef :=
  ⟨draft.function.blocks.length, draft.named base⟩

/-- The draft at another block. -/
def goTo (draft : Draft) (block : BlockRef) : Draft :=
  { draft with current := block.position }

/-- The label of the block that is being written. -/
def label (draft : Draft) : String :=
  (draft.block?.map (·.label)).getD ""

/-- The name that the next string constant gets. -/
def constant (draft : Draft) : String :=
  (constantName draft.session.counters ".str").1

/-- The draft behind a string constant. -/
def keep (draft : Draft) (text : String) : Draft :=
  { draft with
    session :=
      { draft.session with counters := (constantName draft.session.counters ".str").2 }
    strings := draft.strings ++ [.string draft.constant (constantBytes text)] }

/-- The function that programs know by a name. -/
def callee? (draft : Draft) (name : String) : Option Global :=
  draft.globals.find? (·.name == functionName name)

@[simp] theorem isEnded_take (draft : Draft) (base : String) :
    (draft.take base).isEnded = draft.isEnded :=
  rfl

end Draft

section Emit

variable {before after : Draft}

@[simp] theorem gives_takeName :
    Gives (Emit.takeName base) before name after ↔
      name = before.named base ∧ after = before.take base := by
  simp [Emit.takeName, Draft.named, Draft.take, and_assoc, and_comm]

@[simp] theorem gives_instr {operation : Operation} :
    Gives (Emit.instr base operation) before value after ↔
      value = .register (before.named base) operation.type ∧ after = before.write base operation := by
  simp [Emit.instr, Draft.write, and_assoc, and_comm]

@[simp] theorem gives_exit {exit : Exit} :
    Gives (Emit.exit exit) before done after ↔
      before.isEnded = false ∧ after = before.finish exit := by
  simp [Emit.exit, Draft.finish, and_assoc]

@[simp] theorem gives_addBlock {block : BlockRef} :
    Gives (Emit.addBlock base) before block after ↔
      block = before.grown base ∧ after = before.grow base := by
  simp [Emit.addBlock, Draft.grow, Draft.grown, Draft.take, and_assoc, and_comm]

@[simp] theorem gives_enter {block : BlockRef} :
    Gives (Emit.enter block) before done after ↔ after = before.goTo block := by
  simp [Emit.enter, Draft.goTo]

@[simp] theorem gives_currentLabel {label : String} :
    Gives Emit.currentLabel before label after ↔ label = before.label ∧ after = before := by
  simp [Emit.currentLabel, Draft.label, and_assoc, and_comm]

@[simp] theorem gives_load {source : Value} :
    Gives (Emit.load source base) before value after ↔
      value = .register (before.named base) source.type.target ∧
        after = before.write base (.load source) := by
  simp [Emit.load]

/-- A value is stored only where values of its type have their place. -/
@[simp] theorem gives_store {target : Value} :
    Gives (Emit.store value target) before done after ↔
      target.type = .pointer value.type ∧ after = before.write "" (.store value target) := by
  rw [Emit.store]
  split
  · rename_i type pointed
    simp [pointed, eq_comm]
  · rename_i other
    simp only [gives_bind, gives_get, gives_throw, and_false, exists_false, false_iff, not_and]
    exact fun pointed => absurd pointed (other _)

@[simp] theorem gives_element {base : Value} {indices : List Value} :
    Gives (Emit.element base indices name) before value after ↔
      value = .register (before.named name) (base.type.elementAddress indices) ∧
        after = before.write name (.element base indices (base.type.elementAddress indices)) := by
  simp [Emit.element]

@[simp] theorem gives_cast {op : Cast} {operand : Value} {type : Ir.Ty} :
    Gives (Emit.cast op operand type name) before value after ↔
      if operand.type = type then value = operand ∧ after = before
      else value = .register (before.named name) type ∧
        after = before.write name (.cast op operand type) := by
  rw [Emit.cast]
  split <;> simp

@[simp] theorem gives_call {callee : Global} {arguments : List Value} :
    Gives (Emit.call callee arguments name) before value after ↔
      ∃ operation, checkCall callee arguments = .ok operation ∧
        value = .register (before.named name) operation.type ∧
        after = before.write name operation := by
  rw [Emit.call]
  cases checkCall callee arguments <;> simp

@[simp] theorem gives_addString {text : String} :
    Gives (Emit.addString text) before value after ↔
      (before.constant.isEmpty = false ∧ ∀ global ∈ before.globals, global.name ≠ before.constant) ∧
        value = .global before.constant (.pointer (.array (constantBytes text).length .i8)) ∧
        after = before.keep text := by
  simp [Emit.addString, Draft.keep, Draft.constant, Draft.globals, and_assoc, and_comm, or_imp,
    forall_and]

@[simp] theorem gives_check {α : Type} {result : Except Fault α} {value : α} :
    Gives (Emit.check result) before value after ↔ result = .ok value ∧ after = before := by
  cases result <;> simp [Emit.check, eq_comm]

@[simp] theorem gives_report {α : Type} {isVerbose : Bool} {diagnostic : Diagnostic} {pos : Pos}
    {value : α} : Gives (Emit.report isVerbose diagnostic pos) before value after ↔ False := by
  simp [Emit.report]

@[simp] theorem gives_global? {global : Option Global} :
    Gives (Emit.global? name) before global after ↔
      global = before.globals.find? (·.name == name) ∧ after = before := by
  simp [Emit.global?, and_assoc, and_comm]

end Emit

section Expressions

variable {before after : Draft} {isVerbose : Bool} {pos : Pos} {lhs rhs value : Value} {env : Env}

@[simp] theorem checkType_eq_ok {given expected : Ir.Ty} :
    checkType isVerbose given expected pos = .ok done ↔ given = expected := by
  rw [checkType]
  split <;> simp [*]

@[simp] theorem gives_lookupName {ident : Ident} :
    Gives (lookupName isVerbose env ident) before value after ↔
      env.lookup ident.text = some value ∧ after = before := by
  rw [lookupName]
  cases env.lookup ident.text <;> simp [eq_comm]

@[simp] theorem gives_findCallee {count : Nat} {function : Ir.Function} :
    Gives (findCallee isVerbose pos name count) before function after ↔
      before.callee? name = some (.function function) ∧ count = function.params.length ∧
        after = before := by
  simp only [findCallee, gives_bind, gives_global?]
  constructor
  · rintro ⟨_, _, ⟨rfl, rfl⟩, found⟩
    split at found
    · simp at found
    · simp at found
    · rename_i named located
      simp only [Emit.report, gives_guard, ne_eq, Decidable.not_not, gives_pure] at found
      obtain ⟨same, rfl, rfl⟩ := found
      exact ⟨located, same, rfl⟩
  · rintro ⟨located, same, rfl⟩
    rw [Draft.callee?] at located
    exact ⟨_, _, ⟨rfl, rfl⟩, by simp [located, same]⟩

@[simp] theorem gives_lowerArith {type : Ir.Ty} {op : Arith} :
    Gives (lowerArith isVerbose pos type op name lhs rhs) before value after ↔
      lhs.type = type ∧ rhs.type = type ∧ value = .register (before.named name) type ∧
        after = before.write name (.arith op lhs rhs) := by
  simp only [lowerArith, gives_bind, gives_check, checkType_eq_ok, gives_instr]
  constructor
  · rintro ⟨_, _, ⟨rfl, rfl⟩, _, _, ⟨other, rfl⟩, rfl, rfl⟩
    exact ⟨rfl, other, rfl, rfl⟩
  · rintro ⟨rfl, other, rfl, rfl⟩
    exact ⟨(), _, ⟨rfl, rfl⟩, (), _, ⟨other, rfl⟩, rfl, rfl⟩

@[simp] theorem gives_lowerOrder {op : Comparison} :
    Gives (lowerOrder isVerbose pos op lhs rhs) before value after ↔
      lhs.type = .i64 ∧ rhs.type = .i64 ∧ value = .register (before.named ".cmptmp") .i1 ∧
        after = before.write ".cmptmp" (.compare op lhs rhs) := by
  simp [lowerOrder]

@[simp] theorem gives_lowerEquality {op : Comparison} :
    Gives (lowerEquality isVerbose pos op lhs rhs) before value after ↔
      lhs.type = rhs.type ∧ value = .register (before.named ".cmptmp") .i1 ∧
        after = before.write ".cmptmp" (.compare op lhs rhs) := by
  simp [lowerEquality, Emit.report]

/-- The instruction of an operator between scalars. -/
def BinOp.operation (op : BinOp) (lhs rhs : Value) : Operation :=
  match op with
  | .or => .arith .or lhs rhs
  | .and => .arith .and lhs rhs
  | .equals => .compare .eq lhs rhs
  | .revEquals => .compare .ne lhs rhs
  | .less => .compare .slt lhs rhs
  | .lessEqual => .compare .sle lhs rhs
  | .greater => .compare .sgt lhs rhs
  | .greaterEqual => .compare .sge lhs rhs
  | .add => .arith .add lhs rhs
  | .sub => .arith .sub lhs rhs
  | .mul => .arith .mul lhs rhs
  | .div => .arith .sdiv lhs rhs
  | .mod => .arith .srem lhs rhs

/-- The type of both operands of an operator that moves no pointer, where there is only one. -/
def BinOp.operandType? : BinOp → Option Ir.Ty
  | .or | .and => some .i1
  | .equals | .revEquals => none
  | _ => some .i64

/-- What an operator between two values gives, and what it leaves behind. -/
inductive BinOp.Operates (lhs rhs : Value) (before : Draft) : BinOp → Value → Draft → Prop where
  | plain {op base} (same : lhs.type = rhs.type) (suits : ∀ type ∈ op.operandType?, lhs.type = type) :
      Operates lhs rhs before op (.register (before.named base) (op.operation lhs rhs).type)
        (before.write base (op.operation lhs rhs))
  -- A pointer is moved by a number on either side.
  | forward (pointer : lhs.type.isPointer) (number : rhs.type = .i64) :
      Operates lhs rhs before .add (.register (before.named ".ptrarithtmp") lhs.type)
        (before.write ".ptrarithtmp" (.element lhs [rhs] lhs.type))
  | forwardBy (pointer : rhs.type.isPointer) (number : lhs.type = .i64) :
      Operates lhs rhs before .add (.register (before.named ".ptrarithtmp") rhs.type)
        (before.write ".ptrarithtmp" (.element rhs [lhs] rhs.type))
  /-- To move a pointer back, the number is negated first. -/
  | backward (pointer : lhs.type.isPointer) (number : rhs.type = .i64) :
      Operates lhs rhs before .sub
        (.register ((before.write ".negtemp" (.arith .sub (.int 64 0) rhs)).named ".ptrarithtmp")
          lhs.type)
        ((before.write ".negtemp" (.arith .sub (.int 64 0) rhs)).write ".ptrarithtmp"
          (.element lhs [.register (before.named ".negtemp") .i64] lhs.type))

theorem BinOp.operates_of_gives {op : BinOp}
    (lowered : Gives (lowerBinary isVerbose pos op lhs rhs) before value after) :
    op.Operates lhs rhs before value after := by
  cases op with
  | add =>
    rw [lowerBinary, lowerAdd] at lowered
    cases left : lhs.type.isPointer <;> cases right : rhs.type.isPointer <;>
      simp [left, right] at lowered
    · obtain ⟨number, other, rfl, rfl⟩ := lowered
      exact number ▸ .plain (number.trans other.symm) (by simp [operandType?, number])
    · obtain ⟨number, rfl, rfl⟩ := lowered
      exact .forwardBy right number
    · obtain ⟨number, rfl, rfl⟩ := lowered
      exact .forward left number
  | sub =>
    rw [lowerBinary, lowerSub] at lowered
    cases left : lhs.type.isPointer
    · simp [left] at lowered
      obtain ⟨number, other, rfl, rfl⟩ := lowered
      exact number ▸ .plain (number.trans other.symm) (by simp [operandType?, number])
    cases right : rhs.type.isPointer <;> simp [left, right] at lowered
    obtain ⟨number, rfl, rfl⟩ := lowered
    exact .backward left number
  | equals | revEquals =>
    simp only [lowerBinary, gives_lowerEquality] at lowered
    obtain ⟨same, rfl, rfl⟩ := lowered
    exact .plain same (by simp [operandType?])
  | less | lessEqual | greater | greaterEqual =>
    simp only [lowerBinary, gives_lowerOrder] at lowered
    obtain ⟨number, other, rfl, rfl⟩ := lowered
    exact .plain (number.trans other.symm) (by simp [operandType?, number])
  | or | and | mul | div | mod =>
    simp only [lowerBinary, gives_lowerArith] at lowered
    obtain ⟨left, right, rfl, rfl⟩ := lowered
    exact left ▸ .plain (left.trans right.symm) (by simp [operandType?, left])

/-- An argument is passed as it is, or as a pointer to anything where the callee takes one. -/
def Passes (casts : List Nat) (position : Nat) (operand : Value) (before : Draft)
    (value : Value) (after : Draft) : Prop :=
  if position ∈ casts ∧ operand.type ≠ .bytes then
    value = .register (before.named ".voidptrcast") .bytes ∧
      after = before.write ".voidptrcast" (.cast .bitcast operand .bytes)
  else value = operand ∧ after = before

/-- The arguments of a call are lowered one by one, each being passed before the next. -/
theorem gives_lowerArguments_cons {casts : List Nat} {position : Nat} {argument : Expr}
    {arguments : List Expr} {values : List Value} :
    Gives (lowerArguments isVerbose env casts position (argument :: arguments)) before values after ↔
      ∃ operand lowered passed between rest,
        Gives (lowerExpr isVerbose env argument) before operand lowered ∧
        Passes casts position operand lowered passed between ∧
        Gives (lowerArguments isVerbose env casts (position + 1) arguments) between rest after ∧
        values = passed :: rest := by
  -- Whether the position takes a pointer to anything decides how the argument is passed.
  by_cases isCast : position ∈ casts
  all_goals
    simp only [lowerArguments, gives_bind, gives_cast, gives_pure, Passes, List.contains_eq_mem, isCast,
      decide_true, decide_false, if_true, Bool.false_eq_true, if_false, true_and, false_and, ne_eq, ite_not]
    constructor
    · rintro ⟨operand, lowered, argumentLowered, value, between, passed, rest, _, restLowered, rfl, rfl⟩
      exact ⟨operand, lowered, value, between, rest, argumentLowered, passed, restLowered, rfl⟩
    · rintro ⟨operand, lowered, value, between, rest, argumentLowered, passed, restLowered, rfl⟩
      exact ⟨operand, lowered, argumentLowered, value, between, passed, rest, _, restLowered, rfl, rfl⟩

theorem gives_name {ident : Ident} :
    Gives (lowerExpr isVerbose env (.name pos ident)) before value after ↔
      ∃ address, env.lookup ident.text = some address ∧
        value = .register (before.named ident.text) address.type.target ∧
        after = before.write ident.text (.load address) := by
  simp [lowerExpr, and_assoc]

theorem gives_exec {ident : Ident} {arguments : List Expr} :
    Gives (lowerExpr isVerbose env (.exec pos ident arguments)) before value after ↔
      ∃ callee values between operation, before.callee? ident.text = some (.function callee) ∧
        arguments.length = callee.params.length ∧
        Gives (lowerArguments isVerbose env ((before.session.casts.lookup callee.name).getD []) 0
          arguments) before values between ∧
        checkCall (.function callee) values = .ok operation ∧
        value = .register (between.named ("call_" ++ callee.name)) operation.type ∧
        after = between.write ("call_" ++ callee.name) operation := by
  simp [lowerExpr, and_assoc]

theorem gives_rev {operand : Expr} :
    Gives (lowerExpr isVerbose env (.rev pos operand)) before value after ↔
      ∃ truth between, Gives (lowerExpr isVerbose env operand) before truth between ∧
        truth.type = .i1 ∧ value = .register (between.named ".revtmp") truth.type ∧
        after = between.write ".revtmp" (.arith .xor truth (.int 1 (-1))) := by
  simp [lowerExpr, and_assoc]

end Expressions

section Statements

variable {before after : Draft} {isVerbose : Bool} {env env' : Env} {pos : Pos}

theorem gives_lowerCondition {condition : Expr} {truth : Value} :
    Gives (lowerCondition isVerbose env condition) before truth after ↔
      Gives (lowerExpr isVerbose env condition) before truth after ∧ truth.type = .i1 := by
  simp only [lowerCondition, gives_bind, gives_check, checkType_eq_ok, gives_pure]
  constructor
  · rintro ⟨_, _, evaluated, _, _, ⟨typed, rfl⟩, rfl, rfl⟩
    exact ⟨evaluated, typed⟩
  · rintro ⟨evaluated, typed⟩
    exact ⟨_, _, evaluated, (), _, ⟨typed, rfl⟩, rfl, rfl⟩

/-- A declaration takes memory for a name that is not in scope yet. -/
theorem gives_declare {type : Ty} {ident : Ident} :
    Gives (lowerStmt isVerbose env (.declare pos type ident)) before env' after ↔
      ∃ lowered, env.lookup ident.text = none ∧ lowerType false type = .ok lowered ∧
        lowered ≠ .void ∧
        env' = (ident.text, .register (before.named ident.text) (.pointer lowered)) :: env ∧
        after = before.write ident.text (.alloca lowered) := by
  simp only [lowerStmt, Emit.report, gives_guard_bind, gives_bind, gives_check, gives_instr,
    gives_pure, Operation.type_alloca, Bool.not_eq_true, Option.isSome_eq_false_iff,
    Option.isNone_iff_eq_none]
  constructor
  · rintro ⟨absent, lowered, _, ⟨typed, rfl⟩, full, _, _, ⟨rfl, rfl⟩, rfl, rfl⟩
    exact ⟨lowered, absent, typed, full, rfl, rfl⟩
  · rintro ⟨lowered, absent, typed, full, rfl, rfl⟩
    exact ⟨absent, lowered, _, ⟨typed, rfl⟩, full, _, _, ⟨rfl, rfl⟩, rfl, rfl⟩

/-- An assignment evaluates the place, then the value. The first character of a string goes where
only a character has its place. -/
theorem gives_assign {target : Target} {value : Expr} :
    Gives (lowerStmt isVerbose env (.assign pos target value)) before env' after ↔
      env' = env ∧ ∃ address targeted operand evaluated,
        Gives (lowerTarget isVerbose env target) before address targeted ∧
        Gives (lowerExpr isVerbose env value) targeted operand evaluated ∧
        (address.type = .bytes ∧ operand.type = .bytes ∧
            after = (evaluated.write "" (.load operand)).write ""
              (.store (.register (evaluated.named "") .i8) address) ∨
          address.type = .pointer operand.type ∧
            after = evaluated.write "" (.store operand address)) := by
  simp only [lowerStmt, lowerAssign, gives_bind, gives_pure]
  constructor
  · rintro ⟨_, _, ⟨address, targeted, placed, operand, evaluated, valued, stored⟩, rfl, rfl⟩
    refine ⟨rfl, address, targeted, operand, evaluated, placed, valued, ?_⟩
    split at stored
    · rename_i both
      simp only [gives_bind, gives_load, gives_store, both.1, both.2] at stored
      obtain ⟨_, _, ⟨rfl, rfl⟩, _, rfl⟩ := stored
      exact .inl ⟨both.2, both.1, rfl⟩
    · exact .inr (by simpa using stored)
  · rintro ⟨rfl, address, targeted, operand, evaluated, placed, valued, stored⟩
    refine ⟨(), after, ⟨address, targeted, placed, operand, evaluated, valued, ?_⟩, rfl, rfl⟩
    obtain ⟨character, string, rfl⟩ | ⟨same, rfl⟩ := stored
    · rw [if_pos ⟨string, character⟩]
      simp [string, character]
    · have notBoth : ¬(operand.type = .bytes ∧ address.type = .bytes) := by
        rintro ⟨string, character⟩
        rw [string, character] at same
        cases same
      rw [if_neg notBoth]
      simp [same]

end Statements

end LeftHand
