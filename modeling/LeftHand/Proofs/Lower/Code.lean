import LeftHand.Proofs.Flow.Walk
import LeftHand.Proofs.Lower.Append

/-!
The shape of the code of each place, with every variable at the address that its name stands for.
-/

namespace LeftHand

open Ir

/-- Tells which addresses a name may stand for. -/
abbrev Resolution := String → Value → Prop

/-- A resolution that knows the variables in scope. -/
def Env.AgreesWith (env : Env) (resolves : Resolution) : Prop :=
  ∀ name address, env.lookup name = some address → resolves name address

/-- What an operator writes behind the code of its operands, and the value that it gives. -/
inductive BinOp.Coded (lhs rhs : Value) : BinOp → List Instr → Value → Prop where
  | plain {op register} :
      Coded lhs rhs op [⟨register, op.operation lhs rhs⟩]
        (.register register (op.operation lhs rhs).type)
  -- A pointer is moved by a number on either side.
  | forward {register} :
      Coded lhs rhs .add [⟨register, .element lhs [rhs] lhs.type⟩] (.register register lhs.type)
  | forwardBy {register} :
      Coded lhs rhs .add [⟨register, .element rhs [lhs] rhs.type⟩] (.register register rhs.type)
  /-- To move a pointer back, the number is negated first. -/
  | backward {negated register} :
      Coded lhs rhs .sub
        [⟨negated, .arith .sub (.int 64 0) rhs⟩,
          ⟨register, .element lhs [.register negated .i64] lhs.type⟩]
        (.register register lhs.type)

mutual

/-- The code of an expression and the value that it leaves, with variables where a resolution
tells. -/
inductive Coded (resolves : Resolution) : Expr → List Instr → Value → Prop where
  | decimal {pos value} : Coded resolves (.decimal pos value) [] (.int 64 value)
  | boolean {pos value} : Coded resolves (.boolean pos value) [] (.truth value)
  | string {pos text register constant type} :
      Coded resolves (.string pos text)
        [⟨register, .element (.global constant type) [.int 32 0, .int 32 0] .bytes⟩]
        (.register register .bytes)
  /-- A variable is read from its memory. -/
  | name {pos ident register address} (resolved : resolves ident.text address) :
      Coded resolves (.name pos ident) [⟨register, .load address⟩]
        (.register register address.type.target)
  | addressOf {pos ident address} (resolved : resolves ident.text address) :
      Coded resolves (.addressOf pos ident) [] address
  | deref {pos value code address register} (inner : Coded resolves value code address) :
      Coded resolves (.deref pos value) (code ++ [⟨register, .load address⟩])
        (.register register address.type.target)
  | exec {pos ident arguments code values register signature}
      (given : AllCoded resolves arguments code values) :
      Coded resolves (.exec pos ident arguments)
        (code ++ [⟨register, .call (functionName ident.text) signature values⟩])
        (.register register signature.result)
  | rev {pos value code truth register} (inner : Coded resolves value code truth) :
      Coded resolves (.rev pos value) (code ++ [⟨register, .arith .xor truth (.int 1 (-1))⟩])
        (.register register truth.type)
  | binary {pos op lhs rhs code more last left right value} (leftCoded : Coded resolves lhs code left)
      (rightCoded : Coded resolves rhs more right) (combined : op.Coded left right last value) :
      Coded resolves (.binary pos op lhs rhs) ((code ++ more) ++ last) value

/-- The code of arguments and the values that are passed. -/
inductive AllCoded (resolves : Resolution) : List Expr → List Instr → List Value → Prop where
  | nil : AllCoded resolves [] [] []
  | cons {argument arguments code more value values} (first : Coded resolves argument code value)
      (others : AllCoded resolves arguments more values) :
      AllCoded resolves (argument :: arguments) (code ++ more) (value :: values)
  /-- Where any pointer is taken, an argument is passed as a pointer to bytes. -/
  | cast {argument arguments code more value values register}
      (first : Coded resolves argument code value) (others : AllCoded resolves arguments more values) :
      AllCoded resolves (argument :: arguments)
        ((code ++ [⟨register, .cast .bitcast value .bytes⟩]) ++ more)
        (.register register .bytes :: values)

end

/-- The code that finds the address to which an assignment writes. -/
inductive Target.Coded (resolves : Resolution) : Target → List Instr → Value → Prop where
  | name {ident address} (resolved : resolves ident.text address) :
      Coded resolves (.name ident) [] address
  | deref {pos value code address} (inner : LeftHand.Coded resolves value code address) :
      Coded resolves (.deref pos value) code address

/-- The code of a statement that neither holds others nor returns. -/
inductive Stmt.Coded (resolves : Resolution) : Stmt → List Instr → Prop where
  | expr {pos value code given} (coded : LeftHand.Coded resolves value code given) :
      Coded resolves (.expr pos value) code
  | noOp {pos} : Coded resolves (.noOp pos) []
  /-- A declaration takes memory for values of its type. -/
  | declare {pos type ident lowered register} (typed : lowerType false type = .ok lowered) :
      Coded resolves (.declare pos type ident) [⟨register, .alloca lowered⟩]
  | assign {pos target value code more address given register}
      (placed : target.Coded resolves code address) (coded : LeftHand.Coded resolves value more given) :
      Coded resolves (.assign pos target value)
        ((code ++ more) ++ [⟨register, .store given address⟩])
  /-- Of a string, the first character is stored. -/
  | assignFirst {pos target value code more address given first register}
      (placed : target.Coded resolves code address) (coded : LeftHand.Coded resolves value more given) :
      Coded resolves (.assign pos target value)
        (((code ++ more) ++ [⟨first, .load given⟩]) ++
          [⟨register, .store (.register first .i8) address⟩])

/-- The code of a place. -/
inductive Visit.Coded (resolves : Resolution) : Visit → List Event → Prop where
  | plain {site stmt code} (coded : stmt.Coded resolves code) :
      Coded resolves (.stmt site stmt) (code.map .instr)
  | retVoid {site pos} : Coded resolves (.stmt site (.ret pos none)) [.ret none]
  | ret {site pos value code given} (coded : LeftHand.Coded resolves value code given) :
      Coded resolves (.stmt site (.ret pos (some value))) (code.map .instr ++ [.ret (some given)])
  | condition {site condition code truth} (coded : LeftHand.Coded resolves condition code truth) :
      Coded resolves (.condition site condition) (code.map .instr ++ [.test truth])
  | fallOff : Coded resolves .fallOff [.ret none]

section Expressions

variable {isVerbose : Bool} {env : Env} {resolves : Resolution} {before after : Draft}

theorem lowerBinary_coded {pos : Pos} {op : BinOp} {lhs rhs value : Value}
    (lowered : Gives (lowerBinary isVerbose pos op lhs rhs) before value after) :
    ∃ code, Appends before code after ∧ op.Coded lhs rhs code value := by
  cases BinOp.operates_of_gives lowered with
  | plain => exact ⟨_, .write .., .plain⟩
  | forward => exact ⟨_, .write .., .forward⟩
  | forwardBy => exact ⟨_, .write .., .forwardBy⟩
  | backward => exact ⟨_, (Appends.write ..).trans (.write ..), .backward⟩

theorem checkCall_function {function : Ir.Function} {values : List Value}
    {operation : Operation} (checked : checkCall (.function function) values = .ok operation) :
    operation = .call function.name function.signature values := by
  rw [checkCall] at checked
  split at checked
  · cases checked
  · cases checked
    rfl

mutual

/-- An expression is written as the rules for its code say, with variables where they are in
scope. -/
theorem lowerExpr_coded (agrees : env.AgreesWith resolves) {before after : Draft}
    {value : Value} : (expr : Expr) →
    Gives (lowerExpr isVerbose env expr) before value after →
      ∃ code, Appends before code after ∧ Coded resolves expr code value
  | .decimal _ _, lowered => by
    obtain ⟨rfl, rfl⟩ := gives_pure.mp lowered
    exact ⟨_, .refl _, .decimal⟩
  | .boolean _ _, lowered => by
    obtain ⟨rfl, rfl⟩ := gives_pure.mp lowered
    exact ⟨_, .refl _, .boolean⟩
  | .string _ text, lowered => by
    simp only [lowerExpr, Emit.firstByte, gives_bind, gives_addString, gives_element] at lowered
    obtain ⟨_, _, ⟨_, rfl, rfl⟩, rfl, rfl⟩ := lowered
    exact ⟨_, (Appends.keep ..).trans (.write ..), .string⟩
  | .name _ ident, lowered => by
    obtain ⟨_, found, rfl, rfl⟩ := gives_name.mp lowered
    exact ⟨_, .write .., .name (agrees _ _ found)⟩
  | .addressOf _ ident, lowered => by
    obtain ⟨found, rfl⟩ := gives_lookupName.mp lowered
    exact ⟨_, .refl _, .addressOf (agrees _ _ found)⟩
  | .deref pos operand, lowered => by
    simp only [lowerExpr, Emit.report, gives_bind, gives_allowed, gives_load] at lowered
    obtain ⟨_, _, operandLowered, _, rfl, rfl⟩ := lowered
    obtain ⟨code, appended, coded⟩ := lowerExpr_coded agrees operand operandLowered
    exact ⟨_, appended.trans (.write ..), .deref coded⟩
  | .exec pos ident arguments, lowered => by
    obtain ⟨function, _, _, _, found, _, argumentsLowered, checked, rfl, rfl⟩ :=
      gives_exec.mp lowered
    obtain ⟨code, appended, coded⟩ := lowerArguments_coded agrees arguments argumentsLowered
    obtain rfl := checkCall_function checked
    -- The function was found under the name that the call has.
    have named : function.name = functionName ident.text := by simpa using List.find?_some found
    exact ⟨_, appended.trans (.write ..), named ▸ .exec coded⟩
  | .rev pos operand, lowered => by
    obtain ⟨_, _, operandLowered, _, rfl, rfl⟩ := gives_rev.mp lowered
    obtain ⟨code, appended, coded⟩ := lowerExpr_coded agrees operand operandLowered
    exact ⟨_, appended.trans (.write ..), .rev coded⟩
  | .binary pos op lhs rhs, lowered => by
    simp only [lowerExpr, gives_bind] at lowered
    obtain ⟨_, _, leftLowered, _, _, rightLowered, combined⟩ := lowered
    obtain ⟨left, leftAppended, leftCoded⟩ := lowerExpr_coded agrees lhs leftLowered
    obtain ⟨right, rightAppended, rightCoded⟩ := lowerExpr_coded agrees rhs rightLowered
    obtain ⟨last, lastAppended, lastCoded⟩ := lowerBinary_coded combined
    exact ⟨_, (leftAppended.trans rightAppended).trans lastAppended,
      .binary leftCoded rightCoded lastCoded⟩
  | .unknown node, lowered => by
    simp only [lowerExpr, gives_report] at lowered

theorem lowerArguments_coded (agrees : env.AgreesWith resolves) {before after : Draft}
    {casts : List Nat} {position : Nat} {values : List Value} : (arguments : List Expr) →
    Gives (lowerArguments isVerbose env casts position arguments) before values after →
      ∃ code, Appends before code after ∧ AllCoded resolves arguments code values
  | [], lowered => by
    obtain ⟨rfl, rfl⟩ := gives_pure.mp lowered
    exact ⟨_, .refl _, .nil⟩
  | argument :: arguments, lowered => by
    rw [gives_lowerArguments_cons] at lowered
    obtain ⟨_, _, _, _, _, argumentLowered, passed, restLowered, rfl⟩ := lowered
    obtain ⟨code, appended, coded⟩ := lowerExpr_coded agrees argument argumentLowered
    obtain ⟨more, restAppended, restCoded⟩ := lowerArguments_coded agrees arguments restLowered
    rw [Passes] at passed
    split at passed
    · obtain ⟨rfl, rfl⟩ := passed
      exact ⟨_, (appended.trans (.write ..)).trans restAppended, .cast coded restCoded⟩
    · obtain ⟨rfl, rfl⟩ := passed
      exact ⟨_, appended.trans restAppended, .cons coded restCoded⟩

end

theorem lowerTarget_coded (agrees : env.AgreesWith resolves) {target : Target} {address : Value}
    (placed : Gives (lowerTarget isVerbose env target) before address after) :
    ∃ code, Appends before code after ∧ target.Coded resolves code address := by
  cases target with
  | name ident =>
    obtain ⟨found, rfl⟩ := gives_lookupName.mp placed
    exact ⟨_, .refl _, .name (agrees _ _ found)⟩
  | deref pos value =>
    obtain ⟨code, appended, coded⟩ := lowerExpr_coded agrees value placed
    exact ⟨code, appended, .deref coded⟩
  | unknown node => simp [lowerTarget] at placed

theorem plain_coded (agrees : env.AgreesWith resolves) {stmt : Stmt} {env' : Env}
    (isPlain : stmt.isPlain = true)
    (written : Gives (lowerStmt isVerbose env stmt) before env' after) :
    ∃ code, Appends before code after ∧ stmt.Coded resolves code := by
  cases stmt with
  | expr pos value =>
    simp only [lowerStmt, gives_bind, gives_pure] at written
    obtain ⟨_, _, evaluated, _, rfl⟩ := written
    obtain ⟨code, appended, coded⟩ := lowerExpr_coded agrees value evaluated
    exact ⟨code, appended, .expr coded⟩
  | noOp pos =>
    obtain ⟨_, rfl⟩ := gives_pure.mp written
    exact ⟨_, .refl _, .noOp⟩
  | declare pos type ident =>
    obtain ⟨_, _, typed, _, _, rfl⟩ := gives_declare.mp written
    exact ⟨_, .write .., .declare typed⟩
  | assign pos target value =>
    obtain ⟨_, _, _, _, _, placed, valued, stored⟩ := gives_assign.mp written
    obtain ⟨first, placeAppended, placeCoded⟩ := lowerTarget_coded agrees placed
    obtain ⟨second, valueAppended, valueCoded⟩ := lowerExpr_coded agrees value valued
    have both := placeAppended.trans valueAppended
    -- Of a string that is assigned to a character, the first character is loaded in between.
    obtain ⟨_, _, rfl⟩ | ⟨_, rfl⟩ := stored
    · exact ⟨_, (both.trans (.write ..)).trans (.write ..), .assignFirst placeCoded valueCoded⟩
    · exact ⟨_, both.trans (.write ..), .assign placeCoded valueCoded⟩
  | ret | branch | loop | unknown => cases isPlain

end Expressions

section Appending

variable {isVerbose : Bool} {env : Env} {before after : Draft}

/-- What names stand for does not matter to where code is put. -/
theorem Env.agreesWith_any (env : Env) : env.AgreesWith fun _ _ => True :=
  fun _ _ _ => trivial

theorem lowerExpr_appends {value : Value} (expr : Expr)
    (lowered : Gives (lowerExpr isVerbose env expr) before value after) :
    ∃ code, Appends before code after := by
  obtain ⟨code, appended, _⟩ := lowerExpr_coded env.agreesWith_any expr lowered
  exact ⟨code, appended⟩

theorem lowerCondition_appends {condition : Expr} {truth : Value}
    (evaluated : Gives (lowerCondition isVerbose env condition) before truth after) :
    ∃ code, Appends before code after :=
  lowerExpr_appends condition (gives_lowerCondition.mp evaluated).1

theorem plain_appends {stmt : Stmt} {env' : Env} (isPlain : stmt.isPlain = true)
    (written : Gives (lowerStmt isVerbose env stmt) before env' after) :
    ∃ code, Appends before code after := by
  obtain ⟨code, appended, _⟩ := plain_coded env.agreesWith_any isPlain written
  exact ⟨code, appended⟩

end Appending

end LeftHand
