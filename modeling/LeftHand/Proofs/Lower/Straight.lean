import LeftHand.Proofs.Ir.Typed
import LeftHand.Proofs.Lower.Chart
import LeftHand.Proofs.Typing.Expr

/-!
Straight code: expressions and plain statements write typed instructions into one block, each on
values that are known there, and leave behind a value that is known as well.
-/

namespace LeftHand

open Ir List

variable {address value lhs rhs : Value}

/-- The address of memory that an instruction of the function takes. -/
def Ir.Function.Allocates (function : Ir.Function) (address : Value) : Prop :=
  ∃ name type, address = .register name (.pointer type) ∧
    ∃ block ∈ function.blocks, ⟨name, .alloca type⟩ ∈ block.code

/-- Memory that has been taken stays taken. -/
theorem Ir.Function.Allocates.grows {before after : Draft}
    (allocates : before.function.Allocates address) (grown : before.Grows after) :
    after.function.Allocates address := by
  obtain ⟨name, type, rfl, block, member, written⟩ := allocates
  obtain ⟨i, located⟩ := getElem?_of_mem member
  -- The block is still there, with more code at most.
  obtain ⟨next, found, goesOn⟩ := grown.blocks i block located
  exact ⟨name, type, rfl, next, mem_of_getElem? found, goesOn.code.subset written⟩

/-- Every variable in scope has memory of its own, whose address is in sight. -/
def Env.Held (env : Env) (chart : Chart) : Prop :=
  ∀ name address, env.lookup name = some address →
    address ∈ chart.sight ∧ chart.draft.function.Allocates address

theorem Env.Held.mono {env : Env} {before after : Chart} (held : env.Held before)
    (sight : before.sight ⊆ after.sight) (grown : before.draft.Grows after.draft) :
    env.Held after := by
  intro name address found
  obtain ⟨inSight, allocates⟩ := held name address found
  exact ⟨sight inSight, allocates.grows grown⟩

/-- An open draft in which variables can be used and declared functions called. -/
structure Draft.Hosts (draft : Draft) (declares : String → Signature → Prop) (known : Known)
    (env : Env) : Prop where
  isOpen : draft.IsOpen
  calls : draft.Calls declares
  held : env.Held ⟨draft, known⟩

/-- Straight code that computes a value. -/
structure Yields (rule : Operation → Prop) (ends : Exit → Prop) (known : Known)
    (before : Draft) (value : Value) (after : Draft) : Prop where
  straight : Straight rule ends known before after
  usable : value.UsableIn (Chart.sight ⟨after, known⟩)

section Straight

variable {declares : String → Signature → Prop} {ends : Exit → Prop} {known : Known} {env : Env}
  {before between after : Draft} {isVerbose : Bool} {rule : Operation → Prop}

theorem Draft.Hosts.straight (hosts : before.Hosts declares known env)
    (straight : Straight rule ends known before after) : after.Hosts declares known env where
  isOpen := straight.isOpen hosts.isOpen
  calls := straight.steps.calls hosts.calls
  held := hosts.held.mono straight.sight_subset straight.steps.grows

theorem Ir.Value.usableIn_of_isRegister (constant : value.isRegister = false)
    (known : List Value) : value.UsableIn known := by
  intro isRegister
  rw [constant] at isRegister
  cases isRegister

theorem Ir.Value.usableIn_of_mem {known : List Value} (member : value ∈ known) :
    value.UsableIn known :=
  fun _ => member

theorem Yields.write {base : String} {operation : Operation} (isOpen : before.IsOpen)
    (uses : ∀ operand ∈ operation.operands, operand.UsableIn (Chart.sight ⟨before, known⟩))
    (allowed : rule operation) (result : value = .register (before.named base) operation.type) :
    Yields rule ends known before value (before.write base operation) where
  straight := .write isOpen uses allowed
  usable _ := result ▸ isOpen.mem_sight_write known base operation

/-- What comes before computing a value is part of computing it. -/
theorem Straight.yields {value : Value} (straight : Straight rule ends known before between)
    (yields : Yields rule ends known between value after) :
    Yields rule ends known before value after where
  straight := straight.trans yields.straight
  usable := yields.usable

theorem arithTyped {op : Arith} {type : Ir.Ty} (suits : op.operandType? = some type)
    (left : lhs.type = type) (right : rhs.type = type) :
    (Operation.arith op lhs rhs).Typed declares :=
  ⟨suits.trans (congrArg some left.symm), suits.trans (congrArg some right.symm)⟩

theorem BinOp.typed_operation {op : BinOp} (same : lhs.type = rhs.type)
    (suits : ∀ type ∈ op.operandType?, lhs.type = type) :
    (op.operation lhs rhs).Typed declares := by
  cases op with
  -- Values of one type can be compared, whichever it is.
  | equals | revEquals => exact ⟨same, by simp [Comparison.isOrder]⟩
  -- An order is asked of numbers only.
  | less | lessEqual | greater | greaterEqual =>
    exact ⟨same, fun _ => ⟨suits _ rfl, same ▸ suits _ rfl⟩⟩
  | or | and | add | sub | mul | div | mod =>
    exact arithTyped rfl (suits _ rfl) (same ▸ suits _ rfl)

theorem lowerBinary_straight {pos : Pos} {op : BinOp} (isOpen : before.IsOpen)
    (left : lhs.UsableIn (Chart.sight ⟨before, known⟩))
    (right : rhs.UsableIn (Chart.sight ⟨before, known⟩))
    (lowered : Gives (lowerBinary isVerbose pos op lhs rhs) before value after) :
    Yields (Operation.Typed declares) ends known before value after := by
  -- Pointers may stand on either side, and come first in the instruction.
  have both : ∀ value ∈ [lhs, rhs], value.UsableIn (Chart.sight ⟨before, known⟩) := by
    simpa using ⟨left, right⟩
  have swapped : ∀ value ∈ [rhs, lhs], value.UsableIn (Chart.sight ⟨before, known⟩) := by
    simpa using ⟨right, left⟩
  cases BinOp.operates_of_gives lowered with
  | plain same suits =>
    exact .write isOpen (by cases op <;> exact both) (op.typed_operation same suits) rfl
  | forward pointer number => exact .write isOpen both (.inr ⟨pointer, ⟨_, rfl, number⟩, rfl⟩) rfl
  | forwardBy pointer number =>
    exact .write isOpen swapped (.inr ⟨pointer, ⟨_, rfl, number⟩, rfl⟩) rfl
  | backward pointer number =>
    -- The number is negated first, and then known like any other result.
    have negates : Yields (Operation.Typed declares) ends known before
        (.register (before.named ".negtemp") .i64)
        (before.write ".negtemp" (.arith .sub (.int 64 0) rhs)) :=
      .write isOpen
        (by simpa [Operation.operands] using ⟨Value.usableIn_of_isRegister rfl _, right⟩)
        (arithTyped rfl rfl number) rfl
    refine negates.straight.yields (.write (negates.straight.isOpen isOpen) ?_ ?_ rfl)
    · simpa [Operation.operands] using
        ⟨left.mono negates.straight.sight_subset, negates.usable⟩
    · exact .inr ⟨pointer, ⟨_, rfl, rfl⟩, rfl⟩

theorem Passes.yields {casts : List Nat} {position : Nat} {operand : Value}
    (isOpen : before.IsOpen) (usable : operand.UsableIn (Chart.sight ⟨before, known⟩))
    (passed : Passes casts position operand before value after) :
    Yields (Operation.Typed declares) ends known before value after := by
  rw [Passes] at passed
  -- The value is cast to a pointer to bytes, or passed as it is.
  split at passed
  · obtain ⟨rfl, rfl⟩ := passed
    exact .write isOpen (by simpa [Operation.operands] using usable) ⟨rfl, rfl⟩ rfl
  · obtain ⟨rfl, rfl⟩ := passed
    exact ⟨.refl _, usable⟩

mutual

/-- Lowering an expression writes typed instructions, and computes its value. -/
theorem lowerExpr_straight {before after : Draft} {value : Value} : (expr : Expr) →
    before.Hosts declares known env → Gives (lowerExpr isVerbose env expr) before value after →
      Yields (Operation.Typed declares) ends known before value after
  | .decimal _ _, hosts, lowered | .boolean _ _, hosts, lowered => by
    obtain ⟨rfl, rfl⟩ := gives_pure.mp lowered
    exact ⟨.refl _, Value.usableIn_of_isRegister rfl _⟩
  | .string _ text, hosts, lowered => by
    simp only [lowerExpr, Emit.firstByte, gives_bind, gives_addString, gives_element] at lowered
    obtain ⟨_, _, ⟨_, rfl, rfl⟩, rfl, rfl⟩ := lowered
    have kept : Straight (Operation.Typed declares) ends known before (before.keep text) :=
      .keep before text
    refine kept.yields
      (.write (kept.isOpen hosts.isOpen) ?_ (.inl ⟨⟨_, _, rfl⟩, rfl, rfl⟩) rfl)
    -- The constant and both indices are no registers.
    simp [Operation.operands, Value.UsableIn, Value.isRegister]
  | .name _ ident, hosts, lowered => by
    obtain ⟨address, found, rfl, rfl⟩ := gives_name.mp lowered
    -- The address of a variable is in sight, and what is loaded has the type that was taken.
    obtain ⟨inSight, name, type, rfl, _⟩ := hosts.held _ _ found
    refine .write hosts.isOpen ?_ rfl rfl
    simpa [Operation.operands] using Value.usableIn_of_mem inSight
  | .addressOf _ ident, hosts, lowered => by
    obtain ⟨found, rfl⟩ := gives_lookupName.mp lowered
    exact ⟨.refl _, Value.usableIn_of_mem (hosts.held _ _ found).1⟩
  | .deref pos operand, hosts, lowered => by
    simp only [lowerExpr, Emit.report, gives_bind, gives_allowed, gives_load] at lowered
    obtain ⟨address, _, operandLowered, pointer, rfl, rfl⟩ := lowered
    have inner := lowerExpr_straight operand hosts operandLowered
    refine inner.straight.yields (.write (inner.straight.isOpen hosts.isOpen) ?_ ?_ ?_)
    · simpa [Operation.operands] using inner.usable
    · exact Ir.Ty.eq_pointer_target pointer
    · rfl
  | .exec pos ident arguments, hosts, lowered => by
    obtain ⟨function, values, _, operation, found, count, argumentsLowered, checked, rfl, rfl⟩ :=
      gives_exec.mp lowered
    obtain ⟨straight, usable, length⟩ :=
      lowerArguments_straight arguments hosts argumentsLowered
    obtain ⟨declared, params⟩ := hosts.calls function (mem_of_find?_eq_some found)
    -- The number of arguments has been checked, so all their types are.
    have total : values.length = function.signature.params.length := by
      rw [length, count, params]
    obtain ⟨types, rfl⟩ := (checkCall_eq_ok total).mp checked
    exact straight.yields
      (.write (straight.isOpen hosts.isOpen) usable ⟨declared, types⟩ rfl)
  | .rev pos operand, hosts, lowered => by
    obtain ⟨truth, _, operandLowered, isTruth, rfl, rfl⟩ := gives_rev.mp lowered
    have inner := lowerExpr_straight operand hosts operandLowered
    refine inner.straight.yields (.write (inner.straight.isOpen hosts.isOpen) ?_ ?_ ?_)
    · simpa [Operation.operands] using ⟨inner.usable, Value.usableIn_of_isRegister rfl _⟩
    · exact arithTyped rfl isTruth rfl
    · rfl
  | .binary pos op lhs rhs, hosts, lowered => by
    simp only [lowerExpr, gives_bind] at lowered
    obtain ⟨_, _, leftLowered, _, _, rightLowered, combined⟩ := lowered
    have left := lowerExpr_straight lhs hosts leftLowered
    have hosts := hosts.straight left.straight
    have right := lowerExpr_straight rhs hosts rightLowered
    -- The left value stays in sight while the right one is computed.
    have leftUsable := left.usable.mono right.straight.sight_subset
    exact left.straight.yields (right.straight.yields
      (lowerBinary_straight (right.straight.isOpen hosts.isOpen) leftUsable right.usable combined))
  | .unknown node, _, lowered => by
    simp only [lowerExpr, gives_report] at lowered

theorem lowerArguments_straight {before after : Draft} {casts : List Nat} {position : Nat}
    {values : List Value} : (arguments : List Expr) → before.Hosts declares known env →
    Gives (lowerArguments isVerbose env casts position arguments) before values after →
      Straight (Operation.Typed declares) ends known before after ∧
        (∀ value ∈ values, value.UsableIn (Chart.sight ⟨after, known⟩)) ∧
        values.length = arguments.length
  | [], hosts, lowered => by
    obtain ⟨rfl, rfl⟩ := gives_pure.mp lowered
    exact ⟨.refl _, by simp, rfl⟩
  | argument :: arguments, hosts, lowered => by
    rw [gives_lowerArguments_cons] at lowered
    obtain ⟨_, _, passed, _, rest, argumentLowered, passes, restLowered, rfl⟩ := lowered
    have first := lowerExpr_straight argument hosts argumentLowered
    have cast : Yields (Operation.Typed declares) ends known _ _ _ :=
      passes.yields (first.straight.isOpen hosts.isOpen) first.usable
    have both := first.straight.trans cast.straight
    obtain ⟨straight, usable, length⟩ :=
      lowerArguments_straight arguments (hosts.straight both) restLowered
    refine ⟨both.trans straight, fun value member => ?_, by simp [length]⟩
    -- The first value stays in sight while the others are computed.
    rcases mem_cons.mp member with rfl | later
    · exact cast.usable.mono straight.sight_subset
    · exact usable value later

end

theorem lowerTarget_straight {target : Target} (hosts : before.Hosts declares known env)
    (placed : Gives (lowerTarget isVerbose env target) before address after) :
    Yields (Operation.Typed declares) ends known before address after := by
  cases target with
  | name ident =>
    obtain ⟨found, rfl⟩ := gives_lookupName.mp placed
    exact ⟨.refl _, Value.usableIn_of_mem (hosts.held _ _ found).1⟩
  | deref pos value => exact lowerExpr_straight value hosts placed
  | unknown node => simp [lowerTarget] at placed

theorem Straight.store (isOpen : before.IsOpen)
    (valueUsable : value.UsableIn (Chart.sight ⟨before, known⟩))
    (addressUsable : address.UsableIn (Chart.sight ⟨before, known⟩))
    (typed : address.type = .pointer value.type) :
    Straight (Operation.Typed declares) ends known before
      (before.write "" (.store value address)) :=
  .write isOpen (by simpa [Operation.operands] using ⟨valueUsable, addressUsable⟩) typed

theorem Draft.Hosts.declare (hosts : before.Hosts declares known env) (base name : String)
    (type : Ir.Ty) :
    (before.write base (.alloca type)).Hosts declares known
      ((name, .register (before.named base) (.pointer type)) :: env) := by
  have taken : Yields (Operation.Typed declares) (fun _ => True) known before
      (.register (before.named base) (.pointer type)) (before.write base (.alloca type)) :=
    .write hosts.isOpen (by simp [Operation.operands]) trivial rfl
  have later := hosts.straight taken.straight
  refine ⟨later.isOpen, later.calls, fun found address known => ?_⟩
  rw [lookup_cons] at known
  split at known
  · -- The variable is the new one, and its memory has just been taken.
    obtain rfl := Option.some.inj known
    refine ⟨taken.usable rfl, _, type, rfl, ?_⟩
    obtain ⟨block, located⟩ : ∃ block, before.function.blocks[before.current]? = some block :=
      ⟨_, getElem?_eq_getElem hosts.isOpen.inside⟩
    have changed : (before.write base (.alloca type)).function.blocks[before.current]? =
        some { block with code := block.code ++ [⟨before.named base, .alloca type⟩] } := by
      simp [Draft.write, Draft.modifyBlock, Draft.take, located,
        Ir.Block.push_of_open (Draft.exit_eq_none hosts.isOpen.going located)]
    exact ⟨_, mem_of_getElem? changed, by simp⟩
  · exact later.held found address known

/-- A plain statement writes typed instructions, and a declaration among them takes memory. -/
theorem plain_straight {stmt : Stmt} {env' : Env} (isPlain : stmt.isPlain = true)
    (hosts : before.Hosts declares known env)
    (written : Gives (lowerStmt isVerbose env stmt) before env' after) :
    Straight (Operation.Typed declares) ends known before after ∧
      after.Hosts declares known env' := by
  cases stmt with
  | expr pos value =>
    simp only [lowerStmt, gives_bind, gives_pure] at written
    obtain ⟨_, _, evaluated, rfl, rfl⟩ := written
    have yields : Yields (Operation.Typed declares) ends known _ _ _ :=
      lowerExpr_straight value hosts evaluated
    exact ⟨yields.straight, hosts.straight yields.straight⟩
  | noOp pos =>
    obtain ⟨rfl, rfl⟩ := gives_pure.mp written
    exact ⟨.refl _, hosts⟩
  | declare pos type ident =>
    obtain ⟨lowered, _, _, _, rfl, rfl⟩ := gives_declare.mp written
    exact ⟨.write hosts.isOpen (by simp [Operation.operands]) trivial, hosts.declare ..⟩
  | assign pos target value =>
    obtain ⟨rfl, address, _, operand, evaluated, placed, valued, stored⟩ := gives_assign.mp written
    have place : Yields (Operation.Typed declares) ends known _ _ _ :=
      lowerTarget_straight hosts placed
    have yields : Yields (Operation.Typed declares) ends known _ _ _ :=
      lowerExpr_straight value (hosts.straight place.straight) valued
    have both := place.straight.trans yields.straight
    have isOpen := both.isOpen hosts.isOpen
    -- The address stays in sight while the value is computed.
    have addressUsable := place.usable.mono yields.straight.sight_subset
    have whole : Straight (Operation.Typed declares) ends known before after := by
      obtain ⟨character, string, rfl⟩ | ⟨same, rfl⟩ := stored
      · -- The first character is loaded, and stored where the string would not fit.
        have first : Yields (Operation.Typed declares) ends known evaluated
            (.register (evaluated.named "") .i8) (evaluated.write "" (.load operand)) := by
          exact .write isOpen (by simpa [Operation.operands] using yields.usable)
            (by simp [Operation.Typed, string]) (by simp [string])
        exact (both.trans first.straight).trans (.store (first.straight.isOpen isOpen) first.usable
          (addressUsable.mono first.straight.sight_subset) character)
      · exact both.trans (.store isOpen yields.usable addressUsable same)
    exact ⟨whole, hosts.straight whole⟩
  | ret | branch | loop | unknown => cases isPlain

theorem lowerParams_straight {params : List (String × Value)} {env' : Env}
    (hosts : before.Hosts declares known env)
    (usable : ∀ param ∈ params, param.2.UsableIn (Chart.sight ⟨before, known⟩))
    (lowered : Gives (lowerParams params env) before env' after) :
    Straight (Operation.Typed declares) ends known before after ∧
      after.Hosts declares known env' := by
  induction params generalizing env before with
  | nil =>
    obtain ⟨rfl, rfl⟩ := gives_pure.mp lowered
    exact ⟨.refl _, hosts⟩
  | cons param params ih =>
    obtain ⟨name, value⟩ := param
    obtain ⟨_, lowered⟩ := gives_lowerParams_cons.mp lowered
    -- Memory is taken first, then the value is stored there.
    have taken : Yields (Operation.Typed declares) ends known before
        (.register (before.named name) (.pointer value.type))
        (before.write name (.alloca value.type)) :=
      .write hosts.isOpen (by simp [Operation.operands]) trivial rfl
    have hosts := hosts.declare name name value.type
    have usableThen := (usable _ mem_cons_self).mono taken.straight.sight_subset
    have stored : Straight (Operation.Typed declares) ends known _ _ :=
      .store hosts.isOpen usableThen taken.usable rfl
    have both := taken.straight.trans stored
    obtain ⟨straight, hosts⟩ := ih (hosts.straight stored)
      (fun later member => (usable later (mem_cons_of_mem _ member)).mono both.sight_subset)
      lowered
    exact ⟨both.trans straight, hosts⟩

end Straight

end LeftHand
