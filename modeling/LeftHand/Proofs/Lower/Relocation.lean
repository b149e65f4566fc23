import LeftHand.Proofs.Lower.Function

/-!
Relocation: whether code can be written does not depend on the block that it is written into.
-/

namespace LeftHand

open Ir List

variable {name base : String} {fault : Fault} {before tested other : Draft}
  {waiting awaiting : List BlockRef}

/-- Drafts of the same function in the same module, with other code. -/
structure Draft.Alike (draft other : Draft) : Prop where
  session : other.session = draft.session
  strings : other.strings = draft.strings
  name : other.function.name = draft.function.name
  signature : other.function.signature = draft.function.signature
  params : other.function.params = draft.function.params

namespace Draft.Alike

variable {draft other : Draft} (alike : draft.Alike other)

include alike

/-- Only blocks, the place of writing and the names that are taken may change. -/
theorem congr {draft' other' : Draft} (same : draft.Alike draft') (otherSame : other.Alike other') :
    draft'.Alike other' where
  session := by rw [otherSame.session, alike.session, same.session]
  strings := by rw [otherSame.strings, alike.strings, same.strings]
  name := by rw [otherSame.name, alike.name, same.name]
  signature := by rw [otherSame.signature, alike.signature, same.signature]
  params := by rw [otherSame.params, alike.params, same.params]

/-- The same functions can be called; the one that is being written may have other code. -/
theorem exists_callee {callee : Ir.Function}
    (found : draft.callee? name = some (.function callee)) :
    ∃ callee', other.callee? name = some (.function callee') ∧ callee'.name = callee.name ∧
      callee'.signature = callee.signature ∧ callee'.params = callee.params := by
  -- It is an earlier function, the one that is being written, or behind that.
  rw [callee?, globals, find?_append, Option.or_eq_some_iff] at found
  simp only [callee?, globals, alike.session, alike.strings, find?_append,
    Option.or_eq_some_iff]
  rcases found with earlier | ⟨missing, later⟩
  · exact ⟨callee, .inl earlier, rfl, rfl, rfl⟩
  · by_cases own : draft.function.name = functionName name
    · rw [find?_cons_of_pos (by simpa using own)] at later
      cases later
      refine ⟨other.function, .inr ⟨missing, ?_⟩, alike.name, alike.signature, alike.params⟩
      exact find?_cons_of_pos (by simpa using alike.name.trans own)
    · rw [find?_cons_of_neg (by simpa using own)] at later
      refine ⟨callee, .inr ⟨missing, ?_⟩, rfl, rfl, rfl⟩
      rw [find?_cons_of_neg (by simpa [alike.name] using own)]
      exact later

end Draft.Alike

section Moves

variable (draft : Draft)

theorem Draft.alike_fork (truth : Value) (hasElse : Bool) :
    draft.Alike (draft.fork truth hasElse) := by
  cases hasElse <;> exact ⟨rfl, rfl, rfl, rfl, rfl⟩

theorem Draft.alike_leave_goTo (join block : BlockRef) :
    draft.Alike ((draft.leave join).goTo block) := by
  rw [leave]
  split <;> exact ⟨rfl, rfl, rfl, rfl, rfl⟩

end Moves

/-- The names in scope, with the types of their addresses. -/
def Env.types (env : Env) : List (String × Ir.Ty) :=
  env.map fun entry => (entry.1, entry.2.type)

theorem Env.lookup_types (env : Env) (name : String) :
    env.types.lookup name = (env.lookup name).map Value.type := by
  induction env with
  | nil => rfl
  | cons entry env ih =>
    rw [types, map_cons, lookup_cons, lookup_cons]
    -- The entry is the one that is looked for, or it is passed over.
    by_cases same : name = entry.1
    · simp [same]
    · have other : (name == entry.1) = false := by simpa using same
      simpa [other, types] using ih

theorem Env.exists_lookup {env other : Env} (types : other.types = env.types) {address : Value}
    (found : env.lookup name = some address) :
    ∃ again, other.lookup name = some again ∧ again.type = address.type := by
  -- Looking up a name and taking the type can be done in either order.
  have sameTypes : (other.lookup name).map Value.type = some address.type := by
    rw [← lookup_types, types, lookup_types, found, Option.map_some]
  exact Option.map_eq_some_iff.mp sameTypes

/-- Values that only their code may tell apart. -/
def Ir.Value.SameType (value other : Value) : Prop :=
  other.type = value.type

/-- A step that succeeds wherever another one does in a draft like it, with a related value. -/
def Emit.Follows {α β : Type} (related : α → β → Prop) (step : Emit α) (other : Emit β) : Prop :=
  ∀ before before' value after, before.Alike before' → Gives step before value after →
    ∃ value' after', Gives other before' value' after' ∧ related value value' ∧ after.Alike after'

namespace Emit.Follows

variable {α β γ δ : Type} {related : α → β → Prop} {others : γ → δ → Prop} {next : α → Emit γ}

theorem pure {value : α} {other : β} (same : related value other) :
    Follows related (Pure.pure value) (Pure.pure other) := by
  intro before before' given after alike written
  obtain ⟨rfl, rfl⟩ := gives_pure.mp written
  exact ⟨other, before', gives_pure.mpr ⟨rfl, rfl⟩, same, alike⟩

theorem bind {first : Emit α} {other : Emit β} {nextOther : β → Emit δ}
    (firstFollows : Follows related first other)
    (nextFollows : ∀ value value', related value value' →
      Follows others (next value) (nextOther value')) :
    Follows others (first >>= next) (other >>= nextOther) := by
  intro before before' given after alike written
  obtain ⟨value, between, firstWritten, nextWritten⟩ := gives_bind.mp written
  obtain ⟨value', between', otherWritten, same, alike⟩ := firstFollows _ _ _ _ alike firstWritten
  obtain ⟨given', after', nextOtherWritten, rest⟩ :=
    nextFollows value value' same _ _ _ _ alike nextWritten
  exact ⟨given', after', gives_bind.mpr ⟨value', between', otherWritten, nextOtherWritten⟩, rest⟩

theorem fails {other : Emit β} : Follows related (throw fault) other := by
  intro before before' value after alike written
  exact (gives_throw.mp written).elim

theorem report {isVerbose : Bool} {diagnostic : Diagnostic} {pos : Pos} {other : Emit β} :
    Follows related (Emit.report isVerbose diagnostic pos) other :=
  .fails

theorem fails_bind {other : Emit δ} :
    Follows others (throw fault >>= next) other := by
  intro before before' value after alike written
  obtain ⟨_, _, never, _⟩ := gives_bind.mp written
  exact (gives_throw.mp never).elim

theorem check {result other : Except Fault α} (same : other = result) :
    Follows Eq (Emit.check result) (Emit.check other) := by
  intro before before' value after alike written
  obtain ⟨accepted, rfl⟩ := gives_check.mp written
  exact ⟨value, before', gives_check.mpr ⟨same.trans accepted, rfl⟩, rfl, alike⟩

theorem instr {operation other : Operation} (same : other.type = operation.type) :
    Follows Value.SameType (Emit.instr base operation) (Emit.instr base other) := by
  intro before before' value after alike written
  obtain ⟨rfl, rfl⟩ := gives_instr.mp written
  refine ⟨_, _, gives_instr.mpr ⟨rfl, rfl⟩, same, ?_⟩
  exact ⟨alike.session, alike.strings, alike.name, alike.signature, alike.params⟩

theorem load {source other : Value} (same : source.SameType other) :
    Follows Value.SameType (Emit.load source base) (Emit.load other base) := by
  refine .instr ?_
  rw [Operation.type_load, Operation.type_load, same]

theorem cast {op : Cast} {operand operand' : Value} {type : Ir.Ty} {name : String}
    (same : operand.SameType operand') :
    Follows Value.SameType (Emit.cast op operand type name) (Emit.cast op operand' type name) := by
  rw [Emit.cast, Emit.cast, same]
  -- The type decides whether there is a cast at all.
  split
  · exact .pure same
  · exact .instr rfl

theorem store {value value' target target' : Value} (sameValue : value.SameType value')
    (sameTarget : target.SameType target') :
    Follows Eq (Emit.store value target) (Emit.store value' target') := by
  intro before before' done after alike written
  obtain ⟨pointed, rfl⟩ := gives_store.mp written
  refine ⟨(), _, gives_store.mpr ⟨?_, rfl⟩, rfl, ?_⟩
  · rw [sameTarget, sameValue, pointed]
  · exact ⟨alike.session, alike.strings, alike.name, alike.signature, alike.params⟩

theorem addString (text : String) : Follows Eq (Emit.addString text) (Emit.addString text) := by
  intro before before' value after alike written
  obtain ⟨⟨nonempty, free⟩, rfl, rfl⟩ := gives_addString.mp written
  -- Names are counted in the module, which both drafts share.
  have constant : before'.constant = before.constant := by
    rw [Draft.constant, Draft.constant, alike.session]
  refine ⟨_, _, gives_addString.mpr ⟨⟨constant ▸ nonempty, fun global member => ?_⟩, rfl, rfl⟩,
    by rw [constant], ?_⟩
  · rw [constant]
    rw [Draft.globals, alike.session, alike.strings] at member
    simp only [Draft.globals, mem_append, mem_cons] at member free
    rcases member with earlier | rfl | isString
    · exact free global (.inl earlier)
    · -- The function itself has the same name in both drafts.
      have own := free (.function before.function) (.inr (.inl rfl))
      rwa [Global.name_function, alike.name]
    · exact free global (.inr (.inr isString))
  · refine ⟨?_, ?_, alike.name, alike.signature, alike.params⟩
    · simp only [Draft.keep, alike.session]
    · simp only [Draft.keep, alike.strings, constant]

theorem get : Follows Draft.Alike MonadState.get MonadState.get := by
  intro before before' draft after alike written
  obtain ⟨rfl, rfl⟩ := gives_get.mp written
  exact ⟨before', before', gives_get.mpr ⟨rfl, rfl⟩, alike, alike⟩

/-- A call is checked against the types of its arguments alone. -/
theorem call {callee callee' : Ir.Function} {values values' : List Value}
    (sameName : callee'.name = callee.name) (sameSignature : callee'.signature = callee.signature)
    (sameTypes : values'.map Value.type = values.map Value.type) :
    Follows Value.SameType (Emit.call (.function callee) values name)
      (Emit.call (.function callee') values' name) := by
  rw [Emit.call, Emit.call, checkCall, checkCall, sameName, sameSignature, sameTypes]
  -- The check is the same one, so both calls pass it or neither does.
  split
  · rename_i checked
    split at checked
    · cases checked
    · cases checked
      exact .instr rfl
  · exact .fails

theorem findCallee (isVerbose : Bool) (pos : Pos) (name : String) (count : Nat) :
    Follows (fun callee callee' : Ir.Function => callee'.name = callee.name ∧
        callee'.signature = callee.signature)
      (LeftHand.findCallee isVerbose pos name count)
      (LeftHand.findCallee isVerbose pos name count) := by
  intro before before' callee after alike written
  obtain ⟨found, total, rfl⟩ := gives_findCallee.mp written
  obtain ⟨callee', foundToo, sameName, sameSignature, sameParams⟩ := alike.exists_callee found
  exact ⟨callee', before', gives_findCallee.mpr ⟨foundToo, sameParams ▸ total, rfl⟩,
    ⟨sameName, sameSignature⟩, alike⟩

end Emit.Follows

section Expressions

open Emit (Follows)
open Ir.Value (SameType)

variable {isVerbose : Bool} {pos : Pos} {lhs lhs' rhs rhs' : Value}

section Operators

variable (sameLeft : lhs.SameType lhs') (sameRight : rhs.SameType rhs')

include sameLeft sameRight

theorem lowerArith_follows (type : Ir.Ty) (op : Arith) (name : String) :
    Follows SameType (lowerArith isVerbose pos type op name lhs rhs)
      (lowerArith isVerbose pos type op name lhs' rhs') := by
  refine .bind (.check (by rw [sameLeft])) fun _ _ _ =>
    .bind (.check (by rw [sameRight])) fun _ _ _ => .instr ?_
  rw [Operation.type_arith, Operation.type_arith, sameLeft]

theorem lowerOrder_follows (op : Comparison) :
    Follows SameType (lowerOrder isVerbose pos op lhs rhs) (lowerOrder isVerbose pos op lhs' rhs') :=
  .bind (.check (by rw [sameLeft])) fun _ _ _ =>
    .bind (.check (by rw [sameRight])) fun _ _ _ => .instr rfl

theorem lowerEquality_follows (op : Comparison) :
    Follows SameType (lowerEquality isVerbose pos op lhs rhs)
      (lowerEquality isVerbose pos op lhs' rhs') := by
  rw [lowerEquality, lowerEquality, sameLeft, sameRight]
  split
  · exact .report
  · exact .instr rfl

/-- What is a pointer and what a number is decided by the types. -/
theorem lowerAdd_follows :
    Follows SameType (lowerAdd isVerbose pos lhs rhs) (lowerAdd isVerbose pos lhs' rhs') := by
  rw [lowerAdd, lowerAdd, sameLeft, sameRight]
  split
  · exact .report
  · exact .bind (.check rfl) fun _ _ _ => .instr (by rw [sameLeft]; rfl)
  · exact .bind (.check rfl) fun _ _ _ => .instr (by rw [sameRight]; rfl)
  · exact lowerArith_follows sameLeft sameRight _ _ _

theorem lowerSub_follows :
    Follows SameType (lowerSub isVerbose pos lhs rhs) (lowerSub isVerbose pos lhs' rhs') := by
  rw [lowerSub, lowerSub, sameLeft, sameRight]
  split
  · exact .report
  · exact .bind (.check rfl) fun _ _ _ => .bind (.instr rfl) fun _ _ _ =>
      .instr (by rw [sameLeft]; rfl)
  · exact lowerArith_follows sameLeft sameRight _ _ _

theorem lowerBinary_follows (op : BinOp) :
    Follows SameType (lowerBinary isVerbose pos op lhs rhs)
      (lowerBinary isVerbose pos op lhs' rhs') := by
  cases op with
  | or | and | mul | div | mod => exact lowerArith_follows sameLeft sameRight _ _ _
  | equals | revEquals => exact lowerEquality_follows sameLeft sameRight _
  | less | lessEqual | greater | greaterEqual => exact lowerOrder_follows sameLeft sameRight _
  | add => exact lowerAdd_follows sameLeft sameRight
  | sub => exact lowerSub_follows sameLeft sameRight

end Operators

variable {env env' : Env}

theorem lookupName_follows (sameTypes : env'.types = env.types) (ident : Ident) :
    Follows SameType (lookupName isVerbose env ident) (lookupName isVerbose env' ident) := by
  intro before before' address after alike written
  obtain ⟨found, rfl⟩ := gives_lookupName.mp written
  obtain ⟨again, foundToo, same⟩ := Env.exists_lookup sameTypes found
  exact ⟨again, before', gives_lookupName.mpr ⟨foundToo, rfl⟩, same, alike⟩

mutual

/-- An expression can be lowered wherever the same types are in scope. -/
theorem lowerExpr_follows (sameTypes : env'.types = env.types) (expr : Expr) :
    Follows SameType (lowerExpr isVerbose env expr) (lowerExpr isVerbose env' expr) := by
  cases expr with
  | decimal | boolean => exact .pure rfl
  | string => exact .bind (.addString _) fun _ _ same => same ▸ .instr rfl
  | name _ ident => exact .bind (lookupName_follows sameTypes ident) fun _ _ same => .load same
  | addressOf _ ident => exact lookupName_follows sameTypes ident
  | deref _ value =>
    refine .bind (lowerExpr_follows sameTypes value) fun address address' same => ?_
    rw [same]
    split
    · exact .load same
    · exact .report
  | exec _ ident arguments =>
    refine .bind (.findCallee _ _ _ _) fun callee callee' same => ?_
    refine .bind .get fun draft draft' alike => ?_
    -- The same positions of the same function take pointers to anything.
    rw [same.1, alike.session]
    refine .bind (lowerArguments_follows sameTypes arguments _ 0) fun _ _ types => ?_
    exact .call same.1 same.2 types
  | rev _ value =>
    refine .bind (lowerExpr_follows sameTypes value) fun truth truth' same => ?_
    refine .bind (.check (by rw [same])) fun _ _ _ => .instr ?_
    rw [Operation.type_arith, Operation.type_arith, same]
  | binary _ op lhs rhs =>
    refine .bind (lowerExpr_follows sameTypes lhs) fun _ _ sameLeft => ?_
    refine .bind (lowerExpr_follows sameTypes rhs) fun _ _ sameRight => ?_
    exact lowerBinary_follows sameLeft sameRight op
  | unknown => exact .report

theorem lowerArguments_follows (sameTypes : env'.types = env.types) (arguments : List Expr)
    (casts : List Nat) (position : Nat) :
    Follows (fun values values' : List Value =>
        values'.map Value.type = values.map Value.type)
      (lowerArguments isVerbose env casts position arguments)
      (lowerArguments isVerbose env' casts position arguments) := by
  cases arguments with
  | nil => exact .pure rfl
  | cons argument arguments =>
    refine .bind (lowerExpr_follows sameTypes argument) fun given given' same => ?_
    -- Whatever the first argument has become, the others follow behind it.
    have others {value value' : Value} (same : value.SameType value') :
        Follows (fun values values' : List Value =>
            values'.map Value.type = values.map Value.type)
          (do
            let values ← lowerArguments isVerbose env casts (position + 1) arguments
            return value :: values)
          (do
            let values ← lowerArguments isVerbose env' casts (position + 1) arguments
            return value' :: values) := by
      refine .bind (lowerArguments_follows sameTypes arguments casts (position + 1))
        fun _ _ types => .pure ?_
      rw [map_cons, map_cons, same, types]
    split
    · refine .bind (.cast same) fun _ _ same => others same
    · exact .bind (.pure same) fun _ _ same => others same

end

variable (sameTypes : env'.types = env.types)

include sameTypes

theorem lowerCondition_follows (condition : Expr) :
    Follows SameType (lowerCondition isVerbose env condition)
      (lowerCondition isVerbose env' condition) := by
  refine .bind (lowerExpr_follows sameTypes condition) fun truth truth' same => ?_
  exact .bind (.check (by rw [same])) fun _ _ _ => .pure same

theorem lowerTarget_follows (target : Target) :
    Follows SameType (lowerTarget isVerbose env target) (lowerTarget isVerbose env' target) := by
  cases target with
  | name ident => exact lookupName_follows sameTypes ident
  | deref _ value => exact lowerExpr_follows sameTypes value
  | unknown => exact .report

theorem lowerAssign_follows (target : Target) (value : Expr) :
    Follows Eq (lowerAssign isVerbose env target value) (lowerAssign isVerbose env' target value) := by
  refine .bind (lowerTarget_follows sameTypes target) fun address address' sameAddress => ?_
  refine .bind (lowerExpr_follows sameTypes value) fun given given' same => ?_
  rw [same, sameAddress]
  -- Whether a string is assigned to a character is told by the types.
  split
  · exact .bind (.load same) fun _ _ same => .store same sameAddress
  · exact .store same sameAddress

end Expressions

section Statements

variable {isVerbose : Bool} {env env' : Env}

theorem plain_follows (sameTypes : env'.types = env.types) {stmt : Stmt}
    (isPlain : stmt.isPlain = true) :
    Emit.Follows (fun scope scope' : Env => scope'.types = scope.types)
      (lowerStmt isVerbose env stmt) (lowerStmt isVerbose env' stmt) := by
  cases stmt with
  | expr _ value => exact .bind (lowerExpr_follows sameTypes value) fun _ _ _ => .pure sameTypes
  | noOp => exact .pure sameTypes
  | declare _ type ident =>
    -- The name is in scope in neither or in both.
    have known : (env'.lookup ident.text).isSome = (env.lookup ident.text).isSome := by
      rw [← Option.isSome_map, ← Env.lookup_types, sameTypes, Env.lookup_types, Option.isSome_map]
    rw [lowerStmt, lowerStmt, known]
    split
    · exact .fails_bind
    · refine .bind (.check rfl) fun lowered _ same => ?_
      subst same
      split
      · exact .fails_bind
      · refine .bind (.instr rfl) fun address address' same => .pure ?_
        rw [Env.types, map_cons, same]
        exact congrArg _ sameTypes
  | assign _ target value =>
    exact .bind (lowerAssign_follows sameTypes target value) fun _ _ _ => .pure sameTypes
  | ret | branch | loop => cases isPlain
  | unknown => exact .report

/-- Drafts alike in which writing can go on in the same way: in both of them the block is open, or
in neither. -/
structure Draft.Beside (draft other : Draft) (waiting awaiting : List BlockRef) : Prop
    extends draft.Alike other where
  shape : draft.Shape waiting
  otherShape : other.Shape awaiting
  sameEnd : other.isEnded = draft.isEnded

namespace Draft.Beside

section Moves

variable {draft : Draft} (beside : draft.Beside other waiting awaiting)

include beside

/-- Writing goes on in an open block of each draft. -/
theorem moved {draft' other' : Draft} {waiting' awaiting' : List BlockRef}
    (same : draft.Alike draft') (otherSame : other.Alike other') (shape : draft'.Shape waiting')
    (otherShape : other'.Shape awaiting') (going : draft'.isEnded = false)
    (otherGoing : other'.isEnded = false) : draft'.Beside other' waiting' awaiting' :=
  ⟨beside.toAlike.congr same otherSame, shape, otherShape, otherGoing.trans going.symm⟩

theorem finish (exit exit' : Exit) :
    (draft.finish exit).Beside (other.finish exit') waiting awaiting :=
  ⟨beside.toAlike.congr ⟨rfl, rfl, rfl, rfl, rfl⟩ ⟨rfl, rfl, rfl, rfl, rfl⟩, beside.shape.finish _,
    beside.otherShape.finish _,
    (beside.otherShape.isEnded_finish _).trans (beside.shape.isEnded_finish _).symm⟩

theorem fork_false (truth truth' : Value) :
    (draft.fork truth false).Beside (other.fork truth' false) ((draft.arms false).join :: waiting)
      ((other.arms false).join :: awaiting) :=
  beside.moved (draft.alike_fork ..) (other.alike_fork ..) (beside.shape.fork_false _)
    (beside.otherShape.fork_false _) (beside.shape.isEnded_fork ..) (beside.otherShape.isEnded_fork ..)

theorem fork_true (truth truth' : Value) :
    (draft.fork truth true).Beside (other.fork truth' true)
      ((draft.arms true).whenFalse :: (draft.arms true).join :: waiting)
      ((other.arms true).whenFalse :: (other.arms true).join :: awaiting) :=
  beside.moved (draft.alike_fork ..) (other.alike_fork ..) (beside.shape.fork_true _)
    (beside.otherShape.fork_true _) (beside.shape.isEnded_fork ..) (beside.otherShape.isEnded_fork ..)

theorem toTest : draft.toTest.Beside other.toTest
    (draft.ring.inside :: draft.ring.join :: waiting) (other.ring.inside :: other.ring.join :: awaiting) :=
  beside.moved ⟨rfl, rfl, rfl, rfl, rfl⟩ ⟨rfl, rfl, rfl, rfl, rfl⟩ beside.shape.toTest
    beside.otherShape.toTest (isEnded_eq_false beside.shape.block?_toTest)
    (isEnded_eq_false beside.otherShape.block?_toTest)

/-- Straight code is written into both blocks, and neither is ended by it. -/
theorem appends {after after' : Draft} {code code' : List Instr} (alike : after.Alike after')
    (appended : Appends draft code after) (otherAppended : Appends other code' after') :
    after.Beside after' waiting awaiting :=
  ⟨alike, beside.shape.appends appended, beside.otherShape.appends otherAppended,
    by rw [otherAppended.isEnded_eq, beside.sameEnd, appended.isEnded_eq]⟩

theorem condition {condition : Expr} {truth : Value} (sameTypes : env'.types = env.types)
    (evaluated : Gives (lowerCondition isVerbose env condition) draft truth tested) :
    ∃ truth' tested', Gives (lowerCondition isVerbose env' condition) other truth' tested' ∧
      tested.Beside tested' waiting awaiting := by
  obtain ⟨truth', tested', written, _, alike⟩ :=
    lowerCondition_follows sameTypes condition _ _ _ _ beside.toAlike evaluated
  obtain ⟨code, appended⟩ := lowerCondition_appends evaluated
  obtain ⟨code', otherAppended⟩ := lowerCondition_appends written
  exact ⟨truth', tested', written, beside.appends alike appended otherAppended⟩

end Moves

variable {draft : Draft}

theorem toInside {ring ring' : Ring}
    (beside : draft.Beside other (ring.inside :: waiting) (ring'.inside :: awaiting))
    (truth truth' : Value) :
    (draft.toInside ring truth).Beside (other.toInside ring' truth') waiting awaiting :=
  beside.moved ⟨rfl, rfl, rfl, rfl, rfl⟩ ⟨rfl, rfl, rfl, rfl, rfl⟩ (beside.shape.toInside _)
    (beside.otherShape.toInside _) (beside.shape.isEnded_toInside _)
    (beside.otherShape.isEnded_toInside _)

theorem leave_goTo {block block' : BlockRef}
    (beside : draft.Beside other (block :: waiting) (block' :: awaiting)) (join join' : BlockRef) :
    ((draft.leave join).goTo block).Beside ((other.leave join').goTo block') waiting awaiting :=
  beside.moved (draft.alike_leave_goTo ..) (other.alike_leave_goTo ..) (beside.shape.leave_goTo _)
    (beside.otherShape.leave_goTo _) (beside.shape.isEnded_leave_goTo _)
    (beside.otherShape.isEnded_leave_goTo _)

theorem behind {ring ring' : Ring}
    (beside : draft.Beside other (ring.join :: waiting) (ring'.join :: awaiting)) :
    (draft.behind ring).Beside (other.behind ring') waiting awaiting :=
  beside.moved ⟨rfl, rfl, rfl, rfl, rfl⟩ ⟨rfl, rfl, rfl, rfl, rfl⟩ beside.shape.behind
    beside.otherShape.behind (isEnded_eq_false beside.shape.block?_behind)
    (isEnded_eq_false beside.otherShape.block?_behind)

end Draft.Beside

/-- Lowering leads on from a draft beside another one if it leads on from that, and to a draft
beside the one reached from there. -/
theorem Lowers.relocate {site : Site} {part : Part} {after : Draft} {scope : Env} {log : Log}
    (lowered : Lowers isVerbose site env part before scope after log)
    (beside : before.Beside other waiting awaiting) (sameTypes : env'.types = env.types) :
    ∃ scope' after' log', Lowers isVerbose site env' part other scope' after' log' ∧
      after.Beside after' waiting awaiting ∧ scope'.types = scope.types := by
  -- Along the derivation: each move from block to block is made in both drafts.
  induction lowered generalizing waiting other awaiting env' with
  | plain isPlain written =>
    obtain ⟨scope', after', otherWritten, types, alike⟩ :=
      plain_follows sameTypes isPlain _ _ _ _ beside.toAlike written
    obtain ⟨code, appended⟩ := plain_appends isPlain written
    obtain ⟨code', otherAppended⟩ := plain_appends isPlain otherWritten
    exact ⟨scope', after', _, .plain isPlain otherWritten,
      beside.appends alike appended otherAppended, types⟩
  | retVoid going =>
    exact ⟨env', _, _, .retVoid (beside.sameEnd.trans going), beside.finish _ _, sameTypes⟩
  | retValue evaluated going =>
    obtain ⟨operand', written', otherEvaluated, _, alike⟩ :=
      lowerExpr_follows sameTypes _ _ _ _ _ beside.toAlike evaluated
    obtain ⟨code, appended⟩ := lowerExpr_appends _ evaluated
    obtain ⟨code', otherAppended⟩ := lowerExpr_appends _ otherEvaluated
    have written := beside.appends alike appended otherAppended
    exact ⟨env', _, _, .retValue otherEvaluated (written.sameEnd.trans going), written.finish _ _,
      sameTypes⟩
  | branch _ ih =>
    obtain ⟨scope', after', log', otherLowered, reached, types⟩ := ih beside sameTypes
    obtain rfl := (gives_lower_rest.mp otherLowered.gives).1
    exact ⟨_, after', log', .branch otherLowered, reached, types⟩
  | otherwise _ ih =>
    obtain ⟨scope', after', log', otherLowered, reached, types⟩ := ih beside sameTypes
    obtain rfl := (gives_lower_body.mp otherLowered.gives).1
    exact ⟨_, after', log', .otherwise otherLowered, reached, types⟩
  | loop going evaluated testGoing _ bodyGoing ih =>
    obtain ⟨truth', tested', otherEvaluated, tested⟩ := beside.toTest.condition sameTypes evaluated
    obtain ⟨scope', ended', log', otherLowered, ended, _⟩ := ih (tested.toInside _ truth') sameTypes
    obtain rfl := (gives_lower_body.mp otherLowered.gives).1
    -- The bodies have ended both or neither, and this one has not.
    exact ⟨_, _, _, .loop (beside.sameEnd.trans going) otherEvaluated
      (tested.sameEnd.trans testGoing) otherLowered (ended.sameEnd.trans bodyGoing), ended.behind,
      sameTypes⟩
  | nil => exact ⟨env', other, _, .nil, beside, sameTypes⟩
  | none => exact ⟨env', other, _, .none, beside, sameTypes⟩
  | dead isEnded => exact ⟨env', other, _, .dead (beside.sameEnd.trans isEnded), beside, sameTypes⟩
  | cons going _ _ firstIh othersIh =>
    obtain ⟨scope', between', log', otherFirst, between, types⟩ := firstIh beside sameTypes
    obtain ⟨_, after', more', otherOthers, reached, _⟩ := othersIh between types
    obtain rfl := (gives_lower_body.mp otherOthers.gives).1
    exact ⟨_, after', _, .cons (beside.sameEnd.trans going) otherFirst otherOthers, reached, sameTypes⟩
  | ifThen evaluated going _ ih =>
    obtain ⟨truth', tested', otherEvaluated, tested⟩ := beside.condition sameTypes evaluated
    obtain ⟨_, ended', log', otherLowered, ended, _⟩ := ih (tested.fork_false _ truth') sameTypes
    obtain rfl := (gives_lower_body.mp otherLowered.gives).1
    exact ⟨_, _, _, .ifThen otherEvaluated (tested.sameEnd.trans going) otherLowered,
      ended.leave_goTo _ _, sameTypes⟩
  | ifElse follows evaluated going _ _ ih restIh =>
    obtain ⟨truth', tested', otherEvaluated, tested⟩ := beside.condition sameTypes evaluated
    obtain ⟨_, ended', log', otherLowered, ended, _⟩ := ih (tested.fork_true _ truth') sameTypes
    obtain rfl := (gives_lower_body.mp otherLowered.gives).1
    -- The other arm is written into the second of the new blocks.
    obtain ⟨_, last', more', otherFollowed, last, _⟩ := restIh (ended.leave_goTo _ _) sameTypes
    obtain rfl := (gives_lower_rest.mp otherFollowed.gives).1
    exact ⟨_, _, _, .ifElse follows otherEvaluated (tested.sameEnd.trans going) otherLowered
      otherFollowed, last.leave_goTo _ _, sameTypes⟩

end Statements

section Loops

theorem stops_exit {exit : Exit} (isEnded : before.isEnded = true) :
    StopsAt (Emit.exit exit) before .impossible (before.take "") := by
  refine (gives_takeName.mpr ⟨rfl, rfl⟩).stops ((gives_get.mpr ⟨rfl, rfl⟩).stops ?_)
  -- The check is made behind the name, which changes no block.
  simp only [Draft.isEnded_take, isEnded, if_true]
  exact StopsAt.bind rfl

variable {before : Draft} {isVerbose : Bool} {env scope : Env} {condition : Expr} {body : List Stmt}

/-- A loop stops at the end of its body if that has ended by itself. -/
theorem stops_loop {condition : Emit Value} {body : Emit Unit} {truth : Value} {ended : Draft}
    (going : before.isEnded = false) (evaluated : Gives condition before.toTest truth tested)
    (testGoing : tested.isEnded = false)
    (written : Gives body (tested.toInside before.ring truth) () ended)
    (isEnded : ended.isEnded = true) :
    StopsAt (Emit.loop condition body) before .impossible (ended.take "") := by
  have exits {draft : Draft} {exit : Exit} (going : draft.isEnded = false) :
      Gives (Emit.exit exit) draft () (draft.finish exit) := gives_exit.mpr ⟨going, rfl⟩
  have enters {draft : Draft} {block : BlockRef} :
      Gives (Emit.enter block) draft () (draft.goTo block) := gives_enter.mpr rfl
  -- Up to the end of its body the loop is written like any other.
  refine (gives_addBlock.mpr ⟨rfl, rfl⟩).stops ((gives_addBlock.mpr ⟨rfl, rfl⟩).stops
    ((gives_addBlock.mpr ⟨rfl, rfl⟩).stops ?_))
  refine (exits (by simpa using going)).stops (enters.stops ?_)
  refine evaluated.stops ((exits testGoing).stops (enters.stops ?_))
  -- The jump back finds the block of the body ended.
  exact written.stops (stops_exit isEnded).bind

/-- Where a branch can be built, the loop with its parts can be built as well, unless the body has a
return among its statements. With such a return the loop has no place for the jump back. -/
theorem lowerStmt_loop_eq {waiting : List BlockRef} (shape : before.Shape waiting)
    {pos bodyPos : Pos} {after : Draft}
    (built : Gives (lowerStmt isVerbose env (.branch pos condition bodyPos body .none)) before scope
      after) (loopPos loopBodyPos : Pos) :
    ((lowerStmt isVerbose env (.loop loopPos condition loopBodyPos body)).run.run before).1 =
      if body.any Stmt.isRet then .error .impossible else .ok env := by
  obtain ⟨log, derived⟩ := lowerStmt_lowers [0] _ built
  -- A branch without an else part is lowered in one way only.
  cases derived with
  | plain isPlain => cases isPlain
  | branch derived =>
    cases derived with
    | ifElse follows => cases follows
    | @ifThen _ _ _ _ _ _ _ truth tested ended _ evaluated going lowered =>
      obtain ⟨code, appended⟩ := lowerCondition_appends evaluated
      have beforeGoing : before.isEnded = false := by rw [← appended.isEnded_eq, going]
      -- The condition is evaluated in a block of its own, then the body is written behind it.
      have entered : before.Beside before.toTest waiting _ :=
        ⟨⟨rfl, rfl, rfl, rfl, rfl⟩, shape, shape.toTest,
          (Draft.isEnded_eq_false shape.block?_toTest).trans beforeGoing.symm⟩
      obtain ⟨truth', tested', otherEvaluated, reached⟩ := entered.condition rfl evaluated
      have insideGoing := reached.otherShape.isEnded_toInside truth'
      have inside : (tested.fork truth false).Beside (tested'.toInside before.ring truth') _ _ :=
        reached.moved (tested.alike_fork truth false) ⟨rfl, rfl, rfl, rfl, rfl⟩
          (reached.shape.fork_false _) (reached.otherShape.toInside truth')
          (reached.shape.isEnded_fork ..) insideGoing
      obtain ⟨scope', ended', log', otherLowered, _⟩ := lowered.relocate inside rfl
      obtain ⟨rfl, written⟩ := gives_lower_body.mp otherLowered.gives
      -- A return among the statements of the body is what ends its block.
      have bodyEnd : ended'.isEnded = body.any Stmt.isRet :=
        otherLowered.isEnded_eq inside.otherShape insideGoing
      cases isRet : body.any Stmt.isRet with
      | true =>
        exact congrArg Prod.fst (stops_loop beforeGoing otherEvaluated (reached.sameEnd.trans going)
          written (bodyEnd.trans isRet)).bind
      | false =>
        have looped : Gives (Emit.loop (lowerCondition isVerbose _ condition)
            (lowerBody isVerbose _ body)) before () _ :=
          gives_loop.mpr ⟨beforeGoing, truth', tested', otherEvaluated, reached.sameEnd.trans going, ended',
            written, bodyEnd.trans isRet, rfl⟩
        have given :
            Gives (lowerStmt isVerbose _ (.loop loopPos condition loopBodyPos body)) before _ _ :=
          gives_bind.mpr ⟨(), _, looped, gives_pure.mpr ⟨rfl, rfl⟩⟩
        exact congrArg Prod.fst given

/-- A loop that counts, and returns from a branch on the way, can be built where a branch with this
body can: the return is not among the statements of the body itself. -/
theorem lowerStmt_loop_eq_returning :
    let pos : Pos := ⟨1, 1⟩
    let x : Ident := ⟨pos, "x"⟩
    let opened := Draft.opening
      { globals := [.function (.declare Libc.puts.name Libc.puts.signature)] } (functionName "start")
      ⟨.i64, [], false⟩
    let before := opened.write "x" (.alloca .i64)
    let env : Env := [("x", .register (opened.named "x") (.pointer .i64))]
    let condition : Expr := .binary pos .less (.name pos x) (.decimal pos 3)
    let body : List Stmt :=
      [.branch pos (.binary pos .equals (.name pos x) (.decimal pos 2)) pos
        [.ret pos (some (.name pos x))] .none,
       .assign pos (.name x) (.binary pos .add (.name pos x) (.decimal pos 1))]
    (∃ scope after, Gives (lowerStmt false env (.branch pos condition pos body .none)) before scope
      after) ∧
    ((lowerStmt false env (.loop pos condition pos body)).run.run before).1 = .ok env := by
  intro pos x opened before env condition body
  have shape : before.Shape [] := (Draft.shape_opening ..).appends (.write ..)
  have built : ∃ scope after,
      Gives (lowerStmt false env (.branch pos condition pos body .none)) before scope after := by
    apply Gives.of_isOk
    decide +kernel
  refine ⟨built, ?_⟩
  obtain ⟨scope, after, built⟩ := built
  rw [lowerStmt_loop_eq shape built pos pos]
  rfl

/-- At the start of a program a branch whose body returns one can be built, and such a loop
cannot. -/
theorem not_lowerStmt_loop_ret :
    let before := Draft.opening {} (functionName "start") ⟨.i64, [], false⟩
    let pos : Pos := ⟨1, 1⟩
    let body : List Stmt := [.ret pos (some (.decimal pos 1))]
    (∃ scope after, Gives (lowerStmt false [] (.branch pos (.boolean pos true) pos body .none)) before
      scope after) ∧
    ¬∃ scope after, Gives (lowerStmt false [] (.loop pos (.boolean pos true) pos body)) before scope
      after := by
  intro before pos body
  constructor
  · apply Gives.of_isOk
    decide +kernel
  rintro ⟨scope, after, built⟩
  have fails :
      ((lowerStmt false [] (.loop pos (.boolean pos true) pos body)).run.run before).1.isOk = false := by
    decide +kernel
  rw [built] at fails
  cases fails

end Loops

end LeftHand
