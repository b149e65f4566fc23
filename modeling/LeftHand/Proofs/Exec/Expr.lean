import LeftHand.Proofs.Exec.Scalar

/-! The code of a scalar expression computes its value and makes its calls. -/

namespace LeftHand

open Ir List

variable {before between : Draft} {code more : List Instr}

/-- A call as the code makes it. -/
def Call.lower (call : Call) : Ir.Call :=
  ⟨functionName call.function, call.arguments.map Scalar.word⟩

/-- What answers the calls of an expression, behind the calls that the code has made before it. -/
def answersBehind (oracle : Ir.Oracle) (earlier : List Ir.Call) : Oracle :=
  fun calls call memory => oracle (earlier ++ calls.map Call.lower) call.lower memory

/-- A machine that has made the same calls as an expression, and has the same memory. -/
structure Simulates (earlier : List Ir.Call) (world : World) (machine : Machine) : Prop where
  memory : machine.memory = world.memory
  calls : machine.calls = earlier ++ world.calls.map Call.lower

/-- Functions that are found under names that can be called suit what the rules say of them. -/
def Draft.Offers (draft : Draft) (callees : Callees) : Prop :=
  ∀ name callee function, callees name = some callee →
    draft.callee? name = some (.function function) →
      function.Suits draft.session.casts name callee

/-- Every variable's address is in a register that is in use, and the machine holds it there. -/
def Env.Placed (env : Env) (places : String → Nat) (used : List String) (machine : Machine) :
    Prop :=
  ∀ name address, env.lookup name = some address → ∃ register type,
    address = .register register type ∧ register ∈ used ∧
      machine.registers register = some (.address (places name))

/-- A value that later code can use: it is in a register that is in use, or needs none. -/
def Ir.Value.IsHeld (used : List String) : Value → Prop
  | .register name _ => name ∈ used
  | .int .. | .truth _ | .null _ | .global .. => True

/-- Code computes what is evaluated: the machine stops if there is no value, and otherwise holds it,
has made the same calls, and has left alone the registers that were in use. -/
inductive Computes {α : Type} (oracle : Ir.Oracle) (earlier : List Ir.Call) (used : List String)
    (holds : α → Machine → Prop) (machine : Machine) (code : List Instr) :
    Option (α × World) → Prop where
  | stops (stuck : Ir.run oracle code machine = none) :
      Computes oracle earlier used holds machine code none
  | gives {value world final} (ran : Ir.run oracle code machine = some final)
      (simulates : Simulates earlier world final) (held : holds value final)
      (kept : ∀ name ∈ used, final.registers name = machine.registers name) :
      Computes oracle earlier used holds machine code (some (value, world))

section Steps

variable {α β : Type} {oracle : Ir.Oracle} {earlier : List Ir.Call} {used later : List String}
  {machine : Machine} {code more : List Instr} {world : World}

theorem Computes.pure {holds : α → Machine → Prop} {value : α}
    (simulates : Simulates earlier world machine) (held : holds value machine) :
    Computes oracle earlier used holds machine [] (some (value, world)) :=
  .gives rfl simulates held fun _ _ => rfl

section

variable {first : α → Machine → Prop} {outcome : Option (α × World)} {second : β → Machine → Prop}
  (computes : Computes oracle earlier used first machine code outcome)

include computes

/-- Code behind other code computes what is evaluated behind something else. -/
theorem Computes.bind {next : α × World → Option (β × World)} (subset : used ⊆ later)
    (rest : ∀ value world final, first value final → Simulates earlier world final →
      (∀ name ∈ used, final.registers name = machine.registers name) →
      Computes oracle earlier later second final more (next (value, world))) :
    Computes oracle earlier used second machine (code ++ more) (outcome >>= next) := by
  cases computes with
  | stops stuck =>
    refine .stops ?_
    rw [Ir.run_append, stuck, Option.bind_none]
  | @gives value world final ran simulates held kept =>
    rw [Option.bind_eq_bind, Option.bind_some]
    have ran (last : Option Machine) (ended : Ir.run oracle more final = last) :
        Ir.run oracle (code ++ more) machine = last := by
      rw [Ir.run_append, ran, Option.bind_some, ended]
    cases found : next (value, world) with
    | none =>
      have continued := rest value world final held simulates kept
      rw [found] at continued
      cases continued with
      | stops stuck => exact .stops (ran none stuck)
    | some pair =>
      have continued := rest value world final held simulates kept
      rw [found] at continued
      cases continued with
      | gives ended simulates held keptLater =>
        refine .gives (ran _ ended) simulates held fun name member => ?_
        rw [keptLater name (subset member), kept name member]

theorem Computes.map {change : α → β} (told : ∀ value final, first value final →
      (∀ name ∈ used, final.registers name = machine.registers name) →
      second (change value) final) :
    Computes oracle earlier used second machine code
      (outcome.map fun pair => (change pair.1, pair.2)) := by
  cases computes with
  | stops stuck => exact .stops stuck
  | gives ran simulates held kept => exact .gives ran simulates (told _ _ held kept) kept

end

/-- The machine holds a scalar in place of a value of the code. -/
def Ir.Value.Holds (value : Value) (scalar : Scalar) (machine : Machine) : Prop :=
  value.word? machine.registers = some scalar.word ∧ value.type = scalar.kind.lower

theorem Draft.registers_put {draft : Draft} {name : String}
    (member : name ∈ draft.function.scope.used) (base : String) (word : Ir.Word) :
    (machine.put (draft.named base) word).registers name = machine.registers name := by
  have other : name ≠ draft.named base := by
    intro same
    exact Scope.take_notMem _ base (same ▸ member)
  simp [Machine.put, other]

theorem computes_write {base : String} {operation : Operation} {type : Ir.Ty}
    {outcome : Option Scalar} (simulates : Simulates earlier world machine)
    (noCall : operation.isCall = false) (given : operation.word? machine = outcome.map Scalar.word)
    (typed : ∀ scalar, outcome = some scalar → type = scalar.kind.lower) :
    Computes oracle earlier before.function.scope.used
      (Value.register (before.named base) type).Holds machine
      [⟨before.named base, operation⟩] (outcome.map (·, world)) := by
  cases outcome with
  | none =>
    refine .stops ?_
    rw [Ir.run_singleton noCall, given]
    rfl
  | some scalar =>
    have ran : Ir.run oracle [⟨before.named base, operation⟩] machine =
        some (machine.put (before.named base) scalar.word) := by
      rw [Ir.run_singleton noCall, given]
      rfl
    refine .gives ran ⟨simulates.memory, simulates.calls⟩ ⟨?_, typed scalar rfl⟩
      fun _ member => Draft.registers_put member _ _
    simp [Value.word?, Machine.put]

end Steps

section Kept

variable {used later : List String} {machine final : Machine}

/-- A value that is held is held as long as the registers in use are left alone. -/
theorem Ir.Value.IsHeld.word?_eq {value : Value} (held : value.IsHeld used)
    (kept : ∀ name ∈ used, final.registers name = machine.registers name) :
    value.word? final.registers = value.word? machine.registers := by
  cases value with
  | register name type => exact kept name held
  | int | truth | null | global => rfl

theorem Ir.Value.IsHeld.mono {value : Value} (held : value.IsHeld used) (subset : used ⊆ later) :
    value.IsHeld later := by
  cases value with
  | register name type => exact subset held
  | int | truth | null | global => trivial

theorem Env.Placed.keep {env : Env} {places : String → Nat} (placed : env.Placed places used machine)
    (subset : used ⊆ later)
    (kept : ∀ name ∈ used, final.registers name = machine.registers name) :
    env.Placed places later final := by
  intro name address known
  obtain ⟨register, type, same, inUse, held⟩ := placed name address known
  exact ⟨register, type, same, subset inUse, (kept register inUse).trans held⟩

end Kept

theorem Draft.Offers.write {draft : Draft} {callees : Callees} (offers : draft.Offers callees)
    (base : String) (operation : Operation) : (draft.write base operation).Offers callees := by
  intro name callee function known found
  -- What is found now was there before, with the same name and signature.
  let like (other : Ir.Function) : Prop := other.name = function.name ∧
    other.signature = function.signature ∧ other.params = function.params
  have now : ∃ other, (draft.session.globals ++
      .function (draft.write base operation).function :: draft.strings).find?
        (·.name == functionName name) = some (.function other) ∧ like other :=
    ⟨function, found, rfl, rfl, rfl⟩
  have unchanged : draft.function.name = (draft.write base operation).function.name := rfl
  obtain ⟨other, located, named, signature, params⟩ : ∃ other,
      draft.callee? name = some (.function other) ∧ like other :=
    Provides.find_replace unchanged (fun same => same) now
  have suits := offers name callee other known located
  exact ⟨named ▸ suits.named, signature ▸ suits.params, params ▸ suits.count,
    signature ▸ suits.result, suits.casts⟩

/-- The code of an expression: it stands behind what was there, later code can use its value, and it
computes what the expression evaluates to. -/
structure Implements (callees : Callees) (vars : Vars) (env : Env) (expr : Expr) (before : Draft)
    (value : Value) (after : Draft) (code : List Instr) : Prop where
  appends : Appends before code after
  offers : after.Offers callees
  held : value.IsHeld after.function.scope.used
  typed : ∃ kind : Kind, kind.isScalar = true ∧ value.type = kind.lower
  computes : ∀ (oracle : Ir.Oracle) (earlier : List Ir.Call) (places : String → Nat)
    (machine : Machine) (world : World), Simulates earlier world machine →
    env.Placed places before.function.scope.used machine →
    Computes oracle earlier before.function.scope.used value.Holds machine code
      (expr.eval? (answersBehind oracle earlier) callees vars places world)

/-- The code of arguments. -/
structure ImplementsAll (callees : Callees) (vars : Vars) (env : Env) (arguments : List Expr)
    (before : Draft) (values : List Value) (after : Draft) (code : List Instr) : Prop where
  appends : Appends before code after
  offers : after.Offers callees
  count : values.length = arguments.length
  held : ∀ value ∈ values, value.IsHeld after.function.scope.used
  computes : ∀ (oracle : Ir.Oracle) (earlier : List Ir.Call) (places : String → Nat)
    (machine : Machine) (world : World), Simulates earlier world machine →
    env.Placed places before.function.scope.used machine →
    Computes oracle earlier before.function.scope.used
      (fun scalars final =>
        values.mapM (·.word? final.registers) = some (scalars.map Scalar.word)) machine code
      (evalAll? (answersBehind oracle earlier) callees vars places arguments world)

theorem Appends.used_subset {after : Draft} (appended : Appends before code after) :
    before.function.scope.used ⊆ after.function.scope.used := by
  rw [appended.used]
  exact subset_append_right _ _

theorem Draft.isHeld_write (draft : Draft) (base : String) (operation : Operation) (type : Ir.Ty) :
    (Value.register (draft.named base) type).IsHeld
      (draft.write base operation).function.scope.used := by
  rw [Value.IsHeld, (Appends.write draft base operation).used]
  simp

section Parts

variable {isVerbose : Bool} {callees : Callees} {vars : Vars} {env : Env} {before after : Draft}
  {value : Value} {pos : Pos} {arguments : List Expr}

theorem implements_name {ident : Ident} {kind : Kind} (agree : env.Matches vars)
    (offers : before.Offers callees) (known : vars.lookup ident.text = some kind)
    (scalar : kind.isScalar = true)
    (lowered : Gives (lowerExpr isVerbose env (.name pos ident)) before value after) :
    ∃ code, Implements callees vars env (.name pos ident) before value after code := by
  obtain ⟨address, declared, rfl, rfl⟩ := gives_name.mp lowered
  -- The address is one of a place for values of the variable's kind.
  have pointed : address.type = .pointer kind.lower := by
    obtain ⟨other, otherKnown, placed⟩ := agree.exists_kind declared
    rwa [Option.some.inj (otherKnown.symm.trans known)] at placed
  refine ⟨_, .write .., offers.write _ _, before.isHeld_write .., ⟨kind, scalar, by simp [pointed]⟩,
    fun oracle earlier places machine world simulates placed => ?_⟩
  obtain ⟨given, evaluated, read, rfl⟩ :=
    Kind.exists_scalar scalar (world.memory (places ident.text))
  obtain ⟨register, type, rfl, _, holds⟩ := placed _ _ declared
  have loaded : (Operation.load (.register register type)).word? machine =
      (some given).map Scalar.word := by
    rw [Value.type_register] at pointed
    simp [Operation.word?, Value.word?, holds, pointed, simulates.memory, read]
  have value : Expr.eval? (answersBehind oracle earlier) callees vars places (.name pos ident) world =
      (some given).map (·, world) := by
    simp [Expr.eval?, known, evaluated]
  rw [value]
  refine computes_write simulates rfl loaded fun other same => ?_
  cases same
  simp [pointed]

theorem implements_rev {operand : Expr} {truth : Value}
    (implements : Implements callees vars env operand before truth between code)
    (isTruth : truth.type = .i1) :
    Implements callees vars env (.rev pos operand) before
      (.register (between.named ".revtmp") truth.type)
      (between.write ".revtmp" (.arith .xor truth (.int 1 (-1))))
      (code ++ [⟨between.named ".revtmp", .arith .xor truth (.int 1 (-1))⟩]) := by
  refine ⟨implements.appends.trans (.write ..), implements.offers.write _ _,
    between.isHeld_write .., ⟨.boolean, rfl, isTruth⟩,
    fun oracle earlier places machine world simulates placed => ?_⟩
  refine (implements.computes oracle earlier places machine world simulates placed).bind
    implements.appends.used_subset fun given world final held simulates _ => ?_
  obtain ⟨word, type⟩ := held
  cases given with
  | number number => cases isTruth.symm.trans type
  | truth given =>
    have mask : (Value.int 1 (-1)).word? final.registers = some (.int 1 1#1) := rfl
    have reversed : (Operation.arith .xor truth (.int 1 (-1))).word? final =
        (some (Scalar.truth !given)).map Scalar.word := by
      rw [Ir.word?_arith .xor word mask]
      cases given <;> rfl
    refine computes_write simulates rfl reversed fun other same => ?_
    cases same
    exact isTruth

/-- Both operands of an operator are evaluated before it, the left one first. -/
theorem implements_binary {op : BinOp} {lhs rhs : Expr} {left right : Value} {last : Draft}
    (first : Implements callees vars env lhs before left between code)
    (second : Implements callees vars env rhs between right last more)
    (combined : Gives (lowerBinary isVerbose pos op left right) last value after) :
    ∃ code, Implements callees vars env (.binary pos op lhs rhs) before value after code := by
  obtain ⟨leftKind, leftScalar, leftType⟩ := first.typed
  obtain ⟨rightKind, rightScalar, rightType⟩ := second.typed
  obtain ⟨base, kind, allowed, scalar, typeEq, rfl, rfl⟩ :=
    lowerBinary_scalar leftScalar rightScalar leftType rightType combined
  refine ⟨code ++ (more ++ _), first.appends.trans (second.appends.trans (.write ..)),
    second.offers.write _ _, last.isHeld_write .., ⟨kind, scalar, rfl⟩,
    fun oracle earlier places machine world simulates placed => ?_⟩
  -- The left operand leaves the variables in their places for the right one.
  refine (first.computes oracle earlier places machine world simulates placed).bind
    first.appends.used_subset fun leftGiven world middle leftHeld simulates kept => ?_
  have placed := placed.keep first.appends.used_subset kept
  refine (second.computes oracle earlier places middle world simulates placed).bind
    second.appends.used_subset fun rightGiven world final rightHeld simulates kept => ?_
  -- The right operand leaves the value of the left one in its register.
  have leftWord : left.word? final.registers = some leftGiven.word :=
    (first.held.word?_eq kept).trans leftHeld.1
  have leftEq := Kind.eq_of_type _ leftType leftHeld.2
  have rightEq := Kind.eq_of_type _ rightType rightHeld.2
  rw [leftEq, rightEq] at allowed
  obtain ⟨given, kindEq⟩ := word?_operation allowed leftWord rightHeld.1
  have paired : (op.eval? leftGiven rightGiven >>= fun scalar => Pure.pure (scalar, world)) =
      (op.eval? leftGiven rightGiven).map (·, world) := by
    cases op.eval? leftGiven rightGiven <;> rfl
  change Computes _ _ _ _ _ _ (op.eval? leftGiven rightGiven >>= _)
  rw [paired]
  exact computes_write simulates (isCall_operation ..) given fun scalar evaluated => by
    rw [kindEq scalar evaluated]

theorem implementsAll_cons {argument : Expr} {operand : Value} {values : List Value}
    (first : Implements callees vars env argument before operand between code)
    (others : ImplementsAll callees vars env arguments between values after more) :
    ImplementsAll callees vars env (argument :: arguments) before (operand :: values) after
      (code ++ more) := by
  refine ⟨first.appends.trans others.appends, others.offers, by simp [others.count],
    fun value member => ?_, fun oracle earlier places machine world simulates placed => ?_⟩
  · rcases mem_cons.mp member with rfl | later
    · exact first.held.mono others.appends.used_subset
    · exact others.held value later
  · rw [evalAll?]
    refine (first.computes oracle earlier places machine world simulates placed).bind
      first.appends.used_subset fun given world middle firstHeld simulates kept => ?_
    have placed := placed.keep first.appends.used_subset kept
    have computes := others.computes oracle earlier places middle world simulates placed
    have paired : (evalAll? (answersBehind oracle earlier) callees vars places arguments world >>=
        fun pair => Pure.pure (given :: pair.1, pair.2)) =
        (evalAll? (answersBehind oracle earlier) callees vars places arguments world).map
          fun pair => (given :: pair.1, pair.2) := by
      rw [Option.map_eq_bind]
      rfl
    change Computes _ _ _ _ _ _ (evalAll? _ _ _ _ arguments world >>= _)
    rw [paired]
    refine computes.map fun scalars final held kept => ?_
    -- The other arguments leave the first one in its register.
    have firstWord := (first.held.word?_eq kept).trans firstHeld.1
    simp [mapM_cons, firstWord, held]

/-- A call is made behind its arguments, and its answer is the value. -/
theorem implements_exec {ident : Ident} {callee : Callee} {function : Ir.Function}
    {values : List Value}
    (implements : ImplementsAll callees vars env arguments before values between code)
    (known : callees ident.text = some callee) (scalar : callee.IsScalar)
    (suits : function.Suits before.session.casts ident.text callee) (base : String) :
    Implements callees vars env (.exec pos ident arguments) before
      (.register (between.named base) function.signature.result)
      (between.write base (.call function.name function.signature values))
      (code ++ [⟨between.named base, .call function.name function.signature values⟩]) := by
  refine ⟨implements.appends.trans (.write ..), implements.offers.write _ _,
    between.isHeld_write .., ⟨callee.result, scalar.result, suits.result⟩,
    fun oracle earlier places machine world simulates placed => ?_⟩
  rw [Expr.eval?, known]
  change Computes _ _ _ _ _ _ (evalAll? _ _ _ _ arguments world >>= _)
  refine (implements.computes oracle earlier places machine world simulates placed).bind
    implements.appends.used_subset fun scalars world final passed simulates _ => ?_
  -- The machine asks what the expression asks, so both get the same answer.
  let call : Call := ⟨ident.text, scalars⟩
  have asked : oracle final.calls ⟨function.name, scalars.map Scalar.word⟩ final.memory =
      answersBehind oracle earlier world.calls call world.memory := by
    rw [simulates.calls, simulates.memory, suits.named]
    rfl
  obtain ⟨given, evaluated, read, kindEq⟩ := Kind.exists_scalar scalar.result
    (answersBehind oracle earlier world.calls call world.memory).1
  rw [← suits.result, ← asked] at read
  have ran := Ir.run_call (between.named base) passed read
  change Computes _ _ _ _ _ _ (callee.result.scalar? _ >>= _)
  rw [evaluated]
  refine .gives ran ⟨?_, ?_⟩ ⟨?_, ?_⟩ fun _ member => Draft.registers_put member _ _
  · rw [asked]
  · simp [simulates.calls, suits.named, Call.lower]
  · simp [Value.word?, Machine.put]
  · rw [kindEq]
    exact suits.result

end Parts

mutual

/-- The code of a scalar expression computes its value and makes its calls. -/
theorem lowerExpr_implements {isVerbose : Bool} {callees : Callees} {vars : Vars} {env : Env}
    (agree : env.Matches vars) {before after : Draft} {value : Value} : (expr : Expr) →
    before.Offers callees → expr.IsScalar callees vars →
      Gives (lowerExpr isVerbose env expr) before value after →
      ∃ code, Implements callees vars env expr before value after code
  | .decimal _ number, offers, _, lowered => by
    obtain ⟨rfl, rfl⟩ := gives_pure.mp lowered
    exact ⟨[], .refl _, offers, trivial, ⟨.dect, rfl, rfl⟩, fun _ _ _ _ _ simulates _ =>
      .pure simulates ⟨rfl, rfl⟩⟩
  | .boolean _ truth, offers, _, lowered => by
    obtain ⟨rfl, rfl⟩ := gives_pure.mp lowered
    exact ⟨[], .refl _, offers, trivial, ⟨.boolean, rfl, rfl⟩, fun _ _ _ _ _ simulates _ =>
      .pure simulates ⟨rfl, rfl⟩⟩
  | .name _ ident, offers, isScalar, lowered => by
    cases isScalar with
    | name known scalar => exact implements_name agree offers known scalar lowered
  | .rev _ operand, offers, isScalar, lowered => by
    cases isScalar with
    | rev isScalar =>
      obtain ⟨truth, _, operandLowered, isTruth, rfl, rfl⟩ := gives_rev.mp lowered
      obtain ⟨code, implements⟩ := lowerExpr_implements agree operand offers isScalar operandLowered
      exact ⟨_, implements_rev implements isTruth⟩
  | .binary _ op lhs rhs, offers, isScalar, lowered => by
    cases isScalar with
    | binary left right =>
      simp only [lowerExpr, gives_bind] at lowered
      obtain ⟨_, _, leftLowered, _, _, rightLowered, combined⟩ := lowered
      obtain ⟨code, first⟩ := lowerExpr_implements agree lhs offers left leftLowered
      obtain ⟨more, second⟩ := lowerExpr_implements agree rhs first.offers right rightLowered
      exact implements_binary first second combined
  | .exec _ ident arguments, offers, isScalar, lowered => by
    cases isScalar with
    | @exec _ _ _ callee known scalar all =>
      obtain ⟨function, values, _, operation, found, count, argumentsLowered, checked, rfl, rfl⟩ :=
        gives_exec.mp lowered
      have suits := offers ident.text callee function known found
      -- Functions of scalars take nothing that would have to be turned into a pointer.
      have uncast (i : Nat) : i ∉ (before.session.casts.lookup function.name).getD [] := by
        rw [suits.named, suits.casts]
        intro anything
        obtain ⟨_, differs, _⟩ := scalar.params _ (mem_of_getElem? anything)
        cases differs
      obtain ⟨code, implements⟩ :=
        lowerArguments_implements agree arguments offers all uncast argumentsLowered
      have total : values.length = function.signature.params.length := by
        rw [implements.count, count, suits.count, suits.params, length_map]
      obtain ⟨_, rfl⟩ := (checkCall_eq_ok total).mp checked
      exact ⟨_, implements_exec implements known scalar suits _⟩
  | .string .., _, isScalar, _ | .addressOf .., _, isScalar, _ | .deref .., _, isScalar, _
  | .unknown _, _, isScalar, _ => by cases isScalar

theorem lowerArguments_implements {isVerbose : Bool} {callees : Callees} {vars : Vars} {env : Env}
    (agree : env.Matches vars) {before after : Draft} {casts : List Nat} {position : Nat}
    {values : List Value} : (arguments : List Expr) → before.Offers callees →
      (∀ argument ∈ arguments, argument.IsScalar callees vars) → (∀ i, i ∉ casts) →
      Gives (lowerArguments isVerbose env casts position arguments) before values after →
      ∃ code, ImplementsAll callees vars env arguments before values after code
  | [], offers, _, _, lowered => by
    obtain ⟨rfl, rfl⟩ := gives_pure.mp lowered
    exact ⟨[], .refl _, offers, rfl, by simp, fun _ _ _ _ _ simulates _ => .pure simulates rfl⟩
  | argument :: arguments, offers, all, uncast, lowered => by
    rw [gives_lowerArguments_cons] at lowered
    obtain ⟨operand, between, passed, _, rest, argumentLowered, passes, restLowered, rfl⟩ := lowered
    obtain ⟨rfl, rfl⟩ : passed = operand ∧ _ := by simpa [Passes, uncast] using passes
    obtain ⟨code, first⟩ := lowerExpr_implements agree argument offers (all argument mem_cons_self)
      argumentLowered
    obtain ⟨more, others⟩ := lowerArguments_implements agree arguments first.offers
      (fun other member => all other (mem_cons_of_mem _ member)) uncast restLowered
    exact ⟨_, implementsAll_cons first others⟩

end

theorem Draft.Ready.offers {draft : Draft} {callees : Callees} (ready : draft.Ready callees) :
    draft.Offers callees := by
  intro name callee function known found
  obtain ⟨other, located, suits⟩ := ready.present name callee known
  -- Only one function is found under a name.
  cases found.symm.trans located
  exact suits

/-- Lowering a scalar expression only adds instructions to the current block. A machine that runs
them stops exactly if the expression has no value. Otherwise it ends with the value where the code
expects it, having made the calls of the expression, each once and in order. -/
theorem lowerExpr_computes {isVerbose : Bool} {callees : Callees} {vars : Vars} {env : Env}
    {before after : Draft} {expr : Expr} {value : Ir.Value} (offers : before.Offers callees)
    (agree : env.Matches vars) (isScalar : expr.IsScalar callees vars)
    (lowered : Gives (lowerExpr isVerbose env expr) before value after) :
    ∃ code, Appends before code after ∧
      ∀ (oracle : Ir.Oracle) (places : String → Nat) (machine : Ir.Machine),
        env.Placed places before.function.scope.used machine →
        (∀ operand, Rule.construct .negExpr [.expr operand] = .ok (.expr expr) →
          expr.eval? (answersBehind oracle machine.calls) callees vars places ⟨machine.memory, []⟩ =
            (operand.eval? (answersBehind oracle machine.calls) callees vars places
              ⟨machine.memory, []⟩).bind fun (scalar, world) =>
                scalar.negative?.map (·, world)) ∧
        match expr.eval? (answersBehind oracle machine.calls) callees vars places
            ⟨machine.memory, []⟩ with
        | none => Ir.run oracle code machine = none
        | some (scalar, world) => ∃ final, Ir.run oracle code machine = some final ∧
            value.word? final.registers = some scalar.word ∧ final.memory = world.memory ∧
            final.calls = machine.calls ++ world.calls.map Call.lower ∧
            world.calls.map (·.function) = expr.execs ∧
            ∀ name ∈ before.function.scope.used,
              final.registers name = machine.registers name := by
  obtain ⟨code, implements⟩ := lowerExpr_implements agree expr offers isScalar lowered
  refine ⟨code, implements.appends, fun oracle places machine placed =>
    ⟨fun operand written => Expr.eval?_negative written, ?_⟩⟩
  have computes := implements.computes oracle machine.calls places machine ⟨machine.memory, []⟩
    ⟨rfl, by simp⟩ placed
  cases evaluated : expr.eval? (answersBehind oracle machine.calls) callees vars places
      ⟨machine.memory, []⟩ with
  | none =>
    rw [evaluated] at computes
    cases computes with
    | stops stuck => exact stuck
  | some pair =>
    obtain ⟨scalar, world⟩ := pair
    rw [evaluated] at computes
    cases computes with
    | gives ran simulates held kept =>
      have order : world.calls.map (·.function) = expr.execs := by
        simpa using expr.calls_eval? evaluated
      exact ⟨_, ran, held.1, simulates.memory, simulates.calls, order, kept⟩

namespace QuotientOfCalls

/-- There is one function, of a number. -/
def offered : Callees := fun name =>
  if name = "f" then some ⟨[.exactly .dect], .dect⟩ else none

/-- A function with memory for a variable, behind that function. -/
def draft : Draft :=
  let known : Session := { globals := [.function (.declare "1eft.f" ⟨.i64, [.i64], false⟩)] }
  let started : Draft := { session := known, function := .declare "1eft.start" ⟨.i64, [], false⟩ }
  (started.grow "entry").write "x" (.alloca .i64)

/-- The quotient of `f` at the negative of the variable, and of `f` at the variable. -/
def expr : Expr :=
  let x : Expr := .name ⟨1, 1⟩ ⟨⟨1, 1⟩, "x"⟩
  let f : Ident := ⟨⟨1, 1⟩, "f"⟩
  .binary ⟨1, 1⟩ .div (.exec ⟨1, 1⟩ f [.binary ⟨1, 1⟩ .sub (.decimal ⟨1, 1⟩ 0) x])
    (.exec ⟨1, 1⟩ f [x])

def env : Env := [("x", .register "x" (.pointer .i64))]

/-- The variable stands at the first place, and is five. -/
def machine : Machine where
  registers name := if name = "x" then some (.address 1) else none
  memory _ := 5
  calls := []

/-- The first call gives seven, any other minus two. -/
def oracle : Ir.Oracle := fun earlier _ memory => (if earlier.isEmpty then 7 else -2, memory)

theorem offers_draft : draft.Offers offered := by
  intro name callee function known found
  simp only [offered, Option.ite_none_right_eq_some, Option.some.injEq] at known
  obtain ⟨rfl, rfl⟩ := known
  cases found
  have uncast : draft.session.casts = [] := rfl
  exact ⟨rfl, rfl, rfl, rfl, fun i => by cases i <;> simp [uncast]⟩

theorem isScalar_expr : expr.IsScalar offered [("x", .dect)] := by
  have isNumber : Expr.IsScalar offered [("x", .dect)] (.name ⟨1, 1⟩ ⟨⟨1, 1⟩, "x"⟩) := .name rfl rfl
  have scalar : Callee.IsScalar ⟨[.exactly .dect], .dect⟩ := ⟨by simp [Kind.isScalar], rfl⟩
  refine .binary (.exec rfl scalar ?_) (.exec rfl scalar ?_)
  · simpa using .binary .decimal isNumber
  · simpa using isNumber

theorem matches_env : env.Matches [("x", .dect)] := by
  intro name
  by_cases same : name = "x"
  · subst same
    rfl
  · have other : (name == "x") = false := by simpa using same
    simp [env, lookup_cons, other]

theorem placed_env : env.Placed (fun _ => 1) draft.function.scope.used machine := by
  intro name address known
  by_cases same : name = "x"
  · subst same
    cases known
    exact ⟨"x", _, rfl, by decide, rfl⟩
  · have other : (name == "x") = false := by simpa using same
    simp [env, lookup_cons, other] at known

end QuotientOfCalls

open QuotientOfCalls in
/-- The quotient is rounded towards zero, and the call on the left is made first. -/
theorem lowerExpr_computes_quotient :
    draft.Offers offered ∧ env.Matches [("x", .dect)] ∧ expr.IsScalar offered [("x", .dect)] ∧
      env.Placed (fun _ => 1) draft.function.scope.used machine ∧
      ∃ value after code final, Gives (lowerExpr true env expr) draft value after ∧
        Appends draft code after ∧ Ir.run oracle code machine = some final ∧
        value.word? final.registers = some (.int 64 (-3)) ∧
        final.calls = [⟨"1eft.f", [.int 64 (-5)]⟩, ⟨"1eft.f", [.int 64 5]⟩] := by
  have lowered : ∃ value after, Gives (lowerExpr true env expr) draft value after :=
    ⟨_, _, rfl⟩
  obtain ⟨value, after, lowered⟩ := lowered
  obtain ⟨code, appends, computes⟩ :=
    lowerExpr_computes offers_draft matches_env isScalar_expr lowered
  obtain ⟨final, ran, held, _, calls, _⟩ := (computes oracle _ machine placed_env).2
  exact ⟨offers_draft, matches_env, isScalar_expr, placed_env, value, after, code, final, lowered,
    appends, ran, held, calls⟩

end LeftHand
