import LeftHand.Proofs.Typing.Ready

/-!
Expressions are lowered if and only if they have a kind, and the value has the type of that kind.
-/

namespace LeftHand

open Ir List

variable {kind left right : Kind} {op : BinOp} {name : String} {function : Ir.Function}
  {operation : Operation}

variable {isVerbose : Bool} {callees : Callees} {env : Env} {vars : Vars} {before after : Draft}
  {pos : Pos} {lhs rhs value : Value}

theorem Kind.exists_of_isPointer (pointer : kind.lower.isPointer = true) :
    ∃ target, kind = .pointer target := by
  cases kind with
  | pointer target => exact ⟨target, rfl⟩
  | void | dect | boolean | char => cases pointer

/-- A kind is read off a type that one kind has. -/
theorem Kind.eq_of_type (other : Kind) {type : Ir.Ty} (given : type = kind.lower)
    (same : type = other.lower) : kind = other :=
  lower_injective (given.symm.trans same)

/-- An operator has a rule for the kinds of the operands that its instruction takes. -/
theorem BinOp.exists_hasKind (lhsType : lhs.type = left.lower) (rhsType : rhs.type = right.lower)
    (same : lhs.type = rhs.type) (suits : ∀ type ∈ op.operandType?, lhs.type = type) :
    ∃ kind, op.HasKind left right kind ∧ (op.operation lhs rhs).type = kind.lower := by
  obtain rfl := Kind.eq_of_type _ lhsType (same.trans rhsType)
  cases op with
  | equals | revEquals => exact ⟨.boolean, .equality (by simp), rfl⟩
  | or | and =>
    obtain rfl := Kind.eq_of_type .boolean lhsType (suits _ rfl)
    exact ⟨_, .logic (by simp), lhsType⟩
  | less | lessEqual | greater | greaterEqual =>
    obtain rfl := Kind.eq_of_type .dect lhsType (suits _ rfl)
    exact ⟨.boolean, .order (by simp), rfl⟩
  | add | sub | mul | div | mod =>
    obtain rfl := Kind.eq_of_type .dect lhsType (suits _ rfl)
    exact ⟨_, .arith (by simp), lhsType⟩

theorem lowerBinary_sound (ready : before.Ready callees) (lhsType : lhs.type = left.lower)
    (rhsType : rhs.type = right.lower)
    (lowered : Gives (lowerBinary isVerbose pos op lhs rhs) before value after) :
    after.Ready callees ∧ ∃ kind, op.HasKind left right kind ∧ value.type = kind.lower := by
  cases BinOp.operates_of_gives lowered with
  | plain same suits =>
    exact ⟨ready.write .., BinOp.exists_hasKind lhsType rhsType same suits⟩
  | forward pointer number =>
    obtain ⟨target, rfl⟩ := Kind.exists_of_isPointer (lhsType ▸ pointer)
    obtain rfl := Kind.eq_of_type .dect rhsType number
    exact ⟨ready.write .., _, .forward, lhsType⟩
  | forwardBy pointer number =>
    obtain ⟨target, rfl⟩ := Kind.exists_of_isPointer (rhsType ▸ pointer)
    obtain rfl := Kind.eq_of_type .dect lhsType number
    exact ⟨ready.write .., _, .forwardBy, rhsType⟩
  | backward pointer number =>
    obtain ⟨target, rfl⟩ := Kind.exists_of_isPointer (lhsType ▸ pointer)
    obtain rfl := Kind.eq_of_type .dect rhsType number
    exact ⟨(ready.write ..).write .., _, .backward, lhsType⟩

theorem lowerBinary_complete (lhsType : lhs.type = left.lower) (rhsType : rhs.type = right.lower)
    (typed : op.HasKind left right kind) :
    ∃ value after, Gives (lowerBinary isVerbose pos op lhs rhs) before value after ∧
      value.type = kind.lower := by
  cases typed with
  | logic isOp | equality isOp | order isOp | arith isOp =>
    simp only [mem_cons, not_mem_nil, or_false] at isOp
    rcases isOp with rfl | rfl | rfl | rfl | rfl <;>
      simp [lowerBinary, lowerAdd, lowerSub, lhsType, rhsType, Kind.lower, Ir.Ty.isPointer]
  | forward | forwardBy | backward =>
    simp [lowerBinary, lowerAdd, lowerSub, lhsType, rhsType, Kind.lower, Ir.Ty.isPointer,
      Ty.elementAddress]

theorem Env.Matches.exists_kind (agree : env.Matches vars) (known : env.lookup name = some value) :
    ∃ kind, vars.lookup name = some kind ∧ value.type = .pointer kind.lower := by
  have same := agree name
  rw [known, Option.map_some] at same
  obtain ⟨kind, declared, placed⟩ := Option.map_eq_some_iff.mp same.symm
  exact ⟨kind, declared, placed.symm⟩

theorem Env.Matches.exists_address (agree : env.Matches vars)
    (declared : vars.lookup name = some kind) :
    ∃ address, env.lookup name = some address ∧ address.type = .pointer kind.lower := by
  have same := agree name
  rw [declared, Option.map_some] at same
  exact Option.map_eq_some_iff.mp same

theorem eq_of_zip {α : Type} [DecidableEq α] {expected given : List α}
    (count : given.length = expected.length) :
    (expected.zip given).zipIdx.find? (fun pair => pair.1.1 != pair.1.2) = none ↔
      given = expected := by
  -- The numbers of the positions play no part in the search.
  have all : (∀ pair ∈ (expected.zip given).zipIdx, pair.1.1 = pair.1.2) ↔
      ∀ pair ∈ expected.zip given, pair.1 = pair.2 := by
    constructor
    · intro equal pair member
      rw [← zipIdx_map_fst 0 (expected.zip given)] at member
      obtain ⟨numbered, inside, rfl⟩ := mem_map.mp member
      exact equal numbered inside
    · intro equal numbered inside
      exact equal numbered.1 (fst_mem_of_mem_zipIdx inside)
  simp only [find?_eq_none, bne_iff_ne, ne_eq, not_not, all]
  constructor
  · intro equal
    refine ext_getElem count fun i first second => ?_
    have inside : (expected[i], given[i]) ∈ expected.zip given := by
      rw [mem_iff_getElem]
      exact ⟨i, by simp [second, first], by simp⟩
    exact (equal _ inside).symm
  · intro same pair member
    subst same
    obtain ⟨i, inside, rfl⟩ := mem_iff_getElem.mp member
    simp

theorem exists_of_checkCall {callee : Global} {arguments : List Value}
    (checked : checkCall callee arguments = .ok operation) :
    ∃ name signature, operation = .call name signature arguments := by
  cases callee with
  | string => cases checked
  | function code =>
    rw [checkCall] at checked
    split at checked
    · cases checked
    · cases checked
      exact ⟨code.name, code.signature, rfl⟩

/-- A call is written if the values have the types that the function takes. -/
theorem checkCall_eq_ok {values : List Value}
    (count : values.length = function.signature.params.length) :
    checkCall (.function function) values = .ok operation ↔
      values.map Value.type = function.signature.params ∧
        operation = .call function.name function.signature values := by
  rw [← eq_of_zip (by simpa using count), checkCall]
  split
  · rename_i found
    simp [found]
  · rename_i found
    simp [found, eq_comm]

theorem Draft.Ready.exists_callee {draft : Draft} (ready : draft.Ready callees)
    (found : draft.callee? name = some (.function function)) :
    ∃ callee, callees name = some callee ∧ function.Suits draft.session.casts name callee := by
  cases known : callees name with
  | none =>
    have named := find?_some found
    have member := mem_of_find?_eq_some found
    exact absurd (by simpa using named) ((ready.absent name known).1 _ member)
  | some callee =>
    obtain ⟨other, located, suits⟩ := ready.present name callee known
    cases found.symm.trans located
    exact ⟨callee, rfl, suits⟩

theorem Passes.ready {casts : List Nat} {position : Nat} {operand : Value}
    (passes : Passes casts position operand before value after) (ready : before.Ready callees) :
    after.Ready callees := by
  rw [Passes] at passes
  split at passes
  · rw [passes.2]
    exact ready.write ..
  · rw [passes.2]
    exact ready

theorem Draft.Ready.constant_free {draft : Draft} (ready : draft.Ready callees) :
    draft.constant.isEmpty = false ∧ ∀ global ∈ draft.globals, global.name ≠ draft.constant := by
  rw [constant, constantName_fst]
  refine ⟨?_, ready.spare _ le_rfl⟩
  cases constantCount draft.session.counters with
  | zero => rfl
  | succ n => simp [constantNumbered]

/-- A value of a kind that a parameter takes can be passed. -/
theorem exists_passes {casts : List Nat} {position : Nat} {operand : Value}
    {parameter : Parameter} (typeEq : operand.type = kind.lower) (taken : parameter.Takes kind)
    (cast : position ∈ casts ↔ parameter = .anything) :
    ∃ passed after, Passes casts position operand before passed after ∧
      passed.type = parameter.lower := by
  cases parameter with
  | exactly wanted =>
    obtain rfl : kind = wanted := taken
    have isPlain : position ∉ casts := by simpa using cast.not
    exact ⟨operand, before, by simp [Passes, isPlain], typeEq⟩
  | anything =>
    have isCast : position ∈ casts := by simpa using cast
    by_cases same : operand.type = .bytes
    · exact ⟨operand, before, by simp [Passes, same], same⟩
    · refine ⟨.register (before.named ".voidptrcast") .bytes,
        before.write ".voidptrcast" (.cast .bitcast operand .bytes), ?_, rfl⟩
      rw [Passes, if_pos ⟨isCast, same⟩]
      exact ⟨rfl, rfl⟩

mutual

/-- An expression that is lowered has a kind. -/
theorem lowerExpr_sound (agree : env.Matches vars) {before after : Draft} {value : Value} :
    (expr : Expr) → before.Ready callees → Gives (lowerExpr isVerbose env expr) before value after →
      after.Ready callees ∧ ∃ kind, HasKind callees vars expr kind ∧ value.type = kind.lower
  | .decimal _ _, ready, lowered => by
    obtain ⟨rfl, rfl⟩ := gives_pure.mp lowered
    exact ⟨ready, _, .decimal, rfl⟩
  | .boolean _ _, ready, lowered => by
    obtain ⟨rfl, rfl⟩ := gives_pure.mp lowered
    exact ⟨ready, _, .boolean, rfl⟩
  | .string _ text, ready, lowered => by
    simp only [lowerExpr, Emit.firstByte, gives_bind, gives_addString, gives_element] at lowered
    obtain ⟨_, _, ⟨_, rfl, rfl⟩, rfl, rfl⟩ := lowered
    exact ⟨(ready.keep text).write .., _, .string, rfl⟩
  | .name _ ident, ready, lowered => by
    obtain ⟨_, known, rfl, rfl⟩ := gives_name.mp lowered
    obtain ⟨kind, declared, placed⟩ := agree.exists_kind known
    exact ⟨ready.write .., kind, .name declared, by simp [placed]⟩
  | .addressOf _ ident, ready, lowered => by
    obtain ⟨known, rfl⟩ := gives_lookupName.mp lowered
    obtain ⟨kind, declared, placed⟩ := agree.exists_kind known
    exact ⟨ready, _, .addressOf declared, placed⟩
  | .deref pos operand, ready, lowered => by
    simp only [lowerExpr, Emit.report, gives_bind, gives_allowed, gives_load] at lowered
    obtain ⟨_, _, operandLowered, pointer, rfl, rfl⟩ := lowered
    obtain ⟨ready, kind, typed, typeEq⟩ := lowerExpr_sound agree operand ready operandLowered
    obtain ⟨target, rfl⟩ := Kind.exists_of_isPointer (typeEq ▸ pointer)
    exact ⟨ready.write .., target, .deref typed, by simp [typeEq, Kind.lower]⟩
  | .exec pos ident arguments, ready, lowered => by
    obtain ⟨function, values, _, operation, found, count, argumentsLowered, checked, rfl, rfl⟩ :=
      gives_exec.mp lowered
    obtain ⟨callee, known, suits⟩ := ready.exists_callee found
    rw [suits.named] at argumentsLowered
    obtain ⟨ready, length, typed⟩ := lowerArguments_sound agree arguments ready argumentsLowered
      (fun i => by simpa using suits.casts i)
    have total : values.length = function.signature.params.length := by
      rw [length, count, suits.count, suits.params, length_map]
    obtain ⟨types, rfl⟩ := (checkCall_eq_ok total).mp checked
    rw [suits.params] at types
    exact ⟨ready.write .., callee.result, .exec known (typed types), suits.result⟩
  | .rev pos operand, ready, lowered => by
    obtain ⟨_, _, operandLowered, truth, rfl, rfl⟩ := gives_rev.mp lowered
    obtain ⟨ready, kind, typed, typeEq⟩ := lowerExpr_sound agree operand ready operandLowered
    obtain rfl := Kind.eq_of_type .boolean typeEq truth
    exact ⟨ready.write .., _, .rev typed, typeEq⟩
  | .binary pos op lhs rhs, ready, lowered => by
    simp only [lowerExpr, gives_bind] at lowered
    obtain ⟨_, _, leftLowered, _, _, rightLowered, combined⟩ := lowered
    obtain ⟨ready, left, leftTyped, leftType⟩ := lowerExpr_sound agree lhs ready leftLowered
    obtain ⟨ready, right, rightTyped, rightType⟩ := lowerExpr_sound agree rhs ready rightLowered
    obtain ⟨ready, kind, allowed, typeEq⟩ := lowerBinary_sound ready leftType rightType combined
    exact ⟨ready, kind, .binary leftTyped rightTyped allowed, typeEq⟩
  | .unknown node, _, lowered => by
    simp only [lowerExpr, gives_report] at lowered

theorem lowerArguments_sound (agree : env.Matches vars) {before after : Draft} {casts : List Nat}
    {position : Nat} {values : List Value} {params : List Parameter} :
    (arguments : List Expr) → before.Ready callees →
      Gives (lowerArguments isVerbose env casts position arguments) before values after →
      (∀ i, position + i ∈ casts ↔ params[i]? = some .anything) →
      after.Ready callees ∧ values.length = arguments.length ∧
        (values.map Value.type = params.map Parameter.lower →
          HaveKinds callees vars arguments params)
  | [], ready, lowered, _ => by
    obtain ⟨rfl, rfl⟩ := gives_pure.mp lowered
    refine ⟨ready, rfl, fun same => ?_⟩
    obtain rfl : params = [] := by simpa using same.symm
    exact .nil
  | argument :: arguments, ready, lowered, cast => by
    rw [gives_lowerArguments_cons] at lowered
    obtain ⟨operand, _, passed, between, rest, argumentLowered, passes, restLowered, rfl⟩ := lowered
    obtain ⟨ready, kind, typed, typeEq⟩ := lowerExpr_sound agree argument ready argumentLowered
    have later (i : Nat) : position + 1 + i ∈ casts ↔ params.tail[i]? = some .anything := by
      rw [Nat.add_assoc, Nat.add_comm 1 i, cast (i + 1), getElem?_tail]
    obtain ⟨ready, length, others⟩ :=
      lowerArguments_sound agree arguments (passes.ready ready) restLowered later
    refine ⟨ready, by simp [length], fun same => ?_⟩
    cases params with
    | nil => cases same
    | cons parameter params =>
      simp only [map_cons, List.cons.injEq] at same
      refine .cons typed ?_ (others same.2)
      -- Where anything is taken the kind is free; elsewhere the value is passed as it is.
      cases parameter with
      | anything => trivial
      | exactly wanted =>
        have isPlain : position ∉ casts := by simpa using (cast 0).not
        obtain ⟨rfl, rfl⟩ : passed = operand ∧ _ := by simpa [Passes, isPlain] using passes
        exact Kind.eq_of_type _ typeEq same.1

end

mutual

/-- An expression that has a kind is lowered. -/
theorem lowerExpr_complete (agree : env.Matches vars) {before : Draft} {kind : Kind} :
    (expr : Expr) → before.Ready callees → HasKind callees vars expr kind →
      ∃ value after, Gives (lowerExpr isVerbose env expr) before value after ∧
        value.type = kind.lower
  | .decimal _ _, _, typed | .boolean _ _, _, typed => by
    cases typed
    exact ⟨_, _, gives_pure.mpr ⟨rfl, rfl⟩, rfl⟩
  | .string _ text, ready, typed => by
    cases typed
    have free := ready.constant_free
    simp only [lowerExpr, Emit.firstByte, gives_bind, gives_addString, gives_element]
    exact ⟨_, _, ⟨_, _, ⟨free, rfl, rfl⟩, rfl, rfl⟩, rfl⟩
  | .name _ ident, _, typed => by
    cases typed with
    | name declared =>
      obtain ⟨address, known, placed⟩ := agree.exists_address declared
      exact ⟨_, _, gives_name.mpr ⟨_, known, rfl, rfl⟩, by simp [placed]⟩
  | .addressOf _ ident, _, typed => by
    cases typed with
    | addressOf declared =>
      obtain ⟨address, known, placed⟩ := agree.exists_address declared
      exact ⟨_, _, gives_lookupName.mpr ⟨known, rfl⟩, placed⟩
  | .deref pos operand, ready, typed => by
    cases typed with
    | deref typed =>
      obtain ⟨address, between, lowered, placed⟩ := lowerExpr_complete agree operand ready typed
      simp only [lowerExpr, Emit.report, gives_bind, gives_allowed, gives_load]
      refine ⟨_, _, ⟨_, _, lowered, ?_, rfl, rfl⟩, ?_⟩
      · rw [placed]
        rfl
      · simp [placed, Kind.lower]
  | .exec pos ident arguments, ready, typed => by
    cases typed with
    | @exec _ _ _ callee known given =>
      obtain ⟨function, found, suits⟩ := ready.present ident.text callee known
      have cast (i : Nat) : 0 + i ∈ (before.session.casts.lookup function.name).getD [] ↔
          callee.params[i]? = some .anything := by
        simpa [suits.named] using suits.casts i
      obtain ⟨values, between, lowered, types⟩ :=
        lowerArguments_complete agree arguments ready given cast
      have count := (lowerArguments_sound agree arguments ready lowered cast).2.1
      have total : arguments.length = function.params.length := by
        rw [← count, ← length_map Value.type, types, length_map, suits.count]
      have checked : checkCall (.function function) values =
          .ok (.call function.name function.signature values) := by
        refine (checkCall_eq_ok ?_).mpr ⟨types.trans suits.params.symm, rfl⟩
        rw [count, total, suits.count, suits.params, length_map]
      exact ⟨_, _, gives_exec.mpr ⟨function, values, between, _, found, total, lowered, checked, rfl, rfl⟩,
        suits.result⟩
  | .rev pos operand, ready, typed => by
    cases typed with
    | rev typed =>
      obtain ⟨truth, between, lowered, typeEq⟩ := lowerExpr_complete agree operand ready typed
      exact ⟨_, _, gives_rev.mpr ⟨_, _, lowered, typeEq, rfl, rfl⟩, typeEq⟩
  | .binary pos op lhs rhs, ready, typed => by
    cases typed with
    | binary leftTyped rightTyped allowed =>
      obtain ⟨left, between, leftLowered, leftType⟩ := lowerExpr_complete agree lhs ready leftTyped
      obtain ⟨ready, _⟩ := lowerExpr_sound agree lhs ready leftLowered
      obtain ⟨right, last, rightLowered, rightType⟩ := lowerExpr_complete agree rhs ready rightTyped
      obtain ⟨value, after, combined, typeEq⟩ := lowerBinary_complete leftType rightType allowed
      simp only [lowerExpr, gives_bind]
      exact ⟨_, _, ⟨_, _, leftLowered, _, _, rightLowered, combined⟩, typeEq⟩
  | .unknown node, _, typed => by cases typed

theorem lowerArguments_complete (agree : env.Matches vars) {before : Draft} {casts : List Nat}
    {position : Nat} {params : List Parameter} : (arguments : List Expr) → before.Ready callees →
      HaveKinds callees vars arguments params →
      (∀ i, position + i ∈ casts ↔ params[i]? = some .anything) →
      ∃ values after, Gives (lowerArguments isVerbose env casts position arguments) before values
          after ∧ values.map Value.type = params.map Parameter.lower
  | [], _, given, _ => by
    cases given
    simp only [lowerArguments, gives_pure]
    exact ⟨_, _, ⟨rfl, rfl⟩, rfl⟩
  | argument :: arguments, ready, given, cast => by
    cases given with
    | @cons _ _ parameter params kind typed taken given =>
      obtain ⟨operand, lowered, argumentLowered, typeEq⟩ :=
        lowerExpr_complete agree argument ready typed
      obtain ⟨ready, _⟩ := lowerExpr_sound agree argument ready argumentLowered
      obtain ⟨passed, between, passes, passedType⟩ : ∃ passed between,
          Passes casts position operand lowered passed between ∧ passed.type = parameter.lower :=
        exists_passes typeEq taken (by simpa using cast 0)
      have later (i : Nat) : position + 1 + i ∈ casts ↔ params[i]? = some .anything := by
        rw [Nat.add_assoc, Nat.add_comm 1 i, cast (i + 1), getElem?_cons_succ]
      obtain ⟨rest, after, restLowered, types⟩ :=
        lowerArguments_complete agree arguments (passes.ready ready) given later
      refine ⟨passed :: rest, after, ?_, by simp [passedType, types]⟩
      exact gives_lowerArguments_cons.mpr
        ⟨operand, lowered, passed, between, rest, argumentLowered, passes, restLowered, rfl⟩

end

end LeftHand
