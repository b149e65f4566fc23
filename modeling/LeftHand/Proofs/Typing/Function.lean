import LeftHand.Proofs.Lower.Function
import LeftHand.Proofs.Typing.Stmt

/-!
A function is added to a module if and only if its name is new, its types point to no void, it
returns what it must, and its statements keep the rules.
-/

namespace LeftHand

open Ir List

variable {isVerbose : Bool} {before after : Draft} {env env' : Env} {vars : Vars}
  {params : List (String × Value)}

/-- A function that keeps the rules behind some others. -/
structure Function.WellFormed (earlier : List Function) (function : Function) : Prop where
  new : callees earlier function.ident.text = none
  proper : function.type.pointsToVoid = false
  paramsProper : ∀ param ∈ function.params, param.type.pointsToVoid = false
  returns : function.type.isVoid = false → function.body.statements.any Stmt.isRet = true
  typed : (Part.body function.body.statements).WellTyped (callees (earlier ++ [function]))
    function.vars

/-- A function of a program text: its types are types, and no variable of its is void. -/
structure Function.Solid (function : Function) : Prop where
  known : function.type.isKnown = true
  params : ∀ param ∈ function.params, param.type.isSolid = true
  declares : ∀ type ∈ bodyDeclares function.body.statements, type.isSolid = true

section Callees

variable {earlier : List Function} {function : Function}

theorem callees_append_self (new : callees earlier function.ident.text = none) :
    callees (earlier ++ [function]) function.ident.text = some function.callee := by
  -- No function before it has the name.
  have unknown : earlier.find? (·.ident.text == function.ident.text) = none := by
    cases found : earlier.find? (·.ident.text == function.ident.text) with
    | none => rfl
    | some other => simp [callees, found] at new
  simp [callees, find?_append, unknown]

theorem callees_append_of_ne {name : String} (other : name ≠ function.ident.text) :
    callees (earlier ++ [function]) name = callees earlier name := by
  have elsewhere : (function.ident.text == name) = false := by simpa using Ne.symm other
  simp [callees, find?_append, elsewhere]

end Callees

theorem functionName_injective : Function.Injective functionName := by
  intro name other same
  rwa [functionName, functionName, String.append_right_inj] at same

/-- A name is taken in the module exactly if a function can be called by it. -/
theorem Session.Ready.isTaken_eq_false {callees : Callees} {session : Session}
    (ready : session.Ready callees) (name : String) :
    session.isTaken (functionName name) = false ↔ callees name = none := by
  have full : (functionName name).isEmpty = false := by simp [functionName]
  simp only [isTaken, full, Bool.false_or, any_eq_false, beq_iff_eq]
  constructor
  · intro free
    by_contra known
    -- A function that can be called stands in the module.
    obtain ⟨callee, known⟩ := Option.ne_none_iff_exists'.mp known
    obtain ⟨function, located, suits⟩ := ready.present name callee known
    exact free _ (mem_of_find?_eq_some located) suits.named
  · intro unknown
    exact (ready.absent name unknown).1

/-- With a new function behind the globals, it can be called as well. -/
theorem Provides.define {earlier : List Function} {function : Function}
    {globals : List Global} {casts : List (String × List Nat)} {counters : List (String × Nat)}
    (provided : Provides (callees earlier) globals casts counters)
    (new : callees earlier function.ident.text = none) {code : Ir.Function}
    (suits : code.Suits casts function.ident.text function.callee) :
    Provides (callees (earlier ++ [function])) (globals ++ [.function code]) casts counters := by
  -- Names that differ from the new one are free as before.
  have avoids {wanted : String} (unnamed : ∀ global ∈ globals, global.name ≠ wanted)
      (other : functionName function.ident.text ≠ wanted) :
      ∀ global ∈ globals ++ [.function code], global.name ≠ wanted :=
    unnamed_concat unnamed (suits.named.trans_ne other)
  have unnamed := (provided.absent _ new).1
  refine ⟨?_, fun wanted unknown => ?_, fun wanted callee known => ?_,
    fun n unused => avoids (provided.spare n unused) (constantNumbered_ne_functionName n _).symm,
    fun wanted member => avoids (provided.free wanted member) ?_, ?_⟩
  · refine nodup_map_concat provided.distinct fun global inside same => ?_
    exact unnamed global inside (same.trans suits.named)
  · have other : wanted ≠ function.ident.text := by
      intro same
      rw [same, callees_append_self new] at unknown
      cases unknown
    rw [callees_append_of_ne other] at unknown
    obtain ⟨free, uncast⟩ := provided.absent wanted unknown
    exact ⟨avoids free fun same => other (functionName_injective same).symm, uncast⟩
  · by_cases same : wanted = function.ident.text
    · -- The new function is the only one of its name.
      subst same
      obtain rfl := Option.some.inj ((callees_append_self new).symm.trans known)
      have none : globals.find? (·.name == functionName function.ident.text) = none := by
        simpa using unnamed
      exact ⟨code, by simp [find?_append, none, suits.named], suits⟩
    · rw [callees_append_of_ne same] at known
      obtain ⟨found, located, foundSuits⟩ := provided.present wanted callee known
      exact ⟨found, by rw [find?_append, located, Option.some_or], foundSuits⟩
  · simp only [mem_cons, not_mem_nil, or_false] at member
    rcases member with rfl | rfl <;> simp [functionName, String.ext_iff, Libc.name]
  · obtain ⟨found, located, seeds⟩ := provided.seeds
    exact ⟨found, by rw [find?_append, located, Option.some_or], seeds⟩

theorem signature_eq_ok {function : Function} {signature : Signature} :
    function.signature = .ok signature ↔
      (function.type.isKnown = true ∧ function.type.pointsToVoid = false) ∧
        (∀ param ∈ function.params, param.type.isKnown = true ∧ param.type.pointsToVoid = false) ∧
        signature =
          ⟨function.type.kind.lower, function.params.map (·.type.kind.lower), false⟩ := by
  -- The parameters are lowered one by one.
  have each (params : List Param) (lowered : List Ir.Ty) :
      (params.mapM fun param => lowerType false param.type) = .ok lowered ↔
        (∀ param ∈ params, param.type.isKnown = true ∧ param.type.pointsToVoid = false) ∧
          lowered = params.map (·.type.kind.lower) := by
    induction params generalizing lowered with
    | nil =>
      rw [mapM_nil]
      constructor
      · intro same
        cases same
        exact ⟨by simp, rfl⟩
      · intro same
        rw [same.2]
        rfl
    | cons param params ih =>
      simp only [mapM_cons, bind_eq_ok, lowerType_eq_ok, ih, forall_mem_cons,
        map_cons]
      constructor
      · rintro ⟨_, ⟨known, proper, rfl⟩, _, ⟨others, rfl⟩, same⟩
        cases same
        exact ⟨⟨⟨known, proper⟩, others⟩, rfl⟩
      · rintro ⟨⟨⟨known, proper⟩, others⟩, rfl⟩
        exact ⟨_, ⟨known, proper, rfl⟩, _, ⟨others, rfl⟩, rfl⟩
  simp only [Function.signature, bind_eq_ok, lowerType_eq_ok, each]
  constructor
  · rintro ⟨_, ⟨known, proper, rfl⟩, _, ⟨others, rfl⟩, same⟩
    cases same
    exact ⟨⟨known, proper⟩, others, rfl⟩
  · rintro ⟨⟨known, proper⟩, others, rfl⟩
    exact ⟨_, ⟨known, proper, rfl⟩, _, ⟨others, rfl⟩, rfl⟩

section Params

variable {callees : Callees}

/-- Parameters are variables; those that come later hide earlier ones. -/
theorem lowerParams_sound {kinds : Vars}
    (types : params.map (fun param => (param.1, param.2.type)) =
      kinds.map fun param => (param.1, param.2.lower)) (agree : env.Matches vars)
    (ready : before.Ready callees) (lowered : Gives (lowerParams params env) before env' after) :
    after.Ready callees ∧ env'.Matches (kinds.reverse ++ vars) := by
  induction params generalizing kinds env vars before with
  | nil =>
    obtain ⟨rfl, rfl⟩ := gives_pure.mp lowered
    obtain rfl : kinds = [] := by simpa using types.symm
    exact ⟨ready, agree⟩
  | cons param params ih =>
    cases kinds with
    | nil => cases types
    | cons kind kinds =>
      obtain ⟨name, value⟩ := param
      obtain ⟨text, kind⟩ := kind
      simp only [map_cons, List.cons.injEq, Prod.mk.injEq] at types
      obtain ⟨⟨rfl, typeEq⟩, types⟩ := types
      obtain ⟨_, lowered⟩ := gives_lowerParams_cons.mp lowered
      have declared : Env.Matches ((name, .register (before.named name) (.pointer value.type)) :: env)
          ((name, kind) :: vars) := agree.cons (by simp [typeEq]) name
      obtain ⟨ready, agree⟩ := ih types declared ((ready.write ..).write ..) lowered
      exact ⟨ready, by simpa using agree⟩

theorem lowerParams_complete (full : ∀ param ∈ params, param.2.type ≠ .void) :
    ∃ env' after, Gives (lowerParams params env) before env' after := by
  induction params generalizing env before with
  | nil => exact ⟨env, before, by simp [lowerParams]⟩
  | cons param params ih =>
    obtain ⟨name, value⟩ := param
    have others (env : Env) (before : Draft) :
        ∃ env' after, Gives (lowerParams params env) before env' after :=
      ih fun other member => full other (mem_cons_of_mem _ member)
    let address := Value.register (before.named name) (.pointer value.type)
    obtain ⟨env', after, lowered⟩ := others ((name, address) :: env)
      ((before.write name (.alloca value.type)).write "" (.store value address))
    exact ⟨env', after, gives_lowerParams_cons.mpr ⟨full _ mem_cons_self, lowered⟩⟩

end Params

section Build

variable {earlier : List Function} {function : Function} {session after : Session}

/-- The draft of a function of the program in which nothing has been written yet. -/
abbrev Function.opening (function : Function) (session : Session) : Draft :=
  .opening session (functionName function.ident.text)
    ⟨function.type.kind.lower, function.params.map (·.type.kind.lower), false⟩

theorem Function.ready_opening (ready : session.Ready (callees earlier))
    (new : callees earlier function.ident.text = none) :
    (function.opening session).Ready (callees (earlier ++ [function])) := by
  refine Provides.define ready new ⟨rfl, ?_, ?_, rfl, fun i => ?_⟩
  · simp [Draft.opening, Draft.grow, Ir.Function.declare, callee, Parameter.lower]
  · simp [Draft.opening, Draft.grow, Ir.Function.declare, callee]
  · -- Functions of the program take values of their own kinds only.
    have uncast : session.casts.lookup (functionName function.ident.text) = none :=
      (ready.absent _ new).2
    simp [uncast, callee, getElem?_map]

theorem Function.types_bound (function : Function) (session : Session) :
    ((function.opening session).bound function).map (fun param => (param.1, param.2.type)) =
      (function.params.map fun param => (param.ident.text, param.type.kind)).map
        fun param => (param.1, param.2.lower) := by
  -- Names and types of the parameters come from two lists of one length.
  have pairs (params : List Param) (names : List String) (count : names.length = params.length) :
      ((params.map (·.ident.text)).zip
          (List.zipWith Value.register names (params.map (·.type.kind.lower)))).map
          (fun param => (param.1, param.2.type)) =
        (params.map fun param => (param.ident.text, param.type.kind)).map
          fun param => (param.1, param.2.lower) := by
    induction params generalizing names with
    | nil => rfl
    | cons param params ih =>
      cases names with
      | nil => cases count
      | cons name names => simpa using ih names (by simpa using count)
  refine pairs function.params _ ?_
  simp [Draft.opening, Draft.grow, Ir.Function.declare]

variable (ready : session.Ready (callees earlier))

include ready

theorem Function.start_sound {start : Draft} (new : callees earlier function.ident.text = none)
    (params : Gives (lowerParams ((function.opening session).bound function) [])
      (function.opening session) env start) :
    start.Stage (callees (earlier ++ [function])) function.type.kind.lower [] ∧
      env.Matches function.vars := by
  obtain ⟨code, appended⟩ := lowerParams_appends params
  have empty : Env.Matches [] [] := fun _ => rfl
  obtain ⟨startReady, agree⟩ := lowerParams_sound (function.types_bound session) empty
    (ready_opening ready new) params
  rw [List.append_nil] at agree
  exact ⟨⟨(Draft.shape_opening ..).appends appended,
    appended.isEnded_eq.trans (Draft.isEnded_opening ..), startReady, by rw [appended.signature]; rfl⟩,
    agree⟩

/-- A function that is added keeps the rules, and can be called from then on. -/
theorem function_sound (built : Gives (Build.function isVerbose function) session () after) :
    function.WellFormed earlier ∧ after.Ready (callees (earlier ++ [function])) := by
  obtain ⟨signature, accepted, free, final, written, rfl⟩ := gives_function.mp built
  obtain ⟨start, log, derived⟩ := gives_lowerFunctionBody.mp written
  obtain ⟨⟨_, proper⟩, paramsKnown, rfl⟩ := signature_eq_ok.mp accepted
  have new := (ready.isTaken_eq_false _).mp free
  have paramsProper : ∀ param ∈ function.params, param.type.pointsToVoid = false :=
    fun param member => (paramsKnown param member).2
  -- Both ways to end a function begin with its parameters and its statements.
  cases derived with
  | ended params lowered isEnded =>
    obtain ⟨stage, agree⟩ := Function.start_sound ready new params
    obtain ⟨lastReady, _, typed⟩ := lowered.sound stage agree
    have returns := (lowered.isEnded_eq stage.shape stage.going).symm.trans isEnded
    exact ⟨⟨new, proper, paramsProper, fun _ => returns, typed⟩, lastReady⟩
  | fallsOff params lowered lastGoing isVoid =>
    obtain ⟨stage, agree⟩ := Function.start_sound ready new params
    obtain ⟨lastReady, _, typed⟩ := lowered.sound stage agree
    have finalReady := Draft.Ready.moves lastReady (Draft.finish_moves lastGoing .retVoid)
    exact ⟨⟨new, proper, paramsProper, by simp [isVoid], typed⟩, finalReady⟩

/-- A function of a program text that keeps the rules is added. -/
theorem function_complete (solid : function.Solid) (wellFormed : function.WellFormed earlier) :
    ∃ after, Gives (Build.function isVerbose function) session () after := by
  have paramsSolid (param : Param) (member : param ∈ function.params) :
      param.type.isKnown = true ∧ param.type.isVoid = false := by
    simpa [Ty.isSolid] using solid.params param member
  have accepted : function.signature =
      .ok ⟨function.type.kind.lower, function.params.map (·.type.kind.lower), false⟩ :=
    signature_eq_ok.mpr ⟨⟨solid.known, wellFormed.proper⟩, fun param member =>
      ⟨(paramsSolid param member).1, wellFormed.paramsProper param member⟩, rfl⟩
  -- No parameter is void, so each is given its memory.
  have full : ∀ bound ∈ (function.opening session).bound function, bound.2.type ≠ .void := by
    intro bound member isVoid
    have listed := mem_map_of_mem (f := fun param => (param.1, param.2.type)) member
    rw [function.types_bound session, map_map] at listed
    obtain ⟨param, inside, same⟩ := mem_map.mp listed
    obtain ⟨known, notVoid⟩ := paramsSolid param inside
    have lowered : param.type.kind.lower = .void := (congrArg Prod.snd same).trans isVoid
    simp [(Ty.lower_kind_eq_void known).mp lowered] at notVoid
  obtain ⟨env, start, params⟩ := lowerParams_complete full
  obtain ⟨stage, agree⟩ := Function.start_sound ready wellFormed.new params
  obtain ⟨last, lowered⟩ : ∃ last,
      Gives (lowerBody isVerbose env function.body.statements) start () last :=
    lowerBody_complete agree _ solid.declares stage wellFormed.typed
  obtain ⟨log, derived⟩ := lowerBody_lowers [0] _ lowered
  have ends : last.isEnded = _ := derived.isEnded_eq stage.shape stage.going
  -- A function that does not return by its last statement is void, and returns there.
  have written : ∃ final, Gives (lowerFunctionBody isVerbose function) (function.opening session) ()
      final := by
    cases isEnded : last.isEnded with
    | true => exact ⟨_, gives_lowerFunctionBody.mpr ⟨start, log, .ended params derived isEnded⟩⟩
    | false =>
      have isVoid : function.type.isVoid = true := by
        by_contra notVoid
        have returns := wellFormed.returns (by simpa using notVoid)
        simp [Part.isEnding, returns, isEnded] at ends
      exact ⟨_, gives_lowerFunctionBody.mpr ⟨start, _, .fallsOff params derived isEnded isVoid⟩⟩
  obtain ⟨final, written⟩ := written
  exact ⟨_, gives_function.mpr ⟨_, accepted, (ready.isTaken_eq_false _).mpr wellFormed.new, final,
    written, rfl⟩⟩

end Build

end LeftHand
