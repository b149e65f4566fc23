import LeftHand.Proofs.Binding.Pieces
import LeftHand.Proofs.Flow.Refinement
import LeftHand.Proofs.Typing.Function

/-!
The code of a whole function, taken apart: first the parameters take memory, then every live place
has its piece of code, and at each place exactly those variables are in scope that the program puts
there.
-/

namespace LeftHand

open Ir List

variable {index : Nat} {value address : Value} {code : List Instr} {function : Function}

/-- Memory that is taken for the value of a parameter, which is stored there at once. -/
def TakesParam (code : List Instr) (index : Nat) (value address : Value) : Prop :=
  ∃ register stored, code[2 * index]? = some ⟨register, .alloca value.type⟩ ∧
    code[2 * index + 1]? = some ⟨stored, .store value address⟩ ∧
    address = .register register (.pointer value.type)

/-- The code of a function, the instructions for its parameters, and the code of its places. -/
structure Listing where
  code : Ir.Function
  prologue : List Instr
  log : Log

/-- A listing of a function: it has one piece of code for each live place, in order. The
instructions for the parameters open the first block, and each piece stands in some block. Together
these are all the instructions of the code, each as often as it stands there. -/
structure Function.HasListing (function : Function) (listing : Listing) : Prop where
  visits : listing.log.visits = function.visits
  opens : ∃ block, listing.code.blocks.head? = some block ∧ listing.prologue <+: block.code
  pieces : ∀ entry ∈ listing.log, ∃ block ∈ listing.code.blocks, instrsOf entry.2 <:+: block.code
  whole : listing.code.instrs.Perm
    (listing.prologue ++ listing.log.flatMap fun entry => instrsOf entry.2)

/-- Memory that a function takes for what one of its binders brings. -/
inductive Function.Takes (function : Function) (listing : Listing) :
    Binder → String → Ty → Value → Prop where
  | param {index param argument address} (located : function.params[index]? = some param)
      (given : listing.code.arguments[index]? = some argument)
      (typed : lowerType false param.type = .ok argument.type)
      (taken : TakesParam listing.prologue index argument address) :
      function.Takes listing (.param index) param.ident.text param.type address
  | declared {site name type address} (taken : listing.log.Takes site name type address) :
      function.Takes listing (.declared site) name type address

/-- A listing that tells all about the variables of a function. -/
structure Function.Unfolds (isVerbose : Bool) (function : Function) (listing : Listing) : Prop
    extends function.HasListing listing where
  /-- Every parameter has memory. -/
  params : ∀ index param, function.params[index]? = some param →
    ∃ address, function.Takes listing (.param index) param.ident.text param.type address
  /-- Wherever code is written, exactly those variables are in scope whose binders come before. -/
  scopes : ∀ entry ∈ listing.log, ∀ place, entry.1.site? = some place →
    ∃ scope, Written isVerbose scope entry.1 entry.2 ∧ ∀ name address, (name, address) ∈ scope ↔
      ∃ binder type, function.Takes listing binder name type address ∧ binder.Precedes place
  /-- No memory is taken for two binders. -/
  single : ∀ binder other name otherName type otherType address,
    function.Takes listing binder name type address →
    function.Takes listing other otherName otherType address → binder = other

section Params

variable {env env' : Env} {before after : Draft} {params : List (String × Value)} {name : String}
  {signature : Signature}

theorem takesParam_cons {first second : Instr} :
    TakesParam (first :: second :: code) (index + 1) value address ↔
      TakesParam code index value address := by
  rfl

/-- Each parameter takes memory, and nothing but parameters comes into scope. -/
theorem lowerParams_takes (lowered : Gives (lowerParams params env) before env' after) :
    ∃ code, Appends before code after ∧
      (∀ index name value, params[index]? = some (name, value) →
        ∃ address, TakesParam code index value address) ∧
      ∀ name address, (name, address) ∈ env' ↔ (name, address) ∈ env ∨
        ∃ index value, params[index]? = some (name, value) ∧ TakesParam code index value address := by
  induction params generalizing env before with
  | nil =>
    obtain ⟨rfl, rfl⟩ := gives_pure.mp lowered
    exact ⟨[], .refl _, by simp, by simp⟩
  | cons param params ih =>
    obtain ⟨first, value⟩ := param
    obtain ⟨_, lowered⟩ := gives_lowerParams_cons.mp lowered
    obtain ⟨code, appended, exist, members⟩ := ih lowered
    let address := Value.register (before.named first) (.pointer value.type)
    let written := before.write first (.alloca value.type)
    -- Two instructions stand in front of those for the other parameters.
    have front : TakesParam (⟨before.named first, .alloca value.type⟩ ::
        ⟨written.named "", .store value address⟩ :: code) 0 value address :=
      ⟨_, _, rfl, rfl, rfl⟩
    refine ⟨_, ((Appends.write ..).trans (.write ..)).trans appended, ?_, ?_⟩
    · rintro (_ | index) name given located
      · cases located
        exact ⟨address, front⟩
      · exact (exist index name given located).imp fun _ => takesParam_cons.mpr
    · intro name place
      rw [members]
      constructor
      · rintro (known | ⟨index, given, located, takes⟩)
        · rcases mem_cons.mp known with same | earlier
          · cases same
            exact .inr ⟨0, value, rfl, front⟩
          · exact .inl earlier
        · exact .inr ⟨index + 1, given, located, takesParam_cons.mpr takes⟩
      · rintro (known | ⟨_ | index, given, located, takes⟩)
        · exact .inl (mem_cons_of_mem _ known)
        · cases located
          obtain ⟨_, _, taken, _, rfl⟩ := takes
          cases taken
          exact .inl mem_cons_self
        · exact .inr ⟨index, given, located, takesParam_cons.mp takes⟩

/-- The registers in use include one that a value is in. -/
def Draft.Uses (draft : Draft) (value : Value) : Prop :=
  ∃ register type, value = .register register type ∧ register ∈ draft.function.scope.used

theorem TakesParam.index_eq {other : Nat} {otherValue : Value}
    (taken : TakesParam code index value address) (distinct : (code.map (·.name)).Nodup)
    (again : TakesParam code other otherValue address) :
    index = other := by
  obtain ⟨register, _, located, _, rfl⟩ := taken
  obtain ⟨_, _, locatedAgain, _, same⟩ := again
  obtain ⟨rfl, _⟩ := Value.register.inj same
  -- Both positions have the same name, and no name stands twice.
  have named : (code.map (·.name))[2 * index]? = (code.map (·.name))[2 * other]? := by
    rw [getElem?_map, getElem?_map, located, locatedAgain]
    rfl
  have inside : 2 * index < (code.map (·.name)).length := by
    simpa using (List.getElem?_eq_some_iff.mp located).1
  have := (getElem?_inj inside distinct).mp named
  omega

theorem TakesParam.used (taken : TakesParam code index value address)
    (appended : Appends before code after) :
    after.Uses address := by
  obtain ⟨register, _, located, _, rfl⟩ := taken
  refine ⟨register, _, rfl, ?_⟩
  rw [appended.used]
  have named := mem_map_of_mem (f := Instr.name) (mem_of_getElem? located)
  exact mem_append_left _ (mem_reverse.mpr named)

theorem Spans.unused {log : Log} {site : Site} {type : Ty} (spans : Spans before log after)
    (takes : log.Takes site name type address) :
    ¬ before.Uses address := by
  obtain ⟨_, _, _, register, taken, _, rfl⟩ := takes.exists_entry
  rintro ⟨_, _, same, used⟩
  cases same
  exact spans.fresh taken (mem_singleton_self _) used

theorem Draft.getElem?_bound {draft : Draft} :
    (draft.bound function)[index]? = some (name, value) ↔
      ∃ param, function.params[index]? = some param ∧ param.ident.text = name ∧
        draft.function.arguments[index]? = some value := by
  rw [Draft.bound, getElem?_zip_eq_some, getElem?_map, Option.map_eq_some_iff]
  constructor
  · rintro ⟨⟨param, located, named⟩, given⟩
    exact ⟨param, located, named, given⟩
  · rintro ⟨param, located, named, given⟩
    exact ⟨⟨param, located, named⟩, given⟩

theorem Function.exists_argument {param : Param} (accepted : function.signature = .ok signature)
    (located : function.params[index]? = some param) (session : Session) (name : String) :
    ∃ argument, (Draft.opening session name signature).function.arguments[index]? = some argument ∧
      lowerType false param.type = .ok argument.type := by
  obtain ⟨_, known, rfl⟩ := signature_eq_ok.mp accepted
  obtain ⟨isKnown, proper⟩ := known param (mem_of_getElem? located)
  -- There are as many names as types, so no position is without a value.
  have inside := (List.getElem?_eq_some_iff.mp located).1
  let code := (Draft.opening session name
    ⟨function.type.kind.lower, function.params.map (·.type.kind.lower), false⟩).function
  have count : index < code.params.length := by
    simpa [code, Draft.opening, Draft.grow, Ir.Function.declare] using inside
  have typed : code.signature.params[index]? = some param.type.kind.lower := by
    simp [code, Draft.opening, Draft.grow, Ir.Function.declare, located]
  refine ⟨.register code.params[index] param.type.kind.lower, ?_, ?_⟩
  · change code.arguments[index]? = _
    rw [Ir.Function.arguments, getElem?_zipWith, getElem?_eq_getElem count, typed]
  · exact lowerType_eq_ok.mpr ⟨isKnown, proper, rfl⟩

theorem Appends.code_eq {session : Session}
    (appended : Appends (.opening session name signature) code after) :
    after.code = code ∧ after.function.instrs = code := by
  constructor
  · have written := (Draft.since_eq (Draft.shape_opening ..) (Draft.isEnded_opening ..) appended).1
    simpa [Draft.code, Draft.block?, Draft.opening, Draft.grow, Ir.Function.declare] using written
  · rw [Ir.Function.instrs, appended.blocks]
    simp [Draft.opening, Draft.grow, Ir.Function.declare, Ir.Block.append]

/-- In scope are the parameters, and the declarations that come before. -/
theorem Function.exists_takes_iff {listing : Listing} {place : Site} :
    (∃ binder type, function.Takes listing binder name type address ∧ binder.Precedes place) ↔
      (∃ index type, function.Takes listing (.param index) name type address) ∨
        listing.log.Offers place name address := by
  constructor
  · rintro ⟨binder, type, takes, precedes⟩
    cases takes with
    | param located given typed taken => exact .inl ⟨_, _, .param located given typed taken⟩
    | declared takes => exact .inr ⟨_, type, takes, precedes⟩
  · rintro (⟨index, type, takes⟩ | ⟨site, type, takes, precedes⟩)
    · exact ⟨.param index, type, takes, trivial⟩
    · exact ⟨.declared site, type, .declared takes, precedes⟩

end Params

namespace LowersFunction

variable {isVerbose : Bool} {function : Function} {session : Session} {name : String}
  {signature : Signature} {start final : Draft} {log : Log}
  (derived : LowersFunction isVerbose function (.opening session name signature) start final log)

include derived

/-- The places with code are the live places, in order. -/
theorem visits_eq : log.visits = function.visits := by
  obtain ⟨shape, going, _⟩ := derived.begins
  cases derived with
  | ended _ lowered isEnded =>
    have ends : function.body.statements.any Stmt.isRet = true :=
      (lowered.isEnded_eq shape going).symm.trans isEnded
    rw [Function.visits, if_pos ends, List.append_nil]
    exact lowered.visits_eq shape going
  | fallsOff _ lowered lastGoing =>
    -- No statement returns, so the end of the function is one more live place.
    have ends : function.body.statements.any Stmt.isRet = false :=
      (lowered.isEnded_eq shape going).symm.trans lastGoing
    rw [Function.visits, ends, if_neg (by decide), Log.visits_append, lowered.visits_eq shape going]
    rfl

theorem spans : Spans start log final := by
  obtain ⟨shape, going, _⟩ := derived.begins
  cases derived with
  | ended _ lowered => exact lowered.spans shape going
  | fallsOff _ lowered lastGoing =>
    refine (lowered.spans shape going).append ?_
    exact .piece (lowered.shape shape) lastGoing (.refl _) rfl (.nil (Draft.finish_moves lastGoing _))

/-- The statements begin with the parameters in scope, and everywhere in them the scope is what was
there at the start and what is declared before. -/
theorem inScope :
    ∃ env, Gives (lowerParams ((Draft.opening session name signature).bound function) [])
        (.opening session name signature) env start ∧
      ∀ entry ∈ log, ∀ place, entry.1.site? = some place →
        Scoped isVerbose env log entry.1 entry.2 := by
  obtain ⟨shape, going, _⟩ := derived.begins
  cases derived with
  | ended params lowered =>
    refine ⟨_, params, fun entry member _ _ => ?_⟩
    exact lowered.inScope shape going (cons_ne_nil _ _) entry member
  | fallsOff params lowered =>
    refine ⟨_, params, fun entry member place isPlace => ?_⟩
    rcases mem_append.mp member with inside | last
    · -- The end of the function declares nothing.
      refine (lowered.inScope shape going (cons_ne_nil _ _) entry inside).widen fun _ _ _ _ => ?_
      rw [Log.offers_append, or_iff_left]
      rintro ⟨_, _, ⟨taken, _⟩, _⟩
      cases mem_singleton.mp taken
    · obtain rfl := mem_singleton.mp last
      cases isPlace

theorem arguments_eq :
    final.function.arguments = (Draft.opening session name signature).function.arguments := by
  rw [Ir.Function.arguments, Ir.Function.arguments, derived.grows.params, derived.grows.signature]

theorem opens : ∃ block, final.function.blocks.head? = some block ∧ start.code <+: block.code := by
  obtain ⟨shape, _, entry⟩ := derived.begins
  have inside := shape.inside
  obtain ⟨block, found, goesOn⟩ :=
    derived.spans.grows.blocks _ _ (getElem?_eq_getElem inside)
  refine ⟨block, ?_, ?_⟩
  · rw [head?_eq_getElem?, ← found, entry]
  · simpa [Draft.code, Draft.block?, getElem?_eq_getElem inside] using goesOn.code

theorem exists_takes_param_iff (accepted : function.signature = .ok signature) {wanted : String} :
    (∃ type, function.Takes ⟨final.function, start.code, log⟩ (.param index) wanted type address) ↔
      ∃ value, ((Draft.opening session name signature).bound function)[index]? =
          some (wanted, value) ∧ TakesParam start.code index value address := by
  have arguments := derived.arguments_eq
  constructor
  · rintro ⟨_, ⟨located, given, _, taken⟩⟩
    exact ⟨_, Draft.getElem?_bound.mpr ⟨_, located, rfl, arguments ▸ given⟩, taken⟩
  · rintro ⟨value, bound, taken⟩
    obtain ⟨param, located, rfl, given⟩ := Draft.getElem?_bound.mp bound
    obtain ⟨_, again, typed⟩ := function.exists_argument accepted located session name
    cases given.symm.trans again
    exact ⟨_, .param located (arguments ▸ given) typed taken⟩

/-- Memory is taken for one binder only. -/
theorem binder_eq {binder other : Binder} {wanted otherName : String} {type otherType : Ty}
    (appended : Appends (.opening session name signature) start.code start)
    (takes : function.Takes ⟨final.function, start.code, log⟩ binder wanted type address)
    (again : function.Takes ⟨final.function, start.code, log⟩ other otherName otherType address) :
    binder = other := by
  -- The registers for the parameters are in use when the statements are written.
  cases takes with
  | param _ _ _ taken =>
    cases again with
    | param _ _ _ takenAgain => rw [taken.index_eq appended.fresh.1 takenAgain]
    | declared takesAgain => exact absurd (taken.used appended) (derived.spans.unused takesAgain)
  | declared takes =>
    cases again with
    | param _ _ _ takenAgain => exact absurd (takenAgain.used appended) (derived.spans.unused takes)
    | declared takesAgain => rw [derived.spans.site_eq takes takesAgain]

theorem unfolds (accepted : function.signature = .ok signature) :
    function.Unfolds isVerbose ⟨final.function, start.code, log⟩ := by
  obtain ⟨env, params, inScope⟩ := derived.inScope
  obtain ⟨code, appended, exist, members⟩ := lowerParams_takes params
  obtain ⟨rfl, begun⟩ := appended.code_eq
  have listed : function.HasListing ⟨final.function, start.code, log⟩ := by
    refine ⟨derived.visits_eq, derived.opens, fun entry => derived.spans.infix_code, ?_⟩
    have written := derived.spans.perm_instrs
    rwa [begun] at written
  refine ⟨listed, fun index param located => ?_, fun entry member place isPlace => ?_, ?_⟩
  · obtain ⟨argument, given, typed⟩ := function.exists_argument accepted located session name
    obtain ⟨address, taken⟩ := exist index param.ident.text argument
      (Draft.getElem?_bound.mpr ⟨param, located, rfl, given⟩)
    exact ⟨address, .param located (derived.arguments_eq ▸ given) typed taken⟩
  · -- Nothing is in scope when the function is opened, so all comes from a binder.
    obtain ⟨_, scope, same, written, inside⟩ := inScope entry member place isPlace
    cases same.symm.trans isPlace
    refine ⟨scope, written, fun wanted address => ?_⟩
    rw [inside, members, Function.exists_takes_iff]
    simp only [not_mem_nil, false_or, derived.exists_takes_param_iff accepted]
  · exact fun _ _ _ _ _ _ _ => derived.binder_eq appended

end LowersFunction

end LeftHand
