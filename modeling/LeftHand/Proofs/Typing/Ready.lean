import LeftHand.Proofs.Lower.Code
import LeftHand.Proofs.Typing.Rules

/-!
Drafts that are ready for the rules: what can be called is found under its name with the right
signature, and the next string constants get names that are not taken.
-/

namespace LeftHand

open Ir List

variable {function changed : Ir.Function}

/-- The type of the code's values of a kind. -/
def Kind.lower : Kind → Ir.Ty
  | void => .void
  | dect => .i64
  | boolean => .i1
  | char => .i8
  | pointer target => .pointer target.lower

theorem Kind.lower_injective : Function.Injective Kind.lower := by
  -- Only pointers have types that hold another type.
  intro kind
  induction kind with
  | pointer target ih =>
    intro other same
    cases other with
    | pointer => exact congrArg pointer (ih (Ir.Ty.pointer.inj same))
    | void | dect | boolean | char => cases same
  | void | dect | boolean | char =>
    intro other same
    cases other <;> first | rfl | cases same

@[simp] theorem Kind.lower_inj {kind other : Kind} : kind.lower = other.lower ↔ kind = other :=
  lower_injective.eq_iff

/-- The type of the code's values that a parameter takes. -/
def Parameter.lower : Parameter → Ir.Ty
  | exactly kind => kind.lower
  | anything => .bytes

/-- Variables stand in memory for the values of their kinds. -/
def Env.Matches (env : Env) (vars : Vars) : Prop :=
  ∀ name, (env.lookup name).map Value.type = (vars.lookup name).map fun kind => .pointer kind.lower

/-- The name of the string constant that is made after some others. -/
def constantNumbered : Nat → String
  | 0 => ".str"
  | n + 1 => ".str." ++ toString (n + 1)

/-- How many string constants were made. -/
def constantCount (counters : List (String × Nat)) : Nat :=
  match counters.lookup ".str" with
  | some n => n + 1
  | none => 0

theorem lookup_setKey {α : Type} (key : String) (value : α) (entries : List (String × α)) :
    (setKey key value entries).lookup key = some value := by
  -- The entry is changed where it stands, or added at the end.
  induction entries with
  | nil => simp [setKey]
  | cons entry entries ih =>
    obtain ⟨name, old⟩ := entry
    rw [setKey]
    by_cases same : name = key
    · subst same
      simp
    · have other : (key == name) = false := by simpa using Ne.symm same
      simp [same, lookup_cons, other, ih]

theorem constantName_fst (counters : List (String × Nat)) :
    (constantName counters ".str").1 = constantNumbered (constantCount counters) := by
  unfold constantName constantCount
  cases counters.lookup ".str" with
  | some n => rfl
  | none => rfl

theorem constantCount_constantName (counters : List (String × Nat)) :
    constantCount (constantName counters ".str").2 = constantCount counters + 1 := by
  unfold constantName
  cases known : counters.lookup ".str" <;> simp [constantCount, lookup_setKey, known]

theorem constantNumbered_injective : Function.Injective constantNumbered := by
  intro m n same
  cases m with
  | zero =>
    cases n with
    | zero => rfl
    | succ n => simp [constantNumbered, String.ext_iff] at same
  | succ m =>
    cases n with
    | zero => simp [constantNumbered, String.ext_iff] at same
    | succ n =>
      simp only [constantNumbered, String.append_right_inj] at same
      exact congrArg _ (by simpa using Nat.repr_inj.mp same)

theorem constantNumbered_ne_functionName (n : Nat) (name : String) :
    constantNumbered n ≠ functionName name := by
  cases n <;> simp [constantNumbered, functionName, String.ext_iff]

theorem prefix_constantNumbered (n : Nat) : ".str".toList <+: (constantNumbered n).toList := by
  cases n with
  | zero => exact prefix_rfl
  | succ n =>
    rw [constantNumbered, show ".str." = ".str" ++ "." by decide, String.append_assoc,
      String.toList_append]
    exact prefix_append _ _

/-- A function of the code takes and gives what the rules say, and turns arguments into pointers to
anything exactly where anything is taken. -/
structure Ir.Function.Suits (function : Ir.Function) (casts : List (String × List Nat))
    (name : String) (callee : Callee) : Prop where
  named : function.name = functionName name
  params : function.signature.params = callee.params.map Parameter.lower
  count : function.params.length = callee.params.length
  result : function.signature.result = callee.result.lower
  casts : ∀ i, i ∈ (casts.lookup (functionName name)).getD [] ↔
    callee.params[i]? = some .anything

/-- Globals among which exactly the functions that can be called are found under their names, and
which leave free the names of what is still to be made. -/
structure Provides (callees : Callees) (globals : List Global)
    (casts : List (String × List Nat)) (counters : List (String × Nat)) : Prop where
  distinct : (globals.map Global.name).Nodup
  absent : ∀ name, callees name = none →
    (∀ global ∈ globals, global.name ≠ functionName name) ∧ casts.lookup (functionName name) = none
  present : ∀ name callee, callees name = some callee → ∃ function,
    globals.find? (·.name == functionName name) = some (.function function) ∧
      function.Suits casts name callee
  /-- The string constants still to be made. -/
  spare : ∀ n, constantCount counters ≤ n → ∀ global ∈ globals, global.name ≠ constantNumbered n
  /-- The entry point is made last, and asks for the time then. -/
  free : ∀ name ∈ ["main", Libc.time.name], ∀ global ∈ globals, global.name ≠ name
  /-- The entry point seeds the random numbers. -/
  seeds : ∃ function, globals.find? (·.name == Libc.srand.name) = some (.function function) ∧
    function.signature = Libc.srand.signature

/-- A session that is ready for the rules. -/
def Session.Ready (callees : Callees) (session : Session) : Prop :=
  Provides callees session.globals session.casts session.counters

/-- A draft that is ready for the rules. -/
def Draft.Ready (callees : Callees) (draft : Draft) : Prop :=
  Provides callees draft.globals draft.session.casts draft.session.counters

theorem nodup_map_concat {α β : Type} {f : α → β} {values : List α} {last : α}
    (distinct : (values.map f).Nodup) (new : ∀ value ∈ values, f value ≠ f last) :
    ((values ++ [last]).map f).Nodup := by
  rw [map_append, map_singleton, nodup_append_comm, singleton_append,
    nodup_cons]
  exact ⟨by simpa using new, distinct⟩

theorem unnamed_concat {globals : List Global} {last : Global} {wanted : String}
    (unnamed : ∀ global ∈ globals, global.name ≠ wanted) (other : last.name ≠ wanted) :
    ∀ global ∈ globals ++ [last], global.name ≠ wanted := by
  simpa [or_imp, forall_and] using ⟨unnamed, other⟩

namespace Provides

variable {callees : Callees} {globals before after : List Global}
  {casts : List (String × List Nat)} {counters : List (String × Nat)}

/-- What is found under a name is found there still when a function has changed, unless its name
has. -/
theorem find_replace {holds : Ir.Function → Prop} {wanted : String}
    (name : changed.name = function.name) (kept : holds function → holds changed)
    (found : ∃ other, (before ++ .function function :: after).find? (·.name == wanted) =
      some (.function other) ∧ holds other) :
    ∃ other, (before ++ .function changed :: after).find? (·.name == wanted) =
      some (.function other) ∧ holds other := by
  obtain ⟨other, located, suits⟩ := found
  rw [find?_append, find?_cons] at located ⊢
  cases earlier : before.find? (·.name == wanted) with
  | some global =>
    rw [earlier] at located
    exact ⟨other, located, suits⟩
  | none =>
    rw [earlier] at located
    by_cases here : function.name = wanted
    · -- The function that has changed is the one that is found.
      simp only [Global.name_function, here, beq_self_eq_true, Option.none_or] at located
      cases located
      exact ⟨changed, by simp [name, here], kept suits⟩
    · have elsewhere : (function.name == wanted) = false := by simpa using here
      exact ⟨other, by simpa [name, elsewhere] using located, suits⟩

theorem replace (provided : Provides callees (before ++ .function function :: after) casts counters)
    (name : changed.name = function.name) (signature : changed.signature = function.signature)
    (params : changed.params = function.params) :
    Provides callees (before ++ .function changed :: after) casts counters := by
  -- The names of the globals are the same, and so is what each function takes and gives.
  have names : (before ++ .function changed :: after).map Global.name =
      (before ++ .function function :: after).map Global.name := by
    simp [name]
  have avoids {wanted : String}
      (unnamed : ∀ global ∈ before ++ .function function :: after, global.name ≠ wanted) :
      ∀ global ∈ before ++ .function changed :: after, global.name ≠ wanted := by
    intro global member same
    have : wanted ∈ (before ++ .function changed :: after).map Global.name :=
      same ▸ mem_map_of_mem member
    rw [names] at this
    obtain ⟨other, otherMember, otherSame⟩ := mem_map.mp this
    exact unnamed other otherMember otherSame
  refine ⟨names ▸ provided.distinct, fun wanted unknown => ?_, fun wanted callee known => ?_,
    fun n unused => avoids (provided.spare n unused),
    fun wanted member => avoids (provided.free wanted member), ?_⟩
  · obtain ⟨unnamed, uncast⟩ := provided.absent wanted unknown
    exact ⟨avoids unnamed, uncast⟩
  · refine find_replace name (fun suits => ?_) (provided.present wanted callee known)
    exact ⟨name.trans suits.named, signature ▸ suits.params, params ▸ suits.count,
      signature ▸ suits.result, suits.casts⟩
  · exact find_replace name (fun seeds => signature.trans seeds) provided.seeds

/-- Making the next string constant leaves the following ones free. -/
theorem keep (provided : Provides callees globals casts counters) (bytes : List UInt8) :
    Provides callees (globals ++ [.string (constantNumbered (constantCount counters)) bytes]) casts
      (constantName counters ".str").2 := by
  refine ⟨nodup_map_concat provided.distinct (provided.spare _ le_rfl), fun wanted unknown => ?_,
    fun wanted callee known => ?_, fun n unused => ?_,
    fun wanted member => unnamed_concat (provided.free wanted member) ?_, ?_⟩
  · obtain ⟨unnamed, uncast⟩ := provided.absent wanted unknown
    exact ⟨unnamed_concat unnamed (constantNumbered_ne_functionName _ _), uncast⟩
  · obtain ⟨found, located, suits⟩ := provided.present wanted callee known
    exact ⟨found, by rw [find?_append, located, Option.some_or], suits⟩
  · rw [constantCount_constantName] at unused
    refine unnamed_concat (provided.spare n (by omega)) fun same => ?_
    have := constantNumbered_injective same
    omega
  · simp only [mem_cons, not_mem_nil, or_false] at member
    rcases member with rfl | rfl
    all_goals cases constantCount counters <;> simp [constantNumbered, String.ext_iff, Libc.name]
  · obtain ⟨found, located, seeds⟩ := provided.seeds
    exact ⟨found, by rw [find?_append, located, Option.some_or], seeds⟩

end Provides

namespace Draft.Ready

variable {callees : Callees} {draft after : Draft}

variable (ready : draft.Ready callees)

include ready

theorem alike (session : after.session = draft.session) (strings : after.strings = draft.strings)
    (name : after.function.name = draft.function.name)
    (signature : after.function.signature = draft.function.signature)
    (params : after.function.params = draft.function.params) : after.Ready callees := by
  unfold Ready globals at ready ⊢
  rw [session, strings]
  exact ready.replace name signature params

theorem write (base : String) (operation : Operation) :
    (draft.write base operation).Ready callees :=
  ready.alike rfl rfl rfl rfl rfl

theorem keep (text : String) : (draft.keep text).Ready callees := by
  -- The constant stands behind all other globals.
  have kept := Provides.keep ready (constantBytes text)
  unfold Ready globals Draft.keep constant
  rw [constantName_fst]
  simpa [globals] using kept

end Draft.Ready

end LeftHand
