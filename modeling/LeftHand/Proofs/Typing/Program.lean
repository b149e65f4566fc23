import LeftHand.Proofs.Lower.Program
import LeftHand.Proofs.Typing.Function

/-! A program is built if and only if it keeps the rules. -/

namespace LeftHand

open Ir List

section Predefined

/-- The casts that the modules before can have left: none, or those of the predefined functions. -/
def castsLeft : List (List (String × List Nat)) :=
  [[], [(functionName Predefined.writeAddress.name, [0])]]

/-- The session with the predefined functions alone. -/
def Predefined.base (casts : List (String × List Nat)) : Session :=
  (addAll.run.run { casts }).2

variable {casts : List (String × List Nat)}

theorem Predefined.mem_all (ready : Predefined) : ready ∈ all := by
  cases ready <;> decide

theorem Predefined.ofName?_eq_some {name : String} {ready : Predefined} :
    ofName? name = some ready ↔ ready.name = name := by
  constructor
  · intro found
    simpa using find?_some found
  · intro same
    subst same
    cases ready <;> decide

theorem callees_nil {name : String} :
    callees [] name = (Predefined.ofName? name).map Predefined.callee :=
  rfl

theorem Predefined.casts_iff (ready : Predefined) (i : Nat) :
    i ∈ (List.lookup (functionName ready.name)
        [(functionName writeAddress.name, [0])]).getD [] ↔
      ready.callee.params[i]? = some .anything := by
  -- No other function has the name under which the casts stand.
  by_cases address : ready = writeAddress
  · subst address
    cases i <;> simp [callee]
  · have other : (functionName ready.name == functionName writeAddress.name) = false := by
      cases ready <;> first | decide | contradiction
    rw [lookup_cons, other]
    cases ready <;> cases i <;> simp [callee] at address ⊢

/-- The predefined functions can be added, and the module of them alone, evaluated for each list of
casts. -/
theorem Predefined.base_facts : ∀ casts ∈ castsLeft,
    (addAll.run.run { casts }).1.isOk = true ∧
      ((base casts).globals.map Global.name).Nodup ∧
      (base casts).casts = [(functionName writeAddress.name, [0])] ∧
      (∀ name ∈ ["main", Libc.time.name], ∀ global ∈ (base casts).globals, global.name ≠ name) ∧
      (∀ global ∈ (base casts).globals, ¬".str".toList <+: global.name.toList ∧
        ("1eft.".toList <+: global.name.toList →
          ∃ ready ∈ all, global.name = functionName ready.name)) ∧
      (∀ ready ∈ all, ∃ code ∈
        ((base casts).globals.find? (·.name == functionName ready.name)).bind Global.function?,
        code.name = functionName ready.name ∧
          code.signature.params = ready.callee.params.map Parameter.lower ∧
          code.params.length = ready.callee.params.length ∧
          code.signature.result = ready.callee.result.lower) ∧
      ∃ code ∈ ((base casts).globals.find? (·.name == Libc.srand.name)).bind Global.function?,
        code.signature = Libc.srand.signature := by
  decide +kernel

theorem Predefined.gives_addAll (left : casts ∈ castsLeft) :
    Gives addAll { casts } () (base casts) := by
  obtain ⟨_, after, gives⟩ := Gives.of_isOk (base_facts casts left).1
  rwa [show base casts = after from congrArg Prod.snd gives]

theorem Predefined.ready_base (left : casts ∈ castsLeft) : (base casts).Ready (callees []) := by
  obtain ⟨_, distinct, casting, free, named, suited, seeds⟩ := base_facts casts left
  refine ⟨distinct, fun name unknown => ⟨fun global member same => ?_, ?_⟩,
    fun name callee known => ?_, fun n _ global member same => ?_, free, ?_⟩
  · -- A global with such a name is a predefined function.
    rw [callees_nil, Option.map_eq_none_iff] at unknown
    obtain ⟨ready, _, ours⟩ := (named global member).2 (by
      rw [same, functionName, String.toList_append]
      exact prefix_append _ _)
    have := ofName?_eq_some.mpr (functionName_injective (ours.symm.trans same))
    simp [this] at unknown
  · rw [callees_nil, Option.map_eq_none_iff] at unknown
    have other : (functionName name == functionName writeAddress.name) = false := by
      rw [beq_eq_false_iff_ne]
      intro same
      have := ofName?_eq_some.mpr (functionName_injective same).symm
      simp [this] at unknown
    rw [casting, lookup_cons, other]
    rfl
  · rw [callees_nil] at known
    obtain ⟨ready, ours, rfl⟩ := Option.map_eq_some_iff.mp known
    obtain rfl := ofName?_eq_some.mp ours
    obtain ⟨code, found, name, params, count, result⟩ := suited ready (mem_all ready)
    obtain ⟨global, located, isCode⟩ := Option.bind_eq_some_iff.mp found
    rw [Global.function?_eq_some.mp isCode] at located
    exact ⟨code, located, name, params, count, result, fun i => casting ▸ casts_iff ready i⟩
  · -- String constants have names that none of these has.
    refine (named global member).1 ?_
    rw [same]
    exact prefix_constantNumbered n
  · obtain ⟨code, found, signature⟩ := seeds
    obtain ⟨global, located, isCode⟩ := Option.bind_eq_some_iff.mp found
    rw [Global.function?_eq_some.mp isCode] at located
    exact ⟨code, located, signature⟩

end Predefined

section Main

variable {callees : Callees} {session : Session}

variable (ready : session.Ready callees)

include ready

theorem Session.Ready.exists_start :
    (∃ start, session.start? = some start) ↔ callees "start" = some ⟨[], .dect⟩ := by
  constructor
  · intro found
    obtain ⟨start, found⟩ := found
    obtain ⟨member, name, result, params⟩ := Session.start?_eq_some found
    -- The name is known, and the function found under it is this one.
    obtain ⟨callee, known⟩ : ∃ callee, callees "start" = some callee := by
      by_contra unknown
      have unknown := Option.eq_none_iff_forall_ne_some.mpr (not_exists.mp unknown)
      exact (ready.absent "start" unknown).1 _ member name
    obtain ⟨function, located, suits⟩ := ready.present "start" callee known
    have here := Session.global?_of_mem ready.distinct member
    rw [Global.name_function, name] at here
    cases here.symm.trans located
    have taken : callee.params = [] := by simpa [params] using suits.params.symm
    have given := Kind.eq_of_type .dect suits.result result
    rw [known, ← taken, ← given]
  · intro known
    obtain ⟨function, located, suits⟩ := ready.present "start" _ known
    rw [← Option.isSome_iff_exists, start?, find?_isSome]
    refine ⟨function, mem_filterMap.mpr ⟨_, mem_of_find?_eq_some located, rfl⟩, ?_⟩
    simp [suits.named, suits.params, suits.result, Kind.lower]

/-- Once a start function has been found, nothing is in the way of the entry point. -/
theorem Session.Ready.gives_wrapMain {start : Ir.Function} (found : session.start? = some start) :
    Gives Build.wrapMain session () (session.withMain start) := by
  refine gives_wrapMain_of_found ready.distinct found ready.seeds ?_ ?_
  · simpa [Session.names] using ready.free Libc.time.name (by simp)
  · simpa [Session.names] using ready.free "main" (by simp)

end Main

section Functions

variable {isVerbose : Bool} {functions earlier : List Function} {session after : Session}

/-- What is asked of each element and those before it can be asked of the first and of the
others. -/
theorem forall_split_cons {α : Type} {rule : List α → α → Prop} {front rest : List α} {first : α} :
    (∀ before other later, first :: rest = before ++ other :: later → rule (front ++ before) other) ↔
      rule front first ∧ ∀ before other later, rest = before ++ other :: later →
        rule (front ++ [first] ++ before) other := by
  constructor
  · intro kept
    refine ⟨by simpa using kept [] first rest rfl, fun before other later split => ?_⟩
    simpa using kept (first :: before) other later (by rw [split, cons_append])
  · intro kept before other later split
    cases before with
    | nil =>
      cases split
      simpa using kept.1
    | cons first before =>
      cases split
      simpa using kept.2 before other later rfl

/-- Functions that each keep the rules behind those before them. -/
def FunctionsWellFormed (earlier functions : List Function) : Prop :=
  ∀ before function later, functions = before ++ function :: later →
    function.WellFormed (earlier ++ before)

theorem functionsWellFormed_cons {function : Function} :
    FunctionsWellFormed earlier (function :: functions) ↔
      function.WellFormed earlier ∧ FunctionsWellFormed (earlier ++ [function]) functions :=
  forall_split_cons

theorem functions_sound (ready : session.Ready (callees earlier))
    (built : Gives (functions.forM (Build.function isVerbose)) session () after) :
    FunctionsWellFormed earlier functions ∧ after.Ready (callees (earlier ++ functions)) := by
  induction functions generalizing earlier session with
  | nil =>
    simp only [List.forM, gives_pure] at built
    rw [built.2, List.append_nil]
    exact ⟨fun before function later split => by simp at split, ready⟩
  | cons function functions ih =>
    simp only [List.forM, gives_bind] at built
    obtain ⟨_, between, first, others⟩ := built
    obtain ⟨wellFormed, ready⟩ := function_sound ready first
    obtain ⟨othersWellFormed, ready⟩ := ih ready others
    exact ⟨functionsWellFormed_cons.mpr ⟨wellFormed, othersWellFormed⟩, by simpa using ready⟩

theorem functions_complete (ready : session.Ready (callees earlier))
    (solid : ∀ function ∈ functions, function.Solid)
    (wellFormed : FunctionsWellFormed earlier functions) :
    ∃ after, Gives (functions.forM (Build.function isVerbose)) session () after := by
  induction functions generalizing earlier session with
  | nil => exact ⟨session, by simp⟩
  | cons function functions ih =>
    obtain ⟨first, others⟩ := functionsWellFormed_cons.mp wellFormed
    obtain ⟨between, built⟩ : ∃ between, Gives (Build.function isVerbose function) session () between :=
      function_complete ready (solid function mem_cons_self) first
    obtain ⟨_, ready⟩ := function_sound ready built
    obtain ⟨after, othersBuilt⟩ := ih ready
      (fun other member => solid other (mem_cons_of_mem _ member)) others
    refine ⟨after, ?_⟩
    simp only [List.forM, gives_bind]
    exact ⟨(), between, built, othersBuilt⟩

theorem callees_eq_none {name : String} :
    callees functions name = none ↔
      (∀ function ∈ functions, function.ident.text ≠ name) ∧ Predefined.ofName? name = none := by
  rw [callees]
  cases found : functions.find? (·.ident.text == name) with
  | none => simpa using fun _ => by simpa using found
  | some function =>
    have named := find?_some found
    have member := mem_of_find?_eq_some found
    simp only [reduceCtorEq, false_iff, not_and]
    intro unnamed
    exact absurd (by simpa using named) (unnamed function member)

theorem FunctionsWellFormed.distinct (wellFormed : FunctionsWellFormed [] functions) :
    (functions.map (·.ident.text)).Nodup := by
  -- By induction from the end, as each function is compared with those before it.
  induction functions using List.reverseRecOn with
  | nil => simp
  | append_singleton functions function ih =>
    have first : FunctionsWellFormed [] functions := by
      intro before other later split
      exact wellFormed before other (later ++ [function]) (by simp [split])
    have new := (wellFormed functions function [] rfl).new
    have unnamed := (callees_eq_none.mp new).1
    exact nodup_map_concat (ih first) fun other inside => unnamed other (by simpa using inside)

end Functions

/-- A program keeps the rules if its functions do and one of them can start it. -/
theorem Program.wellFormed_iff {program : Program} :
    program.WellFormed ↔ FunctionsWellFormed [] program.functions ∧
      callees program.functions "start" = some ⟨[], .dect⟩ := by
  constructor
  · intro wellFormed
    refine ⟨fun earlier function later split => ?_, ?_⟩
    · have member : function ∈ program.functions := by simp [split]
      obtain ⟨proper, paramsProper⟩ := wellFormed.proper function member
      refine ⟨callees_eq_none.mpr ⟨fun other inside same => ?_, wellFormed.own function member⟩,
        proper, paramsProper, wellFormed.returns function member,
        ⟨wellFormed.typed earlier function later split, by simp [Part.conditions]⟩⟩
      -- Two functions at different places have different names.
      have distinct := wellFormed.distinct
      rw [split, map_append, map_cons] at distinct
      exact (nodup_append.mp distinct).2.2 _ (mem_map_of_mem inside) _
        mem_cons_self same
    · obtain ⟨function, member, name, kind, params⟩ := wellFormed.start
      obtain ⟨found, located⟩ : ∃ found, program.functions.find? (·.ident.text == "start") =
          some found := by
        rw [← Option.isSome_iff_exists, find?_isSome]
        exact ⟨function, member, by simp [name]⟩
      have same : found.ident.text = function.ident.text := by
        simpa [name] using find?_some located
      obtain rfl := inj_on_of_nodup_map wellFormed.distinct
        (mem_of_find?_eq_some located) member same
      simp [callees, located, Function.callee, kind, params]
  · intro wellFormed
    obtain ⟨each, start⟩ := wellFormed
    -- Every function has its place behind some others.
    have placed {function : Function} (member : function ∈ program.functions) :
        ∃ earlier, function.WellFormed earlier := by
      obtain ⟨earlier, later, split⟩ := append_of_mem member
      exact ⟨earlier, by simpa using each earlier function later split⟩
    refine ⟨each.distinct, fun function member => ?_, fun function member => ?_, ?_,
      fun function member => ?_, fun earlier function later split => ?_⟩
    · obtain ⟨earlier, fits⟩ := placed member
      exact (callees_eq_none.mp fits.new).2
    · obtain ⟨earlier, fits⟩ := placed member
      exact ⟨fits.proper, fits.paramsProper⟩
    · rw [callees] at start
      cases found : program.functions.find? (·.ident.text == "start") with
      | none =>
        rw [found] at start
        exact absurd start (by decide)
      | some function =>
        rw [found] at start
        have callee := Option.some.inj start
        refine ⟨function, mem_of_find?_eq_some found, by simpa using find?_some found,
          congrArg Callee.result callee, ?_⟩
        simpa [Function.callee] using congrArg Callee.params callee
    · obtain ⟨earlier, fits⟩ := placed member
      exact fits.returns
    · exact (each earlier function later split).typed.live

/-- A program of solid functions is built if and only if it keeps the rules. -/
theorem gives_program {isVerbose : Bool} {program : Program} {casts : List (String × List Nat)}
    (left : casts ∈ castsLeft) (solid : ∀ function ∈ program.functions, function.Solid) :
    (∃ after, Gives (Build.program isVerbose program) { casts } () after) ↔ program.WellFormed := by
  have base := Predefined.gives_addAll left
  have ready := Predefined.ready_base left
  -- Whatever the predefined functions are, only what they provide matters.
  generalize Predefined.base casts = start at base ready
  rw [Program.wellFormed_iff]
  simp only [Build.program, gives_bind]
  constructor
  · intro built
    obtain ⟨after, _, _, added, _, between, functionsBuilt, wrapped⟩ := built
    obtain ⟨_, rfl⟩ := added.unique base
    obtain ⟨wellFormed, functionsReady⟩ := functions_sound ready functionsBuilt
    obtain ⟨start, found, _⟩ := gives_wrapMain.mp wrapped
    exact ⟨wellFormed, functionsReady.exists_start.mp ⟨start, found⟩⟩
  · intro wellFormed
    obtain ⟨between, functionsBuilt⟩ : ∃ between,
        Gives (program.functions.forM (Build.function isVerbose)) start () between :=
      functions_complete ready solid wellFormed.1
    obtain ⟨_, functionsReady⟩ := functions_sound ready functionsBuilt
    obtain ⟨code, found⟩ := functionsReady.exists_start.mpr wellFormed.2
    exact ⟨_, (), _, base, (), between, functionsBuilt, functionsReady.gives_wrapMain found⟩

end LeftHand
