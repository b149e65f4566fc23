import LeftHand.Proofs.Binding.Listing

/-!
Lexical scoping: every variable that occurs in a function has the memory of the one parameter or
declaration of its name that is in scope.
-/

namespace LeftHand

open List

/-- What a name stands for at a place: the memory of the only binder of that name in scope there. -/
def Function.Resolves (function : Function) (listing : Listing) (place : Site) : Resolution :=
  fun name address => ∃ binder type, function.Declares binder name type ∧ binder.Precedes place ∧
    function.Takes listing binder name type address ∧
    ∀ other otherType, function.Declares other name otherType → other.Precedes place → other = binder

/-- Whether no two binders in scope at a place have the same name. -/
def Function.DistinctAt (function : Function) (place : Site) : Prop :=
  ∀ binder other name type otherType, function.Declares binder name type →
    function.Declares other name otherType → binder.Precedes place → other.Precedes place →
    binder = other

theorem Function.exists_declares_param {function : Function} {index : Nat} {name : String} :
    (∃ type, function.Declares (.param index) name type) ↔
      (function.params.map (·.ident.text))[index]? = some name := by
  rw [getElem?_map, Option.map_eq_some_iff]
  constructor
  · rintro ⟨_, ⟨located⟩⟩
    exact ⟨_, located, rfl⟩
  · rintro ⟨param, located, rfl⟩
    exact ⟨param.type, .param located⟩

theorem Function.DistinctAt.params {function : Function} {place : Site}
    (distinct : function.DistinctAt place) : (function.params.map (·.ident.text)).Nodup := by
  rw [nodup_iff_getElem?_ne_getElem?]
  intro index later before inside same
  have located := getElem?_eq_getElem inside
  obtain ⟨_, declares⟩ := Function.exists_declares_param.mpr (same.trans located)
  obtain ⟨_, otherDeclares⟩ := Function.exists_declares_param.mpr located
  have := Binder.param.inj (distinct _ _ _ _ _ declares otherDeclares trivial trivial)
  omega

namespace Function.Unfolds

variable {isVerbose : Bool} {function : Function} {listing : Listing} {binder other : Binder}
  {name : String} {type otherType : Ty} {address : Ir.Value} {site place : Site}
  (unfolds : function.Unfolds isVerbose listing)

include unfolds

theorem declares (takes : function.Takes listing binder name type address) :
    function.Declares binder name type := by
  cases takes with
  | param located => exact .param located
  | declared takes =>
    obtain ⟨pos, ident, _, _, taken, rfl, _⟩ := takes.exists_entry
    have live := mem_map_of_mem (f := Prod.fst) taken
    rw [← Log.visits, unfolds.visits] at live
    exact .declared live

/-- At a live declaration, no variable of its name is in scope, and the declaration takes memory. -/
theorem declaration {pos : Pos} {ident : Ident}
    (live : .stmt site (.declare pos type ident) ∈ function.visits) :
    (∃ address, listing.log.Takes site ident.text type address) ∧
      ∀ binder otherType address, function.Takes listing binder ident.text otherType address →
        ¬ binder.Precedes site := by
  rw [← unfolds.visits] at live
  obtain ⟨⟨visit, code⟩, member, same⟩ := mem_map.mp live
  obtain rfl : visit = .stmt site (.declare pos type ident) := same
  obtain ⟨scope, written, inScope⟩ := unfolds.scopes _ member site rfl
  constructor
  · -- The piece of code of a declaration is a single instruction.
    have agrees : scope.AgreesWith fun name address => scope.lookup name = some address :=
      fun _ _ found => found
    obtain ⟨⟨⟩⟩ := written.coded agrees
    rename_i lowered register typed
    exact ⟨_, ⟨member, typed⟩⟩
  · intro binder otherType address takes precedes
    exact written.notMem address ((inScope _ _).mpr ⟨binder, otherType, takes, precedes⟩)

theorem exists_takes (declares : function.Declares binder name type) :
    ∃ address, function.Takes listing binder name type address := by
  cases declares with
  | param located => exact unfolds.params _ _ located
  | declared live =>
    obtain ⟨⟨address, takes⟩, _⟩ := unfolds.declaration live
    exact ⟨address, .declared takes⟩

theorem not_precedes (declared : function.Declares (.declared site) name type)
    (declares : function.Declares binder name otherType) : ¬ binder.Precedes site := by
  obtain ⟨address, takes⟩ := unfolds.exists_takes declares
  cases declared with
  | declared live => exact (unfolds.declaration live).2 binder otherType address takes

/-- A local variable shares its name with nothing else in scope. -/
theorem eq_declared
    (declared : function.Declares (.declared site) name type) (precedes : site.Precedes place)
    (declares : function.Declares other name otherType) (otherPrecedes : other.Precedes place) :
    other = .declared site := by
  cases other with
  | param index => exact absurd trivial (unfolds.not_precedes declared declares)
  | declared later =>
    -- Of two declarations in scope, one is in scope at the other.
    rcases precedes.total otherPrecedes with rfl | before | behind
    · rfl
    · exact absurd before (unfolds.not_precedes declares declared)
    · exact absurd behind (unfolds.not_precedes declared declares)

theorem distinctAt (distinct : (function.params.map (·.ident.text)).Nodup) (place : Site) :
    function.DistinctAt place := by
  intro binder other name type otherType declares otherDeclares precedes otherPrecedes
  cases binder with
  | declared site =>
    exact (unfolds.eq_declared declares precedes otherDeclares otherPrecedes).symm
  | param index =>
    cases other with
    | declared site => exact unfolds.eq_declared otherDeclares otherPrecedes declares precedes
    | param later =>
      have located := Function.exists_declares_param.mp ⟨_, declares⟩
      have otherLocated := Function.exists_declares_param.mp ⟨_, otherDeclares⟩
      have inside := (List.getElem?_eq_some_iff.mp located).1
      rw [(getElem?_inj inside distinct).mp (located.trans otherLocated.symm)]

/-- Every place is coded with the variables that its names stand for. -/
theorem coded (distinct : (function.params.map (·.ident.text)).Nodup) {entry : Visit × List Ir.Event}
    (member : entry ∈ listing.log) (isPlace : entry.1.site? = some place) :
    entry.1.Coded (function.Resolves listing place) entry.2 := by
  obtain ⟨scope, written, inScope⟩ := unfolds.scopes entry member place isPlace
  refine written.coded fun name address found => ?_
  -- What is found is in scope, so it is the memory of a binder that comes before.
  have inside : (name, address) ∈ scope := by
    obtain ⟨front, back, rfl, _⟩ := lookup_eq_some_iff.mp found
    simp
  obtain ⟨binder, type, takes, precedes⟩ := (inScope name address).mp inside
  have declares := unfolds.declares takes
  refine ⟨binder, type, declares, precedes, takes, ?_⟩
  intro other otherType otherDeclares otherPrecedes
  exact unfolds.distinctAt distinct place _ _ _ _ _ otherDeclares declares otherPrecedes precedes

/-- Outside the list in which it stands, no name stands for the memory of a declaration. -/
theorem not_resolves (takes : function.Takes listing (.declared site) name type address)
    (outside : ¬ site.tail <:+ place) (wanted : String) :
    ¬ function.Resolves listing place wanted address := by
  rintro ⟨binder, otherType, _, precedes, otherTakes, _⟩
  obtain rfl := unfolds.single _ _ _ _ _ _ _ takes otherTakes
  exact outside (Site.Precedes.tail_suffix precedes)

end Function.Unfolds

section Build

variable {isVerbose : Bool} {function : Function} {session after : Session}

/-- A function that is built unfolds. -/
theorem exists_unfolds (built : Gives (Build.function isVerbose function) session () after) :
    ∃ listing strings, after.globals = session.globals ++ .function listing.code :: strings ∧
      function.Unfolds isVerbose listing := by
  obtain ⟨signature, accepted, _, final, written, rfl⟩ := gives_function.mp built
  obtain ⟨start, log, derived⟩ := gives_lowerFunctionBody.mp written
  exact ⟨⟨final.function, start.code, log⟩, final.strings, derived.globals_close,
    derived.unfolds accepted⟩

theorem env_eq_of_lowerStmt {stmt : Stmt} {env env' : Env} {before after : Draft}
    (lowered : Gives (lowerStmt isVerbose env stmt) before env' after)
    (compound : stmt.isPlain = false) : env' = env := by
  obtain ⟨_, derived⟩ := lowerStmt_lowers [] stmt lowered
  refine derived.env_eq fun pos type ident isDeclare => ?_
  rw [isDeclare] at compound
  cases compound

/-- **Lexical scoping**: in a function whose parameters have distinct names, every live variable is
compiled to the memory of the one parameter or live declaration of its name that comes before it in
its own list of statements or in one around it, with the type of that declaration. There is no code
but that of the parameters and the live places. No name stands for the memory of a declaration
outside its list, and branches and loops leave the scope as it was. -/
theorem variables_resolve (distinct : (function.params.map (·.ident.text)).Nodup)
    (built : Gives (Build.function isVerbose function) session () after) :
    ∃ listing strings, after.globals = session.globals ++ .function listing.code :: strings ∧
      function.HasListing listing ∧
      (∀ entry ∈ listing.log, ∀ place, entry.1.site? = some place →
        entry.1.Coded (function.Resolves listing place) entry.2) ∧
      (∀ site name type address, function.Takes listing (.declared site) name type address →
        ∀ place, ¬ site.tail <:+ place →
          ∀ wanted, ¬ function.Resolves listing place wanted address) ∧
      ∀ (stmt : Stmt) (env env' : Env) (start stop : Draft), stmt.isPlain = false →
        Gives (lowerStmt isVerbose env stmt) start env' stop → env' = env := by
  obtain ⟨listing, strings, globals, unfolds⟩ := exists_unfolds built
  refine ⟨listing, strings, globals, unfolds.toHasListing, ?_, ?_, ?_⟩
  · exact fun entry member place isPlace => unfolds.coded distinct member isPlace
  · exact fun site name type address takes place outside => unfolds.not_resolves takes outside
  · exact fun stmt env env' start stop compound lowered => env_eq_of_lowerStmt lowered compound

/-- A function with three variables of one name, each of another type: one in either body of a
branch, and one behind the branch. -/
def siblings : Function :=
  let pos : Pos := ⟨1, 1⟩
  let number : Ident := ⟨pos, "number"⟩
  let step : Ident := ⟨pos, "step"⟩
  let isLeft : Expr := .binary pos .greater (.name pos number) (.decimal pos 0)
  { pos, type := .void pos, ident := ⟨pos, "siblings"⟩
    params := [⟨pos, .decimal pos, number⟩]
    body := ⟨pos,
      [.branch pos isLeft pos
        [.declare pos (.decimal pos) step, .assign pos (.name step) (.name pos number)]
        (.otherwise pos
          [.declare pos (.boolean pos) step, .assign pos (.name step) (.boolean pos true)]),
       .declare pos (.pointer pos (.decimal pos)) step,
       .loop pos isLeft pos
        [.assign pos (.name step) (.addressOf pos number),
         .assign pos (.deref pos (.name pos step))
           (.binary pos .sub (.name pos number) (.decimal pos 1))]]⟩ }

/-- The siblings can be built, and every variable in them has the memory that it should have. -/
theorem variables_resolve_siblings :
    ∃ after listing strings, Gives (Build.function false siblings) {} () after ∧
      after.globals = .function listing.code :: strings ∧ siblings.HasListing listing ∧
      ∀ entry ∈ listing.log, ∀ place, entry.1.site? = some place →
        entry.1.Coded (siblings.Resolves listing place) entry.2 := by
  obtain ⟨_, after, built⟩ : ∃ done after, Gives (Build.function false siblings) {} done after :=
    Gives.of_isOk (by decide +kernel)
  obtain ⟨listing, strings, globals, listed, coded, _⟩ :=
    variables_resolve (by decide : (siblings.params.map (·.ident.text)).Nodup) built
  exact ⟨after, listing, strings, built, globals, listed, coded⟩

/-- **Names in scope**: in a function that is built, a local variable shares its name with nothing
else in scope, so at every place the names in scope are distinct if and only if those of the
parameters are. A function is refused if it declares a local variable whose name is in scope
already. -/
theorem names_in_scope (isVerbose : Bool) (function : Function) (session : Session) :
    (∀ after, Gives (Build.function isVerbose function) session () after → ∀ place,
      (∀ site name type other otherType, function.Declares (.declared site) name type →
        site.Precedes place → function.Declares other name otherType → other.Precedes place →
        other = .declared site) ∧
      (function.DistinctAt place ↔ (function.params.map (·.ident.text)).Nodup)) ∧
    ∀ site name type other otherType, function.Declares (.declared site) name type →
      function.Declares other name otherType → other.Precedes site →
      ∀ after, ¬ Gives (Build.function isVerbose function) session () after := by
  constructor
  · intro after built place
    obtain ⟨listing, _, _, unfolds⟩ := exists_unfolds built
    refine ⟨?_, fun distinct => distinct.params, fun distinct => unfolds.distinctAt distinct place⟩
    intro site name type other otherType declared precedes declares otherPrecedes
    exact unfolds.eq_declared declared precedes declares otherPrecedes
  · intro site name type other otherType declared declares precedes after built
    obtain ⟨listing, _, _, unfolds⟩ := exists_unfolds built
    exact unfolds.not_precedes declared declares precedes

/-- A function with two parameters of one name. -/
def twins : Function :=
  let pos : Pos := ⟨1, 1⟩
  let twin : Param := ⟨pos, .decimal pos, ⟨pos, "twin"⟩⟩
  { pos, type := .void pos, ident := ⟨pos, "twins"⟩, params := [twin, twin], body := ⟨pos, []⟩ }

/-- Parameters are not checked against each other: two of one name are in scope together. -/
theorem not_distinctAt_twins :
    ∃ after, Gives (Build.function false twins) {} () after ∧ ¬ twins.DistinctAt [0] := by
  obtain ⟨_, after, built⟩ : ∃ done after, Gives (Build.function false twins) {} done after :=
    Gives.of_isOk (by decide +kernel)
  have repeated : ¬ (twins.params.map (·.ident.text)).Nodup := by decide
  exact ⟨after, built, fun distinct => repeated distinct.params⟩

end Build

end LeftHand
