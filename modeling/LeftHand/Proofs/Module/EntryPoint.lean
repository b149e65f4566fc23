import LeftHand.Proofs.Module.Program
import LeftHand.Proofs.Module.Tidy

/-!
The entry point: where a start function stands it is added, with the time that seeds the random
numbers, and otherwise nothing changes.
-/

namespace LeftHand

open Ir List

/-- A function that can start a program: it takes nothing and gives a number. -/
structure Ir.Function.IsStart (code : Ir.Function) : Prop where
  name : code.name = functionName "start"
  result : code.signature.result = .i64
  params : code.signature.params = []

/-- Before all instructions of its entry block a function asks for the time, and seeds the random
numbers with the answer. -/
structure Ir.Function.IsSeeded (code changed : Ir.Function) : Prop where
  name : changed.name = code.name
  signature : changed.signature = code.signature
  params : changed.params = code.params
  blocks : ∃ entry rest now none, code.blocks = entry :: rest ∧ changed.blocks =
    { entry with code :=
        ⟨now, .call Libc.time.name Libc.time.signature [.null .bytes]⟩ ::
        ⟨none, .call Libc.srand.name Libc.srand.signature [.register now .i32]⟩ :: entry.code } :: rest

/-- A function that calls another one once and returns what that gives, as a status. -/
structure Ir.Function.Launches (main code : Ir.Function) : Prop where
  name : main.name = "main"
  signature : main.signature = ⟨.i32, [], false⟩
  params : main.params = []
  blocks : ∃ status narrowed, main.blocks =
    [{ label := "entry"
       code := [⟨status, .call code.name code.signature []⟩,
         ⟨narrowed, .cast .trunc (.register status code.signature.result) .i32⟩]
       exit := some (.ret (.register narrowed .i32)) }]

/-- A start function stands in a module. -/
def Session.HasStart (session : Session) : Prop :=
  ∃ code, .function code ∈ session.globals ∧ code.IsStart

theorem Session.hasStart_iff {session : Session} :
    session.HasStart ↔ ∃ start, session.start? = some start := by
  constructor
  · intro hasStart
    obtain ⟨code, member, name, result, params⟩ := hasStart
    rw [← Option.isSome_iff_exists, start?, find?_isSome]
    exact ⟨code, mem_filterMap.mpr ⟨_, member, rfl⟩, by simp [name, result, params]⟩
  · intro found
    obtain ⟨start, found⟩ := found
    obtain ⟨member, name, result, params⟩ := start?_eq_some found
    exact ⟨start, member, name, result, params⟩

section Parts

theorem Ir.Function.isSeeded_seeded {code : Ir.Function} (filled : code.blocks ≠ []) :
    code.IsSeeded code.seeded where
  name := rfl
  signature := rfl
  params := rfl
  blocks := by
    cases blocks : code.blocks with
    | nil => exact absurd blocks filled
    | cons entry rest =>
      refine ⟨entry, rest, (code.scope.take "call_time").1,
        ((code.scope.take "call_time").2.take "call_srand").1, rfl, ?_⟩
      rw [seeded, seed, insertAtEntry, insertAtEntry]
      simp only [blocks, modify_zero_cons]
      rfl

theorem launches_entryPoint (start : Ir.Function) : (entryPoint start).Launches start where
  name := rfl
  signature := rfl
  params := rfl
  blocks := ⟨_, _, rfl⟩

end Parts

section Wrap

variable {session : Session} {start : Ir.Function}

theorem Tidy.gives_wrapMain (tidy : Tidy session.globals) (found : session.start? = some start)
    (seeds : Libc.srand.global ∈ session.globals) :
    Gives Build.wrapMain session () (session.withMain start) := by
  -- Nothing has the name of the time or of the entry point.
  refine gives_wrapMain_of_found tidy.distinct found ⟨_, Session.global?_of_mem tidy.distinct seeds, rfl⟩
    (fun held => ?_) fun held => ?_
  all_goals obtain ⟨global, there, named⟩ := mem_map.mp held
  · exact (tidy.familiar global there).name_ne.1 named
  · exact (tidy.familiar global there).name_ne.2 named

theorem Tidy.replace_eq (tidy : Tidy session.globals) {front back : List Global}
    (split : session.globals = front ++ .function start :: back) (changed : Ir.Function) :
    (session.replace start.name changed).globals = front ++ .function changed :: back := by
  have distinct := tidy.distinct
  rw [split, map_append, map_cons, nodup_append, nodup_cons] at distinct
  obtain ⟨_, ⟨notBehind, _⟩, apart⟩ := distinct
  have keeps {globals : List Global} (others : ∀ global ∈ globals, global.name ≠ start.name) :
      globals.map (fun global => if global.name = start.name then .function changed else global) =
        globals := by
    refine (map_congr_left fun global member => ?_).trans (map_id _)
    rw [if_neg (others global member)]
    rfl
  have before := keeps fun global member same =>
    apart _ (mem_map_of_mem member) _ mem_cons_self same
  have behind := keeps fun global member same => notBehind (mem_map.mpr ⟨global, member, same⟩)
  simp only [Session.replace, split, map_append, map_cons, before, behind,
    Global.name_function, if_true]

end Wrap

section Seeds

theorem respected_extends :
    Build.Respected (LeaveBoth Draft.Onward) (LeaveBoth Session.Extends) := by
  refine .of_leaves .refl .trans (fun _ => .refl) (fun _ => extends_libc _) (fun text name _ => ?_)
    fun _ _ => extends_define _ _
  rw [Build.addString, if_pos rfl]
  refine .bind .trans .refl fun session => .bind .trans (fun _ => .refl _) fun _ => ?_
  exact (extends_addGlobal _).bind .trans fun _ => .refl

/-- What one of several steps has added is there when all have been made. -/
theorem exists_step_of_forM {α : Type} {step : α → Build PUnit}
    (extends_ : ∀ item, Leaves Session.Extends (step item)) {items : List α} {item : α}
    (member : item ∈ items) {before after : Session} (given : Gives (items.forM step) before ⟨⟩ after) :
    ∃ one two, Gives (step item) one ⟨⟩ two ∧ two.Extends after := by
  induction items generalizing before with
  | nil => exact absurd member not_mem_nil
  | cons first others ih =>
    obtain ⟨_, between, stepped, rest⟩ := gives_bind.mp given
    rcases mem_cons.mp member with rfl | later
    · refine ⟨before, between, stepped, ?_⟩
      exact rest.leaves (.forM .refl .trans extends_ others)
    · exact ih later rest

theorem srand_mem_of_functions {isVerbose : Bool} {functions : List Function} {earlier session : Session}
    (reached : Gives (Build.functions isVerbose functions) earlier.renew () session) :
    Libc.srand.global ∈ session.globals := by
  have tidy := tidy_of_functions reached
  have upheld := respected_leaves.toUpheld
  obtain ⟨_, base, added, built⟩ := gives_bind.mp reached
  have kept : base.Extends session := built.leaves (extends_functions isVerbose functions)
  -- The function that programs call for it has asked for the library function.
  obtain ⟨one, two, seeding, later⟩ := exists_step_of_forM
    (fun ready => (respected_extends.predefined upheld ready).1)
    (show Predefined.seedRandom ∈ Predefined.all by decide) added
  obtain ⟨given, declared, asked, defined⟩ := gives_bind.mp seeding
  have named : ∃ global ∈ declared.globals, global.name = Libc.srand.name := by
    cases found : one.global? Libc.srand.name with
    | none =>
      obtain ⟨rfl, _, rfl⟩ := (gives_libc_missing found).mp asked
      exact ⟨_, mem_append_right _ (mem_singleton.mpr rfl), rfl⟩
    | some global =>
      obtain ⟨_, rfl⟩ := (gives_libc_found found).mp asked
      exact ⟨global, mem_of_find?_eq_some found, by simpa using find?_some found⟩
  obtain ⟨global, member, name⟩ := named
  -- From then on it has stayed in its place.
  have next : declared.Extends two := defined.leaves <| extends_define _ _ <|
    (upheld.bind upheld.argument fun _ => upheld.bind (upheld.cast _ _ _ _) fun _ =>
      upheld.bind (upheld.call _ _ _) fun _ => upheld.exit _).1
  have still : global ∈ session.globals := (next.trans (later.trans kept)).subset member
  exact ((tidy.familiar global still).eq_library name).1 ▸ still

end Seeds

section Reached

variable {isVerbose : Bool} {functions : List Function} {earlier session : Session}

theorem runOn_wrapMain_of_not_hasStart (none : ¬ session.HasStart) :
    Build.wrapMain.runOn session = (.error (.reported .noStart ⟨1, 1⟩ false), session) := by
  have missing : session.start? = .none := by
    rw [Session.hasStart_iff, not_exists] at none
    exact Option.eq_none_iff_forall_ne_some.mpr none
  rw [Build.runOn, Build.wrapMain, run_get_bind, missing]
  rfl

/-- With a start function the entry point is added, and all that changes besides is the start
function. -/
theorem exists_wrapMain_of_hasStart
    (reached : Gives (Build.functions isVerbose functions) earlier.renew () session)
    (hasStart : session.HasStart) :
    ∃ front code back changed main, session.globals = front ++ .function code :: back ∧
      code.IsStart ∧ code.IsSeeded changed ∧ main.Launches code ∧
      Gives Build.wrapMain session () { session with
        globals := front ++ .function changed :: back ++ [Libc.time.global, .function main] } := by
  have tidy := tidy_of_functions reached
  obtain ⟨start, found⟩ := Session.hasStart_iff.mp hasStart
  obtain ⟨member, name, result, params⟩ := Session.start?_eq_some found
  have given := tidy.gives_wrapMain found (srand_mem_of_functions reached)
  obtain ⟨front, back, split⟩ := append_of_mem member
  -- It is a function of the language, so it has an entry block.
  obtain ⟨_, same, filled⟩ := (tidy.familiar _ member).exists_code name
  obtain rfl := Global.function.inj same
  rw [Session.withMain, tidy.replace_eq split] at given
  exact ⟨front, start, back, start.seeded, _, split, ⟨name, result, params⟩,
    Ir.Function.isSeeded_seeded filled, launches_entryPoint start, given⟩

/-- **The entry point**: behind the predefined functions and any functions of a program, it can be
added if and only if there is a start function that takes nothing and gives a number. Then the time
and the entry point are added, in this order; the start function gets the two calls that seed the
random numbers before all of its instructions, and nothing else changes. Otherwise nothing changes
at all. No name of a function of a program is that of the entry point or of a library function, and
under these names the module holds nothing but library functions. -/
theorem wrapMain_iff_hasStart
    (reached : Gives (Build.functions isVerbose functions) earlier.renew () session) :
    ((∃ after, Gives Build.wrapMain session () after) ↔ session.HasStart) ∧
    (∀ after, Gives Build.wrapMain session () after →
      ∃ front code back changed main, session.globals = front ++ .function code :: back ∧
        code.IsStart ∧ code.IsSeeded changed ∧ main.Launches code ∧
        after = { session with
          globals := front ++ .function changed :: back ++ [Libc.time.global, .function main] }) ∧
    (¬ session.HasStart →
      Build.wrapMain.runOn session = (.error (.reported .noStart ⟨1, 1⟩ false), session)) ∧
    (∀ text, functionName text ≠ "main" ∧ ∀ libc : Libc, functionName text ≠ libc.name) ∧
    ∀ global ∈ session.globals, global.name ≠ "main" ∧
      ∀ libc : Libc, global.name = libc.name → global = libc.global ∧ libc ≠ .time := by
  have tidy := tidy_of_functions reached
  have needed {after : Session} (given : Gives Build.wrapMain session () after) : session.HasStart := by
    obtain ⟨start, found, _⟩ := gives_wrapMain.mp given
    exact Session.hasStart_iff.mpr ⟨start, found⟩
  refine ⟨⟨fun built => ?_, fun hasStart => ?_⟩, fun after given => ?_, runOn_wrapMain_of_not_hasStart,
    fun text => ⟨?_, functionName_ne_name text⟩, fun global member => ?_⟩
  · obtain ⟨_, given⟩ := built
    exact needed given
  · obtain ⟨_, _, _, _, _, _, _, _, _, given⟩ := exists_wrapMain_of_hasStart reached hasStart
    exact ⟨_, given⟩
  · obtain ⟨front, code, back, changed, main, split, isStart, isSeeded, launches, also⟩ :=
      exists_wrapMain_of_hasStart reached (needed given)
    exact ⟨front, code, back, changed, main, split, isStart, isSeeded, launches, (given.unique also).2⟩
  · simp [functionName, String.ext_iff]
  · have familiar := tidy.familiar global member
    exact ⟨familiar.name_ne.2, fun libc named => familiar.eq_library named⟩

/-- The module of a program whose start function gives zero gets an entry point. -/
theorem wrapMain_iff_hasStart_zeroReturned :
    ∃ session, Gives (Build.functions false zeroReturned.functions) ({} : Session).renew () session ∧
      session.HasStart ∧ ∃ after, Gives Build.wrapMain session () after := by
  have built : ((Build.functions false zeroReturned.functions).runOn ({} : Session).renew).1.isOk = true ∧
      ((Build.functions false zeroReturned.functions).runOn
        ({} : Session).renew).2.start?.isSome = true := by
    decide +kernel
  obtain ⟨isOk, isSome⟩ := built
  obtain ⟨_, session, reached⟩ := Gives.of_isOk isOk
  rw [show ((Build.functions false zeroReturned.functions).runOn ({} : Session).renew).2 = session from
    congrArg Prod.snd reached] at isSome
  have hasStart := Session.hasStart_iff.mpr (Option.isSome_iff_exists.mp isSome)
  exact ⟨session, reached, hasStart, (wrapMain_iff_hasStart reached).1.mpr hasStart⟩

end Reached

end LeftHand
