import LeftHand.Lower.Program
import LeftHand.Proofs.Lower.Function

/-!
The entry point: a session in which a start function stands gets a function that calls it, and the
start function itself gets calls that seed the random numbers.
-/

namespace LeftHand

open Ir List

namespace Session

variable {changed : Ir.Function}

/-- The session with one global more. -/
def add (session : Session) (global : Global) : Session :=
  { session with globals := session.globals ++ [global] }

/-- The session in which what has a name is replaced by a function. -/
def replace (session : Session) (owner : String) (changed : Ir.Function) : Session :=
  { session with globals := session.globals.map fun global =>
      if global.name = owner then .function changed else global }

theorem names_replace (session : Session) {owner : String} (name : changed.name = owner) :
    (session.replace owner changed).names = session.names := by
  simp only [names, replace, map_map]
  refine map_congr_left fun global _ => ?_
  by_cases same : global.name = owner <;> simp [same, name]

theorem global?_replace {session : Session} {owner : String} {global : Global}
    (name : changed.name = owner) (found : session.global? owner = some global) :
    (session.replace owner changed).global? owner = some (.function changed) := by
  have same : (fun global : Global =>
      (if global.name = owner then Global.function changed else global).name == owner) =
        fun global => global.name == owner := by
    funext global
    by_cases here : global.name = owner <;> simp [here, name]
  have named : global.name = owner := by simpa using find?_some found
  rw [global?] at found ⊢
  rw [replace, find?_map]
  simp only [Function.comp_def, same, found, Option.map_some, named, if_true]

theorem replace_replace {session : Session} {owner : String} (name : changed.name = owner) (again : Ir.Function) :
    (session.replace owner changed).replace owner again = session.replace owner again := by
  simp only [replace, map_map]
  congr 1
  refine map_congr_left fun global _ => ?_
  by_cases same : global.name = owner <;> simp [same, name]

theorem global?_eq_none {session : Session} {name : String} (absent : name ∉ session.names) :
    session.global? name = none := by
  rw [global?, find?_eq_none]
  intro global found same
  exact absent (beq_iff_eq.mp same ▸ mem_map_of_mem found)

theorem global?_of_mem {session : Session} {global : Global} (distinct : session.names.Nodup)
    (member : global ∈ session.globals) : session.global? global.name = some global := by
  obtain ⟨found, located⟩ : ∃ found, session.global? global.name = some found := by
    rw [← Option.isSome_iff_exists, global?, find?_isSome]
    exact ⟨global, member, by simp⟩
  have same : found.name = global.name := by simpa using find?_some located
  rw [located, inj_on_of_nodup_map distinct (mem_of_find?_eq_some located) member same]

theorem isTaken_eq (session : Session) (name : String) :
    session.isTaken name = (name.isEmpty || session.names.contains name) := by
  rw [isTaken, names, contains_eq_any_beq, any_map]
  congr 2
  funext global
  exact Bool.beq_comm

end Session

/-- The declaration of a library function. -/
def Libc.global (libc : Libc) : Global :=
  .function (.declare libc.name libc.signature)

section Build

variable {session after : Session} {done : Unit} {libc : Libc} {global : Global}

theorem gives_addGlobal :
    Gives (Build.addGlobal global) session done after ↔
      session.isTaken global.name = false ∧ after = session.add global := by
  simp only [Build.addGlobal, gives_bind, gives_get, gives_guard_bind, gives_modify]
  constructor
  · rintro ⟨_, _, ⟨rfl, rfl⟩, free, rfl⟩
    exact ⟨by simpa using free, rfl⟩
  · rintro ⟨free, rfl⟩
    exact ⟨_, _, ⟨rfl, rfl⟩, by simpa using free, rfl⟩

theorem gives_libc_found {found : Global} (known : session.global? libc.soughtName = some found) :
    Gives (Build.libc libc) session global after ↔ global = found ∧ after = session := by
  simp only [Build.libc, gives_bind, gives_get]
  constructor
  · rintro ⟨_, _, ⟨rfl, rfl⟩, given⟩
    simpa [known] using given
  · rintro ⟨rfl, rfl⟩
    exact ⟨_, _, ⟨rfl, rfl⟩, by simp [known]⟩

theorem gives_libc_missing (missing : session.global? libc.soughtName = none) :
    Gives (Build.libc libc) session global after ↔
      global = .function (.declare libc.name libc.signature) ∧
        session.isTaken libc.name = false ∧ after = session.add global := by
  simp only [Build.libc, gives_bind, gives_get]
  constructor
  · rintro ⟨_, _, ⟨rfl, rfl⟩, given⟩
    simp only [missing, gives_bind, gives_addGlobal, gives_pure] at given
    obtain ⟨_, _, ⟨free, rfl⟩, rfl, rfl⟩ := given
    exact ⟨rfl, free, rfl⟩
  · rintro ⟨rfl, free, rfl⟩
    refine ⟨_, _, ⟨rfl, rfl⟩, ?_⟩
    simp only [missing, gives_bind, gives_addGlobal, gives_pure]
    exact ⟨(), _, ⟨free, rfl⟩, trivial, rfl⟩

theorem gives_insertCall {owner base : String} {position : Nat} {callee : Global}
    {arguments : List Value} {value : Value} :
    Gives (Build.insertCall owner position callee arguments base) session value after ↔
      ∃ operation function, checkCall callee arguments = .ok operation ∧
        (session.global? owner).bind Global.function? = some function ∧
        value = (function.insertAtEntry position base operation).1 ∧
        after = session.replace owner (function.insertAtEntry position base operation).2 := by
  rw [Build.insertCall]
  cases checkCall callee arguments with
  | error fault => simp
  | ok operation =>
    simp only [gives_bind, gives_get]
    constructor
    · rintro ⟨_, session, ⟨rfl, rfl⟩, given⟩
      cases found : (session.global? owner).bind Global.function? with
      | none => simp [found] at given
      | some function =>
        simp only [found, gives_bind, gives_modify, gives_pure] at given
        obtain ⟨_, _, rfl, rfl, rfl⟩ := given
        exact ⟨operation, function, rfl, rfl, rfl, rfl⟩
    · rintro ⟨_, function, same, found, rfl, rfl⟩
      cases same
      refine ⟨_, _, ⟨rfl, rfl⟩, ?_⟩
      simp only [found, gives_bind, gives_modify, gives_pure]
      exact ⟨(), _, rfl, trivial, rfl⟩

/-- The start function takes nothing and gives a number. -/
theorem Session.start?_eq_some {start : Ir.Function} (found : session.start? = some start) :
    .function start ∈ session.globals ∧ start.name = functionName "start" ∧
      start.signature.result = .i64 ∧ start.signature.params = [] := by
  obtain ⟨global, member, isStart⟩ := mem_filterMap.mp (mem_of_find?_eq_some found)
  rw [Global.function?_eq_some.mp isStart] at member
  have fits := find?_some found
  simp only [Bool.and_eq_true, beq_iff_eq, decide_eq_true_eq, List.isEmpty_iff] at fits
  exact ⟨member, fits.1.1, fits.1.2, fits.2⟩

/-- The entry point calls the start function and gives the status that the system can take. -/
def Draft.callStart (draft : Draft) (start : Ir.Function) : Draft :=
  let called := draft.write "call_start" (.call start.name start.signature [])
  let status := Value.register (draft.named "call_start") start.signature.result
  let narrowed := called.write "" (.cast .trunc status .i32)
  narrowed.finish (.ret (.register (called.named "") .i32))

theorem gives_callStart {start : Ir.Function} (result : start.signature.result = .i64)
    (params : start.signature.params = []) {before after : Draft} :
    Gives (do
      let status ← Emit.call (.function start) [] "call_start"
      let status ← Emit.cast .trunc status .i32 ""
      Emit.exit (.ret status)) before () after ↔
      before.isEnded = false ∧ after = before.callStart start := by
  have checked : checkCall (.function start) [] = .ok (.call start.name start.signature []) := by
    simp [checkCall, params]
  have wide : start.signature.result ≠ .i32 := by
    rw [result]
    decide
  -- Neither instruction ends the block that it is written into.
  have going (status : Value) : ((before.write "call_start"
      (.call start.name start.signature [])).write "" (.cast .trunc status .i32)).isEnded =
        before.isEnded :=
    ((Appends.write ..).trans (.write ..)).isEnded_eq
  simp [checked, wide, going, Draft.callStart]

/-- The entry point is made in five steps, once a start function has been found. -/
theorem gives_wrapMain :
    Gives Build.wrapMain session done after ↔
      ∃ start, session.start? = some start ∧
        ∃ time timed, Gives (Build.libc .time) session time timed ∧
        ∃ srand declared, Gives (Build.libc .srand) timed srand declared ∧
        ∃ now asked,
          Gives (Build.insertCall start.name 0 time [.null .bytes] "call_time") declared now asked ∧
        ∃ none seeded,
          Gives (Build.insertCall start.name 1 srand [now] "call_srand") asked none seeded ∧
        seeded.isTaken "main" = false ∧
          after = ((Draft.opening seeded "main" ⟨.i32, [], false⟩).callStart start).close := by
  simp only [Build.wrapMain, gives_bind, gives_get]
  constructor
  · rintro ⟨_, session, ⟨rfl, rfl⟩, given⟩
    cases found : session.start? with
    | none => simp [found] at given
    | some start =>
      obtain ⟨_, _, result, params⟩ := Session.start?_eq_some found
      simp only [found, gives_bind, gives_define] at given
      obtain ⟨time, timed, timeGiven, srand, declared, srandGiven, now, asked, timeCalled, none,
        seeded, srandCalled, free, final, written, rfl⟩ := given
      have called := (gives_callStart result params).mp (by simpa only [gives_bind] using written)
      rw [called.2]
      exact ⟨start, rfl, time, timed, timeGiven, srand, declared, srandGiven, now, asked, timeCalled,
        none, seeded, srandCalled, free, rfl⟩
  · rintro ⟨start, found, time, timed, timeGiven, srand, declared, srandGiven, now, asked, timeCalled,
      none, seeded, srandCalled, free, rfl⟩
    obtain ⟨_, _, result, params⟩ := Session.start?_eq_some found
    have written := (gives_callStart result params).mpr
      ⟨Draft.isEnded_opening seeded "main" ⟨.i32, [], false⟩, rfl⟩
    refine ⟨_, _, ⟨rfl, rfl⟩, ?_⟩
    simp only [found, gives_bind, gives_define]
    exact ⟨time, timed, timeGiven, srand, declared, srandGiven, now, asked, timeCalled, none, seeded,
      srandCalled, free, _, by simpa only [gives_bind] using written, rfl⟩

end Build

section Start

/-- Two instructions are put before all others of the entry block. -/
def Ir.Function.seed (code : Ir.Function) (first second : Operation) : Ir.Function :=
  ((code.insertAtEntry 0 "call_time" first).2.insertAtEntry 1 "call_srand" second).2

/-- The call that asks for the time. -/
def askTime : Operation :=
  .call Libc.time.name Libc.time.signature [.null .bytes]

/-- The call that seeds the random numbers with what a function was told by the time. -/
def Ir.Function.useTime (code : Ir.Function) : Operation :=
  .call Libc.srand.name Libc.srand.signature [(code.insertAtEntry 0 "call_time" askTime).1]

/-- The start function with both calls. -/
def Ir.Function.seeded (code : Ir.Function) : Ir.Function :=
  code.seed askTime code.useTime

/-- The function that calls the start function. -/
def entryPoint (start : Ir.Function) : Ir.Function :=
  ((Draft.opening {} "main" ⟨.i32, [], false⟩).callStart start).function

/-- The module with the entry point behind the time, where the start function has got both calls. -/
def Session.withMain (session : Session) (start : Ir.Function) : Session :=
  { session with globals := (session.replace start.name start.seeded).globals ++
      [Libc.time.global, .function (entryPoint start)] }

variable {session : Session} {start : Ir.Function}

/-- Where a start function is found, with the library function that takes the seed, and where two
names are free, the entry point is added. -/
theorem gives_wrapMain_of_found (distinct : session.names.Nodup) (found : session.start? = some start)
    (seeds : ∃ srand, session.global? Libc.srand.name = some (.function srand) ∧
      srand.signature = Libc.srand.signature)
    (unnamed : Libc.time.name ∉ session.names) (mainFree : "main" ∉ session.names) :
    Gives Build.wrapMain session () (session.withMain start) := by
  obtain ⟨member, name, _, _⟩ := Session.start?_eq_some found
  let timed := session.add Libc.time.global
  have timeGiven : Gives (Build.libc .time) session Libc.time.global timed := by
    refine (gives_libc_missing (Session.global?_eq_none unnamed)).mpr ⟨rfl, ?_, rfl⟩
    rw [Session.isTaken_eq]
    simpa [Libc.name] using unnamed
  have still {name : String} {global : Global} (located : session.global? name = some global) :
      timed.global? name = some global := by
    rw [Session.global?] at located
    simp only [Session.global?, timed, Session.add, find?_append, located, Option.some_or]
  -- The library function that takes the seed is there.
  obtain ⟨srand, located, signature⟩ := seeds
  have srandName : srand.name = Libc.srand.name := by simpa using find?_some located
  have srandGiven : Gives (Build.libc .srand) timed (.function srand) timed := by
    refine (gives_libc_found ?_).mpr ⟨rfl, rfl⟩
    exact still located
  -- The first call changes the start function, and the second changes it again.
  have owned : timed.global? start.name = some (.function start) :=
    still (Session.global?_of_mem distinct member)
  let once := (start.insertAtEntry 0 "call_time" askTime).2
  have timeCalled : Gives (Build.insertCall start.name 0 Libc.time.global [.null .bytes] "call_time")
      timed (start.insertAtEntry 0 "call_time" askTime).1 (timed.replace start.name once) :=
    gives_insertCall.mpr ⟨askTime, start, rfl, by rw [owned]; rfl, rfl, rfl⟩
  have ownedOnce : (timed.replace start.name once).global? start.name = some (.function once) :=
    Session.global?_replace rfl owned
  have checked : checkCall (.function srand) [(start.insertAtEntry 0 "call_time" askTime).1] =
      .ok start.useTime := by
    simp only [checkCall, signature, srandName]
    rfl
  have srandCalled : Gives (Build.insertCall start.name 1 (.function srand)
      [(start.insertAtEntry 0 "call_time" askTime).1] "call_srand") (timed.replace start.name once)
      (once.insertAtEntry 1 "call_srand" start.useTime).1 (timed.replace start.name start.seeded) := by
    refine gives_insertCall.mpr ⟨start.useTime, once, checked, by rw [ownedOnce]; rfl, rfl, ?_⟩
    exact (@Session.replace_replace once timed start.name rfl _).symm
  -- None of this has taken the name of the entry point.
  let seeded := timed.replace start.name start.seeded
  have free : seeded.isTaken "main" = false := by
    have names : seeded.names = session.names ++ [Libc.time.name] := by
      calc seeded.names
        _ = timed.names := Session.names_replace timed rfl
        _ = session.names ++ [Libc.time.name] := map_append
    rw [Session.isTaken_eq, names]
    simpa [Libc.name] using mainFree
  refine gives_wrapMain.mpr ⟨start, found, _, timed, timeGiven, _, timed, srandGiven, _, _, timeCalled,
    _, seeded, srandCalled, free, ?_⟩
  have apart : Libc.time.global.name ≠ start.name := by
    rw [name]
    decide
  have globals : seeded.globals =
      (session.replace start.name start.seeded).globals ++ [Libc.time.global] := by
    simp [seeded, timed, Session.replace, Session.add, apart]
  show _ = Session.mk (seeded.globals ++ [.function (entryPoint start)]) _ _
  rw [globals, append_assoc]
  rfl

end Start

end LeftHand
