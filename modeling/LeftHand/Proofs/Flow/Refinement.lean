import LeftHand.Proofs.Flow.Faithful
import LeftHand.Proofs.Flow.Places
import LeftHand.Proofs.Lower.Function

/-!
Functions keep their control flow: the code of a function that is built is walked as the function
runs, whatever the outcomes of its conditions are.
-/

namespace LeftHand

open List

variable {isVerbose : Bool} {function : Function} {session : Session} {name : String}
  {signature : Ir.Signature} {start final : Draft} {log : Log} {code : Visit → List Ir.Event}

theorem Draft.Shape.closed_of_isEnded (shape : final.Shape []) (isEnded : final.isEnded = true) :
    final.function.Closed where
  exits block member := by
    obtain ⟨i, located⟩ := getElem?_of_mem member
    by_cases here : i = final.current
    · subst here
      simpa [Draft.isEnded, Draft.block?, located] using isEnded
    · exact shape.closed i block located here not_mem_nil
  labels := shape.labels

namespace LowersFunction

variable (derived : LowersFunction isVerbose function (.opening session name signature) start final log)

include derived

theorem begins : start.Shape [] ∧ start.isEnded = false ∧ start.current = 0 := by
  have params : ∃ env, Gives (lowerParams ((Draft.opening session name signature).bound function) [])
      (.opening session name signature) env start := by
    cases derived with
    | ended params | fallsOff params => exact ⟨_, params⟩
  obtain ⟨env, params⟩ := params
  obtain ⟨code, appended⟩ := lowerParams_appends params
  refine ⟨(Draft.shape_opening ..).appends appended, ?_, appended.current⟩
  rw [appended.isEnded_eq, Draft.isEnded_opening]

theorem closed : final.function.Closed := by
  obtain ⟨shape, _, _⟩ := derived.begins
  cases derived with
  | ended _ lowered isEnded => exact (lowered.shape shape).closed_of_isEnded isEnded
  | fallsOff _ lowered =>
    have atEnd := lowered.shape shape
    exact (atEnd.finish _).closed_of_isEnded (atEnd.isEnded_finish _)

theorem nodup : log.visits.Nodup := by
  cases derived with
  | ended _ lowered => exact lowered.nodup (cons_ne_nil _ _)
  | fallsOff _ lowered =>
    rw [Log.visits_append]
    refine (lowered.nodup (cons_ne_nil _ _)).append (nodup_singleton _) ?_
    intro visit member last
    obtain rfl := mem_singleton.mp last
    obtain ⟨_, place, _⟩ := lowered.holds (cons_ne_nil _ _) member
    cases place

/-- With any outcomes, a function that is built runs, past places that have code. -/
theorem exists_runs (outcomes : List Bool) :
    ∃ trace stop, function.Runs outcomes trace stop ∧ trace ⊆ log.visits := by
  obtain ⟨shape, going, _⟩ := derived.begins
  cases derived with
  | ended _ lowered isEnded =>
    obtain ⟨trace, result, ran, known⟩ := lowered.exists_runs shape going outcomes
    cases result with
    | stops stop => exact ⟨trace, stop, .stops ran, known⟩
    | falls left =>
      -- The code of the statements has ended, so no run comes to their end.
      rw [lowered.isEnded_eq shape going, ran.isEnding_eq_false] at isEnded
      cases isEnded
  | fallsOff _ lowered =>
    obtain ⟨trace, result, ran, known⟩ := lowered.exists_runs shape going outcomes
    rw [Log.visits_append]
    cases result with
    | stops stop => exact ⟨trace, stop, .stops ran, subset_append_of_subset_left _ known⟩
    | falls left =>
      refine ⟨_, _, .fallsOff ran, append_subset.mpr ⟨?_, subset_append_right _ _⟩⟩
      exact subset_append_of_subset_left _ known

/-- Walks from the statements of a function come past the code of what its runs come past. -/
theorem reaches (spelled : ∀ entry ∈ log, code entry.1 = entry.2) {outcomes : List Bool}
    {trace : List Visit} {stop : Stop} (ran : function.Runs outcomes trace stop) :
    start.Reaches final.function outcomes (trace.flatMap code) stop := by
  have closed := derived.closed
  obtain ⟨shape, going, _⟩ := derived.begins
  cases derived with
  | ended _ lowered isEnded =>
    have stretch : Stretch _ _ _ _ _ _ _ _ _ :=
      ⟨⟨_, shape⟩, going, (Draft.Grows.refl _).blocks, _, lowered, spelled⟩
    cases ran with
    | stops ran => simpa using ran.reaches closed stretch ⟨rfl, rfl⟩
    | fallsOff ran =>
      rw [lowered.isEnded_eq shape going, ran.isEnding_eq_false] at isEnded
      cases isEnded
  | @fallsOff _ last _ _ lowered lastGoing =>
    obtain ⟨inside, chunk⟩ := forall_mem_append.mp spelled
    have stretch : Stretch _ _ _ _ _ _ _ _ _ :=
      ⟨⟨_, shape⟩, going, (Draft.finish_grows lastGoing .retVoid).blocks, _, lowered, inside⟩
    cases ran with
    | stops ran => simpa using ran.reaches closed stretch ⟨rfl, rfl⟩
    | @fallsOff _ left ran =>
      have atEnd := ((lowered.shape shape).leaves_finish .retVoid).remains (Draft.Grows.refl _).blocks
      have returns : last.Reaches _ left [.ret none] .returns := ⟨_, _, atEnd, .retVoid⟩
      have chunk := chunk _ mem_cons_self
      simpa [chunk] using ran.reaches closed stretch returns

theorem grows : (Draft.opening session name signature).Grows final := by
  obtain ⟨shape, going, _⟩ := derived.begins
  cases derived with
  | ended params lowered =>
    obtain ⟨code, appended⟩ := lowerParams_appends params
    exact (appended.grows (Draft.isEnded_opening ..)).trans (lowered.grows shape going)
  | fallsOff params lowered lastGoing =>
    obtain ⟨code, appended⟩ := lowerParams_appends params
    exact ((appended.grows (Draft.isEnded_opening ..)).trans (lowered.grows shape going)).trans
      (Draft.finish_grows lastGoing _)

theorem globals_close :
    final.close.globals = session.globals ++ .function final.function :: final.strings := by
  have kept : final.session.globals = session.globals := derived.grows.globals
  simp [Draft.close, Draft.globals, kept]

/-- Walks through a function come past its parameters, then past the code of what its runs come
past. -/
theorem walks (spelled : ∀ entry ∈ log, code entry.1 = entry.2) {outcomes : List Bool}
    {trace : List Visit} {stop : Stop} (ran : function.Runs outcomes trace stop) :
    final.function.Walks outcomes (start.code.map .instr ++ trace.flatMap code) stop := by
  obtain ⟨rest, exit, ⟨block, located, written, ended⟩, walked⟩ := derived.reaches spelled ran
  obtain ⟨_, _, entry⟩ := derived.begins
  refine ⟨block, exit, ?_, ended, ?_⟩
  · rw [entry] at located
    rw [head?_eq_getElem?, located]
  · rw [written]
    exact walked.instrs

end LowersFunction

/-- A function that is built keeps its control flow. The derivation of its code gives each statement
and each condition its piece of code. Whatever the outcomes of the conditions are, and however many
of them are looked at, the function has one run, the code has one walk, and the walk goes through
the parameters and then through the pieces of code of what the run comes past, in the same order,
and stops as the run does. -/
theorem walks_iff_runs {after : Session}
    (built : Gives (Build.function isVerbose function) session () after) :
    ∃ signature start final log, ∃ code : Visit → List Ir.Event,
      LowersFunction isVerbose function
        (.opening session (functionName function.ident.text) signature) start final log ∧
      (∀ entry ∈ log, code entry.1 = entry.2) ∧
      after.globals = session.globals ++ .function final.function :: final.strings ∧
      ∀ (outcomes : Stream' Bool) (n : Nat), ∃ trace stop,
        (∀ passed reason,
          function.Runs (outcomes.take n) passed reason ↔ passed = trace ∧ reason = stop) ∧
        trace ⊆ log.visits ∧
        ∀ events reason,
          final.function.Walks (outcomes.take n) events reason ↔
            events = start.code.map .instr ++ trace.flatMap code ∧ reason = stop := by
  obtain ⟨signature, _, _, final, written, rfl⟩ := gives_function.mp built
  obtain ⟨start, log, derived⟩ := gives_lowerFunctionBody.mp written
  obtain ⟨code, spelled⟩ := Log.exists_code derived.nodup
  refine ⟨signature, start, final, log, code, derived, spelled, derived.globals_close, ?_⟩
  intro outcomes n
  obtain ⟨trace, stop, ran, known⟩ := derived.exists_runs (outcomes.take n)
  have walked := derived.walks spelled ran
  refine ⟨trace, stop, fun passed reason => ⟨fun again => ?_, ?_⟩, known,
    fun events reason => ⟨fun again => ?_, ?_⟩⟩
  · exact again.unique ran
  · rintro ⟨rfl, rfl⟩
    exact ran
  · exact again.unique walked
  · rintro ⟨rfl, rfl⟩
    exact walked

/-- A function that counts its parameter down to zero, unless it comes past five on the way. -/
def countdown : Function :=
  let pos : Pos := ⟨1, 1⟩
  let number : Ident := ⟨pos, "number"⟩
  let value : Expr := .name pos number
  { pos, type := .decimal pos, ident := ⟨pos, "countdown"⟩
    params := [⟨pos, .decimal pos, number⟩]
    body := ⟨pos,
      [.loop pos (.binary pos .greater value (.decimal pos 0)) pos
        [.branch pos (.binary pos .equals value (.decimal pos 5)) pos [.ret pos (some value)]
          (.otherwise pos
            [.assign pos (.name number) (.binary pos .sub value (.decimal pos 1))])],
       .ret pos (some (.decimal pos 0))]⟩ }

/-- The countdown can be built, and whatever the outcomes, its code is walked as it runs. -/
theorem walks_iff_runs_countdown :
    ∃ after code strings, Gives (Build.function false countdown) {} () after ∧
      after.globals = .function code :: strings ∧
      ∀ (outcomes : Stream' Bool) (n : Nat), ∃ trace stop events,
        countdown.Runs (outcomes.take n) trace stop ∧ code.Walks (outcomes.take n) events stop := by
  obtain ⟨_, after, built⟩ : ∃ done after, Gives (Build.function false countdown) {} done after :=
    Gives.of_isOk (by decide +kernel)
  obtain ⟨_, start, final, _, _, _, _, globals, flow⟩ := walks_iff_runs built
  refine ⟨after, final.function, final.strings, built, globals, fun outcomes n => ?_⟩
  obtain ⟨trace, stop, runs, _, walks⟩ := flow outcomes n
  exact ⟨trace, stop, _, (runs _ _).mpr ⟨rfl, rfl⟩, (walks _ _).mpr ⟨rfl, rfl⟩⟩

end LeftHand
