import LeftHand.Proofs.Flow.Refinement
import LeftHand.Proofs.Lower.InScope

/-!
Whole functions: the code of a function is well assembled of typed instructions, all its blocks have
ended, and wherever code of a statement or condition begins, the variables in scope have their
memory.
-/

namespace LeftHand

open Ir

variable {declares : String → Signature → Prop} {signature : Signature}

/-- A place of a draft in later code of the same function. What is known there includes the
addresses of the variables in scope, which are of memory that the function takes. -/
def Ir.Function.Places (code : Ir.Function) (known : Known) (scope : Env) (point : Draft) : Prop :=
  ∃ block front back, code.blocks[point.current]? = some block ∧
    block.code = (front ++ point.code) ++ back ∧
    ∀ name address, scope.lookup name = some address →
      address ∈ known point.current ++ (front ++ point.code).map Instr.result ∧
        code.Allocates address

/-- Code that a function has become, from the draft in which it was opened. For every place where
code of the function begins, it has a certificate by which the variables in scope can be used
there. -/
structure Function.Becomes (isVerbose : Bool) (declares : String → Signature → Prop)
    (function : Function) (opened : Draft) (code : Ir.Function) : Prop where
  ended : ∀ block ∈ code.blocks, block.exit.isSome
  places : ∃ env start, Gives (lowerParams (opened.bound function) []) opened env start ∧
    ∀ scope point, Begins isVerbose env (.body function.body.statements) start scope point →
      ∃ known, code.Assembled (Operation.Typed declares) Exit.Typed known ∧
        code.Places known scope point

theorem Draft.hosts_opening {session : Session} {name : String}
    (calls : (Draft.opening session name signature).Calls declares) (known : Known) :
    (Draft.opening session name signature).Hosts declares known [] :=
  ⟨⟨(Draft.shape_opening ..).inside, Draft.isEnded_opening ..⟩, calls, fun _ _ found => by cases found⟩

theorem Chart.sight_opening (session : Session) (name : String) (signature : Signature) :
    Chart.sight ⟨.opening session name signature,
      fun _ => (Ir.Function.declare name signature).arguments⟩ =
      (Ir.Function.declare name signature).arguments :=
  List.append_nil _

/-- A place that steps lead from is a place of the code that they lead to. -/
theorem Chart.Steps.places {rule : Operation → Prop} {ends : Exit → Prop} {point final : Draft}
    {here last : Known} {scope : Env} (steps : Chart.Steps rule ends ⟨point, here⟩ ⟨final, last⟩)
    (inside : point.current < point.function.blocks.length) (held : scope.Held ⟨point, here⟩) :
    final.function.Places last scope point := by
  -- Blocks only grow, so the code up to the place is where it was.
  have located := List.getElem?_eq_getElem inside
  obtain ⟨block, found, goesOn⟩ := steps.grows.blocks _ _ located
  obtain ⟨back, written⟩ := goesOn.code
  have sameCode : point.code = point.function.blocks[point.current].code := by
    simp [Draft.code, Draft.block?, located]
  -- What is known at the start of a block never changes.
  have sameKnown : last point.current = here point.current := steps.known_eq inside
  refine ⟨block, [], back, found, by rw [List.nil_append, sameCode, written], ?_⟩
  intro name address isVariable
  obtain ⟨inSight, allocates⟩ := held name address isVariable
  rw [List.nil_append, sameKnown]
  exact ⟨inSight, allocates.grows steps.grows⟩

/-- The code of a function is what its rules ask for. -/
theorem LowersFunction.becomes {isVerbose : Bool} {function : Function} {session : Session}
    {name : String} {start final : Draft} {log : Log}
    (derived : LowersFunction isVerbose function (.opening session name signature) start final log)
    (calls : (Draft.opening session name signature).Calls declares) :
    (∃ known, TypedSteps declares ⟨.opening session name signature,
        fun _ => (Ir.Function.declare name signature).arguments⟩ ⟨final, known⟩) ∧
      function.Becomes isVerbose declares (.opening session name signature) final.function := by
  have closed := derived.closed
  obtain ⟨shape, going, _⟩ := derived.begins
  -- In either case the statements lead to a draft from which at most one step is left.
  obtain ⟨env, last, log, params, lowered, ends⟩ : ∃ env last log,
      Gives (lowerParams ((Draft.opening session name signature).bound function) [])
        (.opening session name signature) env start ∧
      Lowers isVerbose [0] env (.body function.body.statements) start env last log ∧
      ∀ known, TypedSteps declares ⟨last, known⟩ ⟨final, known⟩ := by
    cases derived with
    | ended params lowered => exact ⟨_, _, _, params, lowered, fun _ => .refl⟩
    | fallsOff params lowered lastGoing =>
      exact ⟨_, _, _, params, lowered, fun _ => .single
        (.finish lastGoing (by simp [Exit.operands]) (by simp [Exit.targets]) trivial)⟩
  -- The parameters are put into memory at once, where they are known.
  obtain ⟨straight, hosts⟩ : Straight (Operation.Typed declares) Exit.Typed _ _ _ ∧ _ :=
    lowerParams_straight (Draft.hosts_opening calls _) (fun param member => by
      rw [Chart.sight_opening]
      exact Value.usableIn_of_mem (List.of_mem_zip member).2) params
  -- Steps lead from the opening past the parameters to the place, and from there to the end.
  have passed {scope : Env} {point : Draft}
      (begins : Begins isVerbose env (.body function.body.statements) start scope point) :
      ∃ known, TypedSteps declares ⟨.opening session name signature,
          fun _ => (Ir.Function.declare name signature).arguments⟩ ⟨final, known⟩ ∧
        final.function.Places known scope point := by
    obtain ⟨here, known, toPlace, held, fromPlace, _, _⟩ := lowered.goesPast shape hosts begins
    have toPlace := straight.steps.trans toPlace
    have fromPlace := fromPlace.trans (ends known)
    -- Along the steps, the block that is written to is always there.
    have inside := (Chart.Steps.sound toPlace (Chart.sound_opening ..)).inside
    exact ⟨known, toPlace.trans fromPlace, Chart.Steps.places fromPlace inside held⟩
  refine ⟨(passed .here).imp fun _ found => found.1, closed.exits, env, start, params, ?_⟩
  intro scope point begins
  obtain ⟨known, steps, places⟩ := passed begins
  exact ⟨known, (Chart.Steps.sound steps (Chart.sound_opening ..)).assembled, places⟩

end LeftHand
