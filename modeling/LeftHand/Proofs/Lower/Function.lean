import LeftHand.Proofs.Lower.Shape

/-!
Lowering of whole functions: parameters take memory, statements are lowered, and the end of a void
function returns.
-/

namespace LeftHand

open Ir

variable {params : List (String × Value)}

/-- The draft of a function in which nothing has been written yet. -/
def Draft.opening (session : Session) (name : String) (signature : Signature) : Draft :=
  ({ session, function := .declare name signature } : Draft).grow "entry"

theorem Draft.shape_opening (session : Session) (name : String) (signature : Signature) :
    (opening session name signature).Shape [] where
  inside := by simp [opening, grow, Ir.Function.declare]
  once := by simp
  empty := by simp
  closed i block located other := by
    have : i = 0 := by
      have := (List.getElem?_eq_some_iff.mp located).1
      simp [opening, grow, Ir.Function.declare] at this
      omega
    exact absurd this other
  labels := by simp [opening, grow, Ir.Function.declare]
  used := by simp [opening, grow, Ir.Function.declare, named]

theorem Draft.isEnded_opening (session : Session) (name : String) (signature : Signature) :
    (opening session name signature).isEnded = false := by
  simp [isEnded, block?, opening, grow, Ir.Function.declare]

/-- The types of a function's result and parameters in the code. -/
def Function.signature (function : Function) : Except Fault Signature := do
  let result ← lowerType false function.type
  let params ← function.params.mapM fun param => lowerType false param.type
  return ⟨result, params, false⟩

section Build

variable {session after : Session} {done : Unit}

/-- A function is defined under a name that is not taken, and its code is written. -/
theorem gives_define {name : String} {signature : Signature} {body : Emit Unit} :
    Gives (Build.define name signature body) session done after ↔
      session.isTaken name = false ∧
        ∃ final, Gives body (.opening session name signature) () final ∧ after = final.close := by
  -- Opening the function always succeeds, so its body alone decides.
  let step : Emit Unit := Emit.addBlock "entry" >>= fun _ => body
  let blank : Draft := { session, function := .declare name signature }
  have opened (final : Draft) :
      Gives step blank () final ↔ Gives body (.opening session name signature) () final := by
    simp [step, blank, Draft.opening]
  simp only [← opened, Build.define, gives_bind, gives_get, gives_guard_bind]
  constructor
  · rintro ⟨_, session, ⟨rfl, rfl⟩, free, defined⟩
    refine ⟨by simpa using free, ?_⟩
    generalize written : StateT.run (ExceptT.run (Emit.addBlock "entry" >>= fun _ => body)) _ = pair
      at defined
    obtain ⟨fault | _, final⟩ := pair
    · simp at defined
    · simp only [gives_bind, gives_set, gives_pure] at defined
      obtain ⟨_, _, rfl, _, rfl⟩ := defined
      exact ⟨final, written, rfl⟩
  · rintro ⟨free, final, written, rfl⟩
    refine ⟨_, _, ⟨rfl, rfl⟩, by simpa using free, ?_⟩
    have written : StateT.run (ExceptT.run step) blank = (.ok (), final) := written
    simp only [step, blank] at written
    rw [written]
    simp

theorem gives_function {isVerbose : Bool} {function : Function} :
    Gives (Build.function isVerbose function) session done after ↔
      ∃ signature, function.signature = .ok signature ∧
        session.isTaken (functionName function.ident.text) = false ∧
        ∃ final, Gives (lowerFunctionBody isVerbose function)
            (.opening session (functionName function.ident.text) signature) () final ∧
          after = final.close := by
  rw [Build.function, ← Function.signature]
  cases function.signature with
  | error fault => simp
  | ok signature => simp [gives_define]

end Build

variable {isVerbose : Bool} {env env' : Env} {before after : Draft}

theorem gives_lowerParams_cons {name : String} {value : Value} :
    Gives (lowerParams ((name, value) :: params) env) before env' after ↔
      value.type ≠ .void ∧
        let address := Value.register (before.named name) (.pointer value.type)
        Gives (lowerParams params ((name, address) :: env))
          ((before.write name (.alloca value.type)).write "" (.store value address)) env' after := by
  simp [lowerParams]

theorem lowerParams_appends (lowered : Gives (lowerParams params env) before env' after) :
    ∃ code, Appends before code after := by
  induction params generalizing env before with
  | nil =>
    obtain ⟨_, rfl⟩ := gives_pure.mp lowered
    exact ⟨_, .refl _⟩
  | cons param params ih =>
    obtain ⟨_, lowered⟩ := gives_lowerParams_cons.mp lowered
    obtain ⟨code, appended⟩ := ih lowered
    exact ⟨_, ((Appends.write ..).trans (.write ..)).trans appended⟩

/-- The parameters of a function with the values that stand for them. -/
def Draft.bound (draft : Draft) (function : Function) : List (String × Value) :=
  (function.params.map (·.ident.text)).zip draft.function.arguments

/-- The rules for a whole function: from the draft in which it has been opened, parameters lead to
the draft in which its statements begin, and these to the final one. -/
inductive LowersFunction (isVerbose : Bool) (function : Function) (before start : Draft) :
    Draft → Log → Prop where
  | ended {env last log} (params : Gives (lowerParams (before.bound function) []) before env start)
      (lowered : Lowers isVerbose [0] env (.body function.body.statements) start env last log)
      (isEnded : last.isEnded = true) :
      LowersFunction isVerbose function before start last log
  /-- Only a void function may come to the end of its statements, and it returns there. -/
  | fallsOff {env last log}
      (params : Gives (lowerParams (before.bound function) []) before env start)
      (lowered : Lowers isVerbose [0] env (.body function.body.statements) start env last log)
      (going : last.isEnded = false) (isVoid : function.type.isVoid = true) :
      LowersFunction isVerbose function before start (last.finish .retVoid)
        (log ++ [(.fallOff, [.ret none])])

/-- The code of a function is written if its statements can be lowered. -/
theorem gives_lowerFunctionBody {function : Function} {done : Unit} :
    Gives (lowerFunctionBody isVerbose function) before done after ↔
      ∃ start log, LowersFunction isVerbose function before start after log := by
  simp only [lowerFunctionBody, gives_bind, gives_get]
  constructor
  · rintro ⟨_, _, ⟨rfl, rfl⟩, env, start, params, _, _, lowered, _, last, ⟨rfl, rfl⟩, finished⟩
    obtain ⟨log, derived⟩ := lowerBody_lowers [0] _ lowered
    cases isEnded : last.isEnded with
    | true =>
      simp only [isEnded, Bool.not_true, Bool.false_eq_true, if_false, gives_pure] at finished
      obtain ⟨_, rfl⟩ := finished
      exact ⟨start, log, .ended params derived isEnded⟩
    | false =>
      simp only [isEnded, Bool.not_false, if_true, Emit.report, gives_allowed, gives_exit] at finished
      obtain ⟨isVoid, _, rfl⟩ := finished
      exact ⟨start, _, .fallsOff params derived isEnded isVoid⟩
  · rintro ⟨start, log, derived⟩
    cases derived with
    | ended params lowered isEnded =>
      refine ⟨_, _, ⟨rfl, rfl⟩, _, start, params, (), _, (gives_lower_body.mp lowered.gives).2, _, _,
        ⟨rfl, rfl⟩, ?_⟩
      simp [isEnded]
    | fallsOff params lowered going isVoid =>
      refine ⟨_, _, ⟨rfl, rfl⟩, _, start, params, (), _, (gives_lower_body.mp lowered.gives).2, _, _,
        ⟨rfl, rfl⟩, ?_⟩
      simp [going, isVoid]

end LeftHand
