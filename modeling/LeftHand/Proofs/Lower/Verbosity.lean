import LeftHand.Lower.Script
import LeftHand.Proofs.Lower.Tandem

/-!
Verbose runs: a verbose build does what a quiet one does, and passes on to the caller the mistakes
with which the quiet one ends the program.
-/

namespace LeftHand

/-- What becomes of a fault of a quiet run in a verbose one. -/
def Fault.voiced : Fault → Fault
  | reported diagnostic pos isRaised => reported diagnostic pos (isRaised || !diagnostic.isPlain)
  | fault => fault

theorem Fault.voiced_of_isPlain {fault : Fault} (plain : fault.isPlain = true) :
    fault.voiced = fault := by
  cases fault with
  | reported diagnostic pos isRaised =>
    rw [isPlain, Bool.and_eq_true, Bool.not_eq_true'] at plain
    rw [voiced, plain.1, plain.2]
    rfl
  | _ => rfl

/-- A verbose step that does what a quiet one does, up to the faults that are passed on. -/
def Echoes {σ α : Type} (quiet loud : ExceptT Fault (StateM σ) α) : Prop :=
  ∀ before, (loud.run.run before : Except Fault α × σ) =
    ((quiet.run.run before).1.mapError Fault.voiced, (quiet.run.run before).2)

namespace Echoes

variable {σ α β : Type}

theorem pure (value : α) : Echoes (Pure.pure value : ExceptT Fault (StateM σ) α) (Pure.pure value) :=
  fun _ => rfl

/-- The second steps are compared only where the first ones succeed. -/
theorem bind {first first' : ExceptT Fault (StateM σ) α} {next next' : α → ExceptT Fault (StateM σ) β}
    (before : Echoes first first') (behind : ∀ value, Echoes (next value) (next' value)) :
    Echoes (first >>= next) (first' >>= next') := by
  intro state
  have started := before state
  simp only [ExceptT.run, StateT.run, Bind.bind, ExceptT.bind, ExceptT.mk, StateT.bind] at started ⊢
  rw [started]
  rcases first state with ⟨fault | value, between⟩
  · rfl
  · exact behind value between

theorem fails {fault : Fault} (plain : fault.isPlain = true) :
    Echoes (throw fault : ExceptT Fault (StateM σ) α) (throw fault) := by
  intro state
  change (Except.error fault, state) = (Except.error fault.voiced, state)
  rw [Fault.voiced_of_isPlain plain]

theorem get : Echoes (MonadState.get : ExceptT Fault (StateM σ) σ) MonadState.get :=
  fun _ => rfl

theorem set (state : σ) : Echoes (MonadStateOf.set state : ExceptT Fault (StateM σ) PUnit)
    (MonadStateOf.set state) :=
  fun _ => rfl

theorem changes (change : σ → σ) : Echoes (modify change : ExceptT Fault (StateM σ) PUnit)
    (modify change) :=
  fun _ => rfl

theorem forM {step step' : α → ExceptT Fault (StateM σ) PUnit}
    (same : ∀ item, Echoes (step item) (step' item)) (items : List α) :
    Echoes (items.forM step) (items.forM step') := by
  induction items with
  | nil => exact pure _
  | cons item items ih => exact (same item).bind fun _ => ih

end Echoes

theorem respected_echoes : Emit.Respected fun _ quiet loud => Echoes quiet loud where
  pure := .pure
  bind := .bind
  fails := .fails
  report voiced := by
    intro state
    change (Except.error (Fault.reported _ _ true), state) =
      (Except.error (Fault.reported _ _ (false || !Diagnostic.isPlain _)), state)
    rw [voiced]
    rfl
  get := .get
  takeName _ := Echoes.get.bind fun _ => (Echoes.set _).bind fun _ => .pure _
  modifyBlock _ := .changes _
  addBlock _ := (Echoes.get.bind fun _ => (Echoes.set _).bind fun _ => .pure _).bind fun _ =>
    Echoes.get.bind fun _ => (Echoes.set _).bind fun _ => .pure _
  enter _ := .changes _
  addString text := by
    intro state
    rw [run_addString]
    split <;> rfl

namespace Echoes

section Build

theorem addGlobal (global : Ir.Global) : Echoes (Build.addGlobal global) (Build.addGlobal global) := by
  refine get.bind fun session => ?_
  split
  · exact (fails rfl).bind fun _ => changes _
  · exact changes _

theorem addString (text name : String) (isCounted : Bool) :
    Echoes (Build.addString text name isCounted) (Build.addString text name isCounted) := by
  have added (name : String) := (addGlobal (.string name (constantBytes text))).bind fun _ =>
    pure (Ir.Global.string name (constantBytes text))
  rw [Build.addString]
  split
  · exact get.bind fun _ => (changes _).bind fun _ => added _
  · exact added _

theorem libc (libc : Libc) : Echoes (Build.libc libc) (Build.libc libc) := by
  refine get.bind fun session => ?_
  split
  · exact pure _
  · exact (addGlobal _).bind fun _ => pure _

theorem define (name : String) (signature : Ir.Signature) {body body' : Emit Unit}
    (same : Echoes body body') :
    Echoes (Build.define name signature body) (Build.define name signature body') := by
  intro session
  rw [run_define, run_define]
  split
  · rfl
  · simp only [same (.opening session name signature)]

theorem insertCall (owner : String) (position : Nat) (callee : Ir.Global) (arguments : List Ir.Value)
    (base : String) : Echoes (Build.insertCall owner position callee arguments base)
      (Build.insertCall owner position callee arguments base) := by
  rw [Build.insertCall]
  split
  · rename_i refused
    exact fails (Plain.checkCall _ _ _ refused)
  · refine get.bind fun session => ?_
    split
    · exact fails rfl
    · exact (changes _).bind fun _ => pure _

theorem wrapMain : Echoes Build.wrapMain Build.wrapMain := by
  refine get.bind fun session => ?_
  split
  · exact fails rfl
  · refine (libc _).bind fun time => (libc _).bind fun srand => ?_
    refine (insertCall _ _ _ _ _).bind fun now => (insertCall _ _ _ _ _).bind fun _ => ?_
    exact define _ _ ((respected_echoes.call _ _ _).bind fun _ =>
      (respected_echoes.cast _ _ _ _).bind fun _ => respected_echoes.exit _)

end Build

end Echoes

theorem respected_echoes_build : Build.Respected (fun _ quiet loud => Echoes quiet loud)
    fun _ quiet loud => Echoes quiet loud where
  pure := .pure
  bind := .bind
  fails := .fails
  get := .get
  setCasts _ := .changes _
  libc _ := .libc _
  addString _ _ _ := .addString _ _ _
  define _ _ _ _ same := .define _ _ same

/-- The verbose build of a program echoes the quiet one. -/
theorem Echoes.program (program : Program) :
    Echoes (Build.program false program) (Build.program true program) :=
  (respected_echoes_build.addAll respected_echoes.toUpheld).bind fun _ =>
    (Echoes.forM (respected_echoes_build.function respected_echoes) _).bind fun _ => .wrapMain

/-- A fault is passed on as the bare message of the line that ends the quiet run, or not changed. -/
theorem Fault.voiced_cases (fault : Fault) : fault.voiced = fault ∨ ∃ diagnostic pos,
    fault = .reported diagnostic pos false ∧ fault.voiced = .reported diagnostic pos true := by
  cases fault with
  | reported diagnostic pos isRaised =>
    cases isRaised with
    | true => exact .inl rfl
    | false =>
      -- Whoever finds a plain mistake does not know that the run is verbose.
      cases plain : diagnostic.isPlain with
      | true => exact .inl (voiced_of_isPlain (by rw [isPlain, plain]; rfl))
      | false => exact .inr ⟨diagnostic, pos, rfl, by rw [voiced, plain]; rfl⟩
  | _ => exact .inl rfl

/-- A verbose build leaves the same module and the same counters behind as a quiet one, and succeeds
where that does. Where the quiet one fails it fails, with the same fault or with the bare message of
the mistake that the quiet one reports with its place. -/
theorem verbose_program_agrees (program : Program) (session : Session) :
    let quiet := (Build.program false program).runOn session
    let loud := (Build.program true program).runOn session
    loud.2 = quiet.2 ∧
      ((quiet.1 = .ok () ∧ loud.1 = .ok ()) ∨
        ∃ fault other, quiet.1 = .error fault ∧ loud.1 = .error other ∧
          (other = fault ∨ ∃ diagnostic pos,
            fault = .reported diagnostic pos false ∧
              fault.message = s!"Error: {diagnostic.message} at {pos.line}:{pos.column}" ∧
                other = .reported diagnostic pos true ∧ other.message = diagnostic.message)) := by
  intro quiet loud
  have echoed : loud = (quiet.1.mapError Fault.voiced, quiet.2) := Echoes.program program session
  have sessions : loud.2 = quiet.2 := by rw [echoed]
  have results : loud.1 = quiet.1.mapError Fault.voiced := by rw [echoed]
  refine ⟨sessions, ?_⟩
  -- The result of the quiet run says what the other one is.
  cases ended : quiet.1 with
  | ok done => exact .inl ⟨rfl, by rw [results, ended]; rfl⟩
  | error fault =>
    refine .inr ⟨fault, fault.voiced, rfl, by rw [results, ended]; rfl, ?_⟩
    rcases fault.voiced_cases with same | ⟨diagnostic, pos, rfl, raised⟩
    · exact .inl same
    · refine .inr ⟨diagnostic, pos, rfl, rfl, raised, ?_⟩
      rw [raised]
      rfl

end LeftHand
