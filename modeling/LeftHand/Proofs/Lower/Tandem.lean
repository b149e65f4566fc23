import LeftHand.Lower.Program
import LeftHand.Proofs.Lower.Parallel

/-! Quiet and verbose building side by side. -/

namespace LeftHand

/-- The names under which the predefined functions ask for their string constants. -/
def Predefined.constantNames : List String :=
  [".fmt.s", ".fmt.d", ".true", ".false", ".fmt.c", ".fmt.p", ".mode.r"]

/-- A relation between steps of building that the basic steps have and sequences inherit. Functions
are defined by steps that are related as well; the time is asked for by the entry point alone. -/
structure Build.Respected (drafts : ∀ ⦃α : Type⦄, Emit α → Emit α → Prop)
    (rel : ∀ ⦃α : Type⦄, Build α → Build α → Prop) : Prop where
  pure {α : Type} (value : α) : rel (Pure.pure value) (Pure.pure value)
  bind {α β : Type} {first first' : Build α} {next next' : α → Build β} (before : rel first first')
    (behind : ∀ value, rel (next value) (next' value)) : rel (first >>= next) (first' >>= next')
  fails {α : Type} {fault : Fault} (plain : fault.isPlain = true) :
    rel (throw fault : Build α) (throw fault)
  get : rel MonadState.get MonadState.get
  setCasts (change : List (String × List Nat) → List (String × List Nat)) :
    rel (modify fun session => { session with casts := change session.casts })
      (modify fun session => { session with casts := change session.casts })
  libc {libc : Libc} (early : libc ≠ .time) : rel (Build.libc libc) (Build.libc libc)
  addString (text : String) {name : String} (ready : name ∈ Predefined.constantNames) :
    rel (Build.addString text name true) (Build.addString text name true)
  define (name : String) (signature : Ir.Signature) {body body' : Emit Unit} (same : drafts body body') :
    rel (Build.define (functionName name) signature body)
      (Build.define (functionName name) signature body')

namespace Emit.Upheld

variable {rel : ∀ ⦃α : Type⦄, Emit α → Emit α → Prop} (upheld : Emit.Upheld rel)

include upheld

theorem argument : rel Predefined.argument Predefined.argument := by
  refine upheld.bind upheld.get fun draft => ?_
  split
  · exact upheld.pure _
  · exact upheld.fails rfl

theorem addressOf (global : Ir.Global) :
    rel (Predefined.addressOf global) (Predefined.addressOf global) := by
  rw [Predefined.addressOf]
  split
  · exact upheld.pure _
  · exact upheld.fails rfl

theorem randomBits (rand : Ir.Global) : rel (Predefined.randomBits rand) (Predefined.randomBits rand) :=
  upheld.bind (upheld.call _ _ _) fun _ => upheld.bind (upheld.instr _ _) fun _ => upheld.cast _ _ _ _

end Emit.Upheld

namespace Build.Respected

variable {drafts : ∀ ⦃α : Type⦄, Emit α → Emit α → Prop} {rel : ∀ ⦃α : Type⦄, Build α → Build α → Prop}
  (respected : Build.Respected drafts rel)

include respected

theorem forM {α : Type} {step step' : α → Build PUnit} (same : ∀ item, rel (step item) (step' item))
    (items : List α) : rel (items.forM step) (items.forM step') := by
  induction items with
  | nil => exact respected.pure _
  | cons item items ih => exact respected.bind (same item) fun _ => ih

section Predefined

variable (upheld : Emit.Upheld drafts)

include upheld

theorem addPrinter (name : String) (param : Ir.Ty) (format : String) {formatName : String}
    (ready : formatName ∈ Predefined.constantNames) :
    rel (Predefined.addPrinter name param format formatName)
      (Predefined.addPrinter name param format formatName) := by
  refine respected.bind (respected.libc nofun) fun printf =>
    respected.bind (respected.addString _ ready) fun format => respected.define _ _ ?_
  refine upheld.bind (upheld.addressOf _) fun _ => upheld.bind (upheld.instr _ _) fun _ => ?_
  exact upheld.bind upheld.argument fun _ => upheld.bind (upheld.call _ _ _) fun _ => upheld.exit _

theorem addWriteTruth : rel Predefined.addWriteTruth Predefined.addWriteTruth := by
  refine respected.bind (respected.libc nofun) fun printf => respected.bind respected.get fun session => ?_
  split
  · refine respected.bind (respected.addString _ (by decide)) fun trueWord =>
      respected.bind (respected.addString _ (by decide)) fun falseWord => respected.define _ _ ?_
    -- The format and both words are looked up, then one word is chosen and printed.
    refine upheld.bind (upheld.addressOf _) fun _ => upheld.bind (upheld.instr _ _) fun _ => ?_
    refine upheld.bind (upheld.addressOf _) fun _ => upheld.bind (upheld.instr _ _) fun _ => ?_
    refine upheld.bind (upheld.addressOf _) fun _ => upheld.bind (upheld.instr _ _) fun _ => ?_
    refine upheld.bind upheld.argument fun _ => upheld.bind (upheld.instr _ _) fun _ => ?_
    exact upheld.bind (upheld.call _ _ _) fun _ => upheld.exit _
  · exact respected.fails rfl

theorem addReadNumber : rel Predefined.addReadNumber Predefined.addReadNumber := by
  refine respected.bind (respected.libc nofun) fun fgets => respected.bind (respected.libc nofun)
    fun atol => respected.bind (respected.libc nofun) fun fdopen =>
      respected.bind (respected.addString _ (by decide)) fun mode => respected.define _ _ ?_
  refine upheld.bind (upheld.addressOf _) fun _ => upheld.bind (upheld.instr _ _) fun _ => ?_
  refine upheld.bind (upheld.call _ _ _) fun input => upheld.bind (upheld.instr _ _) fun buffer => ?_
  refine upheld.bind (upheld.instr _ _) fun line => upheld.bind (upheld.call _ _ _) fun read => ?_
  refine upheld.bind (upheld.instr _ _) fun _ => upheld.bind (upheld.call _ _ _) fun _ => ?_
  exact upheld.bind (upheld.instr _ _) fun _ => upheld.exit _

theorem addRandom : rel Predefined.addRandom Predefined.addRandom := by
  refine respected.bind (respected.libc nofun) fun rand => respected.define _ _ ?_
  -- Five draws, five shifts, and four steps that put them together.
  iterate 5 refine upheld.bind (upheld.randomBits _) fun _ => ?_
  iterate 9 refine upheld.bind (upheld.instr _ _) fun _ => ?_
  exact upheld.exit _

theorem predefined (ready : Predefined) : rel ready.add ready.add := by
  cases ready with
  | writeString | writeNumber | writeChar => exact respected.addPrinter upheld _ _ _ (by decide)
  | writeLine =>
    exact respected.bind (respected.libc nofun) fun puts => respected.define _ _ <|
      upheld.bind upheld.argument fun _ => upheld.bind (upheld.call _ _ _) fun _ => upheld.exit _
  | writeTruth => exact respected.addWriteTruth upheld
  | writeAddress =>
    exact respected.bind (respected.addPrinter upheld _ _ _ (by decide)) fun _ => respected.setCasts _
  | readNumber => exact respected.addReadNumber upheld
  | seedRandom =>
    exact respected.bind (respected.libc nofun) fun srand => respected.define _ _ <|
      upheld.bind upheld.argument fun _ => upheld.bind (upheld.cast _ _ _ _) fun _ =>
        upheld.bind (upheld.call _ _ _) fun _ => upheld.exit _
  | random => exact respected.addRandom upheld

theorem addAll : rel Predefined.addAll Predefined.addAll :=
  respected.forM (respected.predefined upheld) _

end Predefined

/-- A function of the program is added in both runs, or in neither. -/
theorem function (emits : Emit.Respected drafts) (function : Function) :
    rel (Build.function false function) (Build.function true function) := by
  rw [Build.function, Build.function, ← Function.signature]
  split
  · rename_i refused
    -- Types are lowered before anything is added, and alike in both runs.
    have plain : Plain function.signature := (Plain.lowerType _).bind fun _ =>
      (Plain.mapM (fun _ => Plain.lowerType _) _).bind fun _ => .ok _
    exact respected.fails (plain _ refused)
  · exact respected.define _ _ (emits.lowerFunctionBody function)

end Build.Respected

end LeftHand
