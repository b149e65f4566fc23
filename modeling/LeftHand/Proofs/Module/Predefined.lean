import LeftHand.Proofs.Module.Sound

/-!
Predefined functions: each is one block of straight code that uses only what it has computed, so the
module stays sound while they are added, whatever is left in the counters from other modules.
-/

namespace LeftHand

open Ir List

/-- Steps of building that keep a module sound. -/
def Build.Keeps {α : Type} (step : Build α) : Prop :=
  ∀ before value after, before.Sound →
    Gives step before value after → after.Sound

namespace Build.Keeps

variable {α β : Type}

theorem pure (value : α) : Keeps (Pure.pure value) := by
  intro before given after sound built
  obtain ⟨_, rfl⟩ := gives_pure.mp built
  exact sound

theorem bind {first : Build α} {next : α → Build β} (firstKeeps : Keeps first)
    (nextKeeps : ∀ value, Keeps (next value)) : Keeps (first >>= next) := by
  intro before given after sound built
  obtain ⟨value, between, firstBuilt, nextBuilt⟩ := gives_bind.mp built
  exact nextKeeps value _ _ _ (firstKeeps _ _ _ sound firstBuilt) nextBuilt

theorem fails (fault : Fault) : Keeps (throw fault : Build α) := by
  intro before given after sound built
  exact absurd built (by simp)

theorem get : Keeps (MonadState.get : Build Session) := by
  intro before given after sound built
  obtain ⟨_, rfl⟩ := gives_get.mp built
  exact sound

/-- Whatever else is remembered, only the globals matter. -/
theorem modify {change : Session → Session}
    (same : ∀ session, (change session).globals = session.globals) :
    Keeps (MonadState.modifyGet fun session => ((), change session) : Build Unit) := by
  intro before given after sound built
  obtain rfl := gives_modify.mp built
  exact sound.of_globals fun _ member => .inl (same before ▸ member)

theorem libc (libc : Libc) : Keeps (Build.libc libc) := by
  intro before given after sound built
  -- A library function is declared when it is asked for first.
  cases found : before.global? libc.soughtName with
  | none =>
    obtain ⟨rfl, free, rfl⟩ := (gives_libc_missing found).mp built
    exact sound.declare free
  | some global =>
    obtain ⟨_, rfl⟩ := (gives_libc_found found).mp built
    exact sound

theorem addString (text : String) {name : String} (dotted : name.toList.head? = some '.') :
    Keeps (Build.addString text name true) := by
  intro before given after sound built
  simp only [Build.addString, if_true, gives_bind, gives_get, gives_modify, gives_addGlobal,
    gives_pure] at built
  obtain ⟨_, _, ⟨rfl, rfl⟩, _, _, rfl, _, _, ⟨_, rfl⟩, _, rfl⟩ := built
  exact sound.add ⟨_, _, rfl, head_constantName dotted⟩ _

end Build.Keeps

/-- Where a draft stands, some values and the parameters are in reach. -/
structure Emit.InReach (given : List Value) (known : Known) (draft : Draft) : Prop where
  isOpen : draft.IsOpen
  parameters : draft.function.arguments ⊆ Chart.sight ⟨draft, known⟩
  usable : ∀ operand ∈ given, operand.UsableIn (Chart.sight ⟨draft, known⟩)

/-- Straight code that uses only some values and the parameters, and gives others. -/
def Emit.Runs {α : Type} (given : List Value) (step : Emit α) (results : α → List Value) :
    Prop :=
  ∀ ⦃known before value after⦄, InReach given known before → Gives step before value after →
      Straight (fun _ => True) (fun _ => True) known before after ∧
        ∀ result ∈ results value, result.UsableIn (Chart.sight ⟨after, known⟩)

/-- Straight code that ends its function. -/
def Emit.Finishes (given : List Value) (step : Emit Unit) : Prop :=
  ∀ ⦃known before after⦄, InReach given known before → Gives step before () after →
      ∃ last exit, Straight (fun _ => True) (fun _ => True) known before last ∧ last.IsOpen ∧
        exit.targets = [] ∧ (∀ operand ∈ exit.operands, operand.UsableIn (Chart.sight ⟨last, known⟩)) ∧
        after = last.finish exit

namespace Emit

variable {α β : Type} {given : List Value} {results : α → List Value}

/-- Operands that are among the given values, or constants. -/
def Draws (given operands : List Value) : Prop :=
  ∀ operand ∈ operands, operand ∈ given ∨ operand.isRegister = false

theorem Draws.usable {operands known : List Value} (draws : Draws given operands)
    (usable : ∀ operand ∈ given, operand.UsableIn known) :
    ∀ operand ∈ operands, operand.UsableIn known := by
  intro operand member
  rcases draws operand member with isGiven | constant
  · exact usable operand isGiven
  · exact Value.usableIn_of_isRegister constant _

/-- Behind straight code, what it gives can be used, and what could be used before still can. -/
theorem InReach.behind {known : Known} {before after : Draft} {more : List Value}
    (reach : InReach given known before)
    (straight : Straight (fun _ => True) (fun _ => True) known before after)
    (usable : ∀ result ∈ more, result.UsableIn (Chart.sight ⟨after, known⟩)) :
    InReach (more ++ given) known after where
  isOpen := straight.isOpen reach.isOpen
  parameters := by
    obtain ⟨_, appended⟩ := straight.appends
    rw [Ir.Function.arguments, appended.params, appended.signature]
    exact List.Subset.trans reach.parameters straight.sight_subset
  usable := forall_mem_append.mpr ⟨usable, fun operand member =>
    (reach.usable operand member).mono straight.sight_subset⟩

theorem Runs.bind {first : Emit α} {next : α → Emit β} {others : β → List Value}
    (firstRuns : Runs given first results)
    (nextRuns : ∀ value, Runs (results value ++ given) (next value) others) :
    Runs given (first >>= next) others := by
  intro known before value after reach written
  obtain ⟨value, between, firstWritten, nextWritten⟩ := gives_bind.mp written
  obtain ⟨straight, usable⟩ := firstRuns reach firstWritten
  obtain ⟨onward, othersUsable⟩ := nextRuns value (reach.behind straight usable) nextWritten
  exact ⟨straight.trans onward, othersUsable⟩

theorem Finishes.bind {first : Emit α} {next : α → Emit Unit} (firstRuns : Runs given first results)
    (nextFinishes : ∀ value, Finishes (results value ++ given) (next value)) :
    Finishes given (first >>= next) := by
  intro known before after reach written
  obtain ⟨value, between, firstWritten, nextWritten⟩ := gives_bind.mp written
  obtain ⟨straight, usable⟩ := firstRuns reach firstWritten
  obtain ⟨last, exit, onward, rest⟩ :=
    nextFinishes value (reach.behind straight usable) nextWritten
  exact ⟨last, exit, straight.trans onward, rest⟩

theorem Runs.instr {base : String} {operation : Operation}
    (draws : Draws given operation.operands) : Runs given (Emit.instr base operation) ([·]) := by
  intro known before value after reach written
  obtain ⟨rfl, rfl⟩ := gives_instr.mp written
  have yields : Yields (fun _ => True) (fun _ => True) known before
      (.register (before.named base) operation.type) _ :=
    .write reach.isOpen (draws.usable reach.usable) trivial rfl
  exact ⟨yields.straight, forall_mem_singleton.mpr yields.usable⟩

theorem Runs.firstByte {address : Value} (draws : Draws given [address]) :
    Runs given (Emit.firstByte address) ([·]) :=
  .instr (by simpa [Draws, Operation.operands, Value.isRegister] using draws)

theorem Runs.cast {op : Cast} {operand : Value} {type : Ir.Ty} {name : String}
    (draws : Draws given [operand]) : Runs given (Emit.cast op operand type name) ([·]) := by
  rw [Emit.cast]
  -- A value that has the type already is left as it is.
  split
  · intro known before value after reach written
    obtain ⟨rfl, rfl⟩ := gives_pure.mp written
    exact ⟨.refl _, draws.usable reach.usable⟩
  · exact .instr draws

theorem Runs.call {callee : Global} {arguments : List Value} {name : String}
    (draws : Draws given arguments) : Runs given (Emit.call callee arguments name) ([·]) := by
  rw [Emit.call]
  cases checked : checkCall callee arguments with
  | error fault =>
    intro known before value after _ written
    simp at written
  | ok operation =>
    -- A call that passes the check works on its arguments.
    obtain ⟨_, _, rfl⟩ := exists_of_checkCall checked
    exact .instr draws

theorem Runs.argument : Runs given Predefined.argument ([·]) := by
  intro known before value after reach written
  simp only [Predefined.argument, gives_bind, gives_get] at written
  obtain ⟨_, _, ⟨rfl, rfl⟩, written⟩ := written
  split at written
  · -- The first parameter is in sight from the beginning.
    rename_i first rest whole
    obtain ⟨rfl, rfl⟩ := gives_pure.mp written
    refine ⟨.refl _, forall_mem_singleton.mpr (Value.usableIn_of_mem (reach.parameters ?_))⟩
    rw [whole]
    exact mem_cons_self
  · simp at written

theorem Runs.addressOf {global : Global} : Runs given (Predefined.addressOf global) ([·]) := by
  intro known before value after _ written
  cases global with
  | string name bytes =>
    obtain ⟨rfl, rfl⟩ := gives_pure.mp written
    exact ⟨.refl _, forall_mem_singleton.mpr (Value.usableIn_of_isRegister rfl _)⟩
  | function code => simp [Predefined.addressOf, Global.address?] at written

theorem Finishes.exit {exit : Exit} (leaves : exit.targets = [])
    (draws : Draws given exit.operands) : Finishes given (Emit.exit exit) := by
  intro known before after reach written
  obtain ⟨_, rfl⟩ := gives_exit.mp written
  exact ⟨before, exit, .refl _, reach.isOpen, leaves, draws.usable reach.usable, rfl⟩

end Emit

/-- A function that is one block of straight code is added. -/
theorem Build.Keeps.define {name : String} {signature : Signature} {body : Emit Unit}
    (finishes : Emit.Finishes [] body) (named : ∀ libc : Libc, name ≠ libc.name) :
    Keeps (Build.define name signature body) := by
  intro before given after sound built
  obtain ⟨free, final, written, rfl⟩ := gives_define.mp built
  have shape := Draft.shape_opening before name signature
  have inSight := Chart.sight_opening before name signature
  obtain ⟨last, exit, straight, isOpen, leaves, usable, rfl⟩ := finishes
    ⟨⟨shape.inside, Draft.isEnded_opening ..⟩, fun _ member => inSight ▸ member, by simp⟩ written
  -- The end of the code is one step more, and leads nowhere.
  have steps := straight.steps.tail (.finish isOpen.going usable (by simp [leaves]) trivial)
  obtain ⟨_, appended⟩ := straight.appends
  have shapeLast := shape.appends appended
  -- There is only the one block, and it has ended.
  have closed := (shapeLast.finish exit).closed_of_isEnded (shapeLast.isEnded_finish exit)
  exact sound.close free steps
    ⟨⟨_, (Chart.Steps.sound steps (Chart.sound_opening ..)).assembled⟩, closed.exits⟩ named

namespace Predefined

open Build (Keeps)
open Emit (Finishes Draws)

variable {given : List Value}

theorem finishes_printArgument (printf format : Global) :
    Finishes [] (printArgument printf format) := by
  refine .bind .addressOf fun address => .bind (.firstByte ?_) fun start =>
    .bind .argument fun value => .bind (.call ?_) fun _ => .exit rfl ?_
  all_goals simp [Draws, Exit.operands]

theorem keeps_addPrinter (name : String) (param : Ir.Ty) (format : String) {formatName : String}
    (dotted : formatName.toList.head? = some '.') :
    Keeps (addPrinter name param format formatName) :=
  .bind (.libc .printf) fun printf => .bind (.addString format dotted) fun constant =>
    .define (finishes_printArgument printf constant) (functionName_ne_name name)

theorem keeps_addWriteLine : Keeps addWriteLine := by
  refine .bind (.libc .puts) fun puts => .define ?_ (functionName_ne_name _)
  refine .bind .argument fun value => .bind (.call ?_) fun _ => .exit rfl ?_
  all_goals simp [Draws, Exit.operands]

theorem keeps_addWriteTruth : Keeps addWriteTruth := by
  refine .bind (.libc .printf) fun printf => .bind .get fun session => ?_
  -- The format is the one that another predefined function has added.
  split
  · refine .bind (.addString _ rfl) fun trueWord => .bind (.addString _ rfl) fun falseWord =>
      .define ?_ (functionName_ne_name _)
    refine .bind .addressOf fun formatAddress => .bind (.firstByte ?_) fun format =>
      .bind .addressOf fun trueAddress => .bind (.firstByte ?_) fun trueWord =>
      .bind .addressOf fun falseAddress => .bind (.firstByte ?_) fun falseWord =>
      .bind .argument fun value => .bind (.instr ?_) fun word =>
      .bind (.call ?_) fun _ => .exit rfl ?_
    all_goals simp [Draws, Exit.operands, Operation.operands]
  · exact .fails _

theorem keeps_addReadNumber : Keeps addReadNumber := by
  refine .bind (.libc .fgets) fun fgets => .bind (.libc .atol) fun atol =>
    .bind (.libc .fdopen) fun fdopen => .bind (.addString _ rfl) fun mode =>
    .define ?_ (functionName_ne_name _)
  refine .bind .addressOf fun modeAddress => .bind (.firstByte ?_) fun mode =>
    .bind (.call ?_) fun input => .bind (.instr ?_) fun buffer => .bind (.firstByte ?_) fun line =>
    .bind (.call ?_) fun read => .bind (.instr ?_) fun isRead => .bind (.call ?_) fun number =>
    .bind (.instr ?_) fun result => .exit rfl ?_
  all_goals simp [Draws, Exit.operands, Operation.operands, Value.isRegister]

theorem keeps_addSeedRandom : Keeps addSeedRandom := by
  refine .bind (.libc .srand) fun srand => .define ?_ (functionName_ne_name _)
  refine .bind .argument fun value => .bind (.cast ?_) fun seed => .bind (.call ?_) fun _ =>
    .exit rfl ?_
  all_goals simp [Draws, Exit.operands]

theorem runs_randomBits (rand : Global) : Emit.Runs given (randomBits rand) ([·]) := by
  refine .bind (.call ?_) fun drawn => .bind (.instr ?_) fun low => .cast ?_
  all_goals simp [Draws, Operation.operands, Value.isRegister]

theorem keeps_addRandom : Keeps addRandom := by
  refine .bind (.libc .rand) fun rand => .define ?_ (functionName_ne_name _)
  -- Five draws of a few bits are shifted into place and put together.
  refine .bind (runs_randomBits rand) fun a => .bind (runs_randomBits rand) fun b =>
    .bind (runs_randomBits rand) fun c => .bind (runs_randomBits rand) fun d =>
    .bind (runs_randomBits rand) fun e => ?_
  refine .bind (.instr ?_) fun a => .bind (.instr ?_) fun b => .bind (.instr ?_) fun c =>
    .bind (.instr ?_) fun d => .bind (.instr ?_) fun e => .bind (.instr ?_) fun low =>
    .bind (.instr ?_) fun middle => .bind (.instr ?_) fun high => .bind (.instr ?_) fun bits =>
    .exit rfl ?_
  all_goals simp [Draws, Exit.operands, Operation.operands, Value.isRegister]

theorem keeps_add (predefined : Predefined) : Keeps predefined.add := by
  cases predefined with
  | writeString | writeNumber | writeChar => exact keeps_addPrinter _ _ _ rfl
  | writeLine => exact keeps_addWriteLine
  | writeTruth => exact keeps_addWriteTruth
  | writeAddress => exact .bind (keeps_addPrinter _ _ _ rfl) fun _ => .modify fun _ => rfl
  | readNumber => exact keeps_addReadNumber
  | seedRandom => exact keeps_addSeedRandom
  | random => exact keeps_addRandom

/-- With its predefined functions, a module is sound. -/
theorem keeps_addAll : Keeps addAll := by
  rw [addAll]
  -- One after the other, whichever they are.
  induction all with
  | nil => exact .pure ()
  | cons first rest ih => exact .bind (keeps_add first) fun _ => ih

end Predefined

end LeftHand
