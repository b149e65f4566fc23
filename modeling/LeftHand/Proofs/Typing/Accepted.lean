import LeftHand.Command.Compile
import LeftHand.Proofs.Files.Directory
import LeftHand.Proofs.Flow.Refinement
import LeftHand.Proofs.Typing.Admissible
import LeftHand.Proofs.Typing.Source

/-! Modules that the code generator accepts. -/

namespace LeftHand

open Ir List

/-- A module all of whose functions are accepted. -/
def Session.Accepted (session : Session) : Prop :=
  ∀ global ∈ session.globals, global.isAccepted = true

section Drafts

variable {session : Session} {name : String} {signature : Signature} {final : Draft}

theorem Ir.Block.isAccepted_eq_true {result : Ir.Ty} {block : Ir.Block} (ended : block.exit.isSome) :
    block.isAccepted result = true ↔ block.AcceptedSoFar result := by
  obtain ⟨exit, same⟩ := Option.isSome_iff_exists.mp ended
  simp [isAccepted, AcceptedSoFar, same]

theorem Draft.accepted_close (kept : final.session.globals = session.globals)
    (ended : ∀ block ∈ final.function.blocks, block.exit.isSome) :
    final.close.Accepted ↔ session.Accepted ∧ final.Accepted := by
  -- All blocks have ended, so what has been written of them is all there is.
  have code : (Global.function final.function).isAccepted = true ↔
      ∀ block ∈ final.function.blocks,
        block.AcceptedSoFar final.function.signature.result := by
    rw [Global.isAccepted, all_eq_true]
    exact forall₂_congr fun block member => Ir.Block.isAccepted_eq_true (ended block member)
  simp only [Session.Accepted, close, globals, kept, forall_mem_append, forall_mem_cons,
    code, Accepted]

theorem Draft.accepted_opening : (opening session name signature).Accepted := by
  rw [opening, accepted_grow]
  -- There is one block so far, and nothing in it.
  exact ⟨by simp [Ir.Function.declare], by simp⟩

end Drafts

section Functions

variable {isVerbose : Bool} {earlier functions : List Function} {function : Function}
  {session after : Session}

theorem lowerParams_admits {params : List (String × Value)} {env env' : Env}
    {before after : Draft} (inside : before.current < before.function.blocks.length)
    (lowered : Gives (lowerParams params env) before env' after) : Admits before after True := by
  -- Each parameter adds its memory and a store, and neither is ever refused.
  induction params generalizing env before with
  | nil =>
    obtain ⟨_, rfl⟩ := gives_pure.mp lowered
    exact .refl inside
  | cons param params ih =>
    obtain ⟨name, value⟩ := param
    obtain ⟨_, lowered⟩ := gives_lowerParams_cons.mp lowered
    let address := Value.register (before.named name) (.pointer value.type)
    have stored : Admits before
        ((before.write name (.alloca value.type)).write "" (.store value address)) True :=
      ((Admits.refl inside).writeAny _ rfl).writeAny _ rfl
    exact (stored.trans (ih stored.inside lowered)).congr (by simp)

theorem Function.admissible_iff :
    function.Admissible earlier ↔ (Part.body function.body.statements).Admissible
      (callees (earlier ++ [function])) function.type.kind function.vars :=
  ⟨fun live => ⟨live, by simp [Part.conditions]⟩, fun keeps => keeps.live⟩

/-- A function that is added is accepted exactly if it is admissible. -/
theorem function_admits (ready : session.Ready (callees earlier))
    (built : Gives (Build.function isVerbose function) session () after) :
    after.Accepted ↔ session.Accepted ∧ function.Admissible earlier := by
  obtain ⟨signature, accepted, free, final, written, rfl⟩ := gives_function.mp built
  obtain ⟨start, log, derived⟩ := gives_lowerFunctionBody.mp written
  obtain ⟨⟨known, _⟩, _, rfl⟩ := signature_eq_ok.mp accepted
  -- Nothing has the name of the function yet, so the functions before it keep theirs.
  have new := (ready.isTaken_eq_false _).mp free
  -- What is left to compare is the code of the function itself.
  rw [Draft.accepted_close derived.grows.globals derived.closed.exits, Function.admissible_iff]
  refine and_congr_right fun _ => ?_
  have begins {env : Env}
      (params : Gives (lowerParams ((function.opening session).bound function) [])
        (function.opening session) env start) : start.Accepted :=
    (lowerParams_admits (Draft.shape_opening ..).inside params).accepted.mpr
      ⟨Draft.accepted_opening, trivial⟩
  cases derived with
  | ended params lowered =>
    obtain ⟨stage, agree⟩ := Function.start_sound ready new params
    rw [lowered.admits stage agree]
    exact and_iff_right (begins params)
  | fallsOff params lowered lastGoing isVoid =>
    obtain ⟨stage, agree⟩ := Function.start_sound ready new params
    -- A void function may return at its end.
    rw [(Admits.finish (lowered.shape stage.shape).inside lastGoing _).accepted,
      (lowered.grows stage.shape stage.going).signature, stage.gives,
      (Ty.lower_kind_eq_void known).mpr isVoid, lowered.admits stage agree]
    simp [begins params, Exit.isAccepted]

theorem functions_admit (ready : session.Ready (callees earlier))
    (built : Gives (functions.forM (Build.function isVerbose)) session () after) :
    after.Accepted ↔ session.Accepted ∧ ∀ before function later,
      functions = before ++ function :: later → function.Admissible (earlier ++ before) := by
  -- Each function is looked at with those before it.
  induction functions generalizing earlier session with
  | nil =>
    obtain ⟨_, rfl⟩ := gives_pure.mp built
    simp
  | cons function functions ih =>
    obtain ⟨_, between, first, others⟩ := gives_bind.mp built
    obtain ⟨_, betweenReady⟩ := function_sound ready first
    -- A split of the whole list is at its front, or a split of the others.
    rw [ih betweenReady others, function_admits ready first, forall_split_cons, and_assoc]

end Functions

section Main

variable {session after : Session}

/-- Calls are accepted, so it does not matter where they are put. -/
theorem Ir.Function.isAccepted_insertAtEntry (code : Ir.Function) (position : Nat) (base : String)
    {operation : Operation} (accepted : operation.isAccepted = true) :
    (Global.function (code.insertAtEntry position base operation).2).isAccepted =
      (Global.function code).isAccepted := by
  -- Nothing is put into a block that is too short for the position.
  have entry (block : Ir.Block) (instr : Instr) (same : instr.operation = operation) :
      (block.code.insertIdx position instr).all (·.operation.isAccepted) =
        block.code.all (·.operation.isAccepted) := by
    rw [Bool.eq_iff_iff, all_eq_true, all_eq_true]
    rcases Nat.lt_or_ge block.code.length position with beyond | within
    · rw [insertIdx_of_length_lt beyond]
    · simp [mem_insertIdx within, same, accepted]
  -- All blocks but the first are left alone.
  simp only [Global.isAccepted, insertAtEntry]
  cases code.blocks with
  | nil => rfl
  | cons first rest =>
    have code := entry first ⟨(code.scope.take base).1, operation⟩ rfl
    simp [Ir.Block.isAccepted, Ir.Block.body, Function.comp_def, Line.isAccepted, code]

/-- The time, the calls that use it and the entry point are accepted wherever they are added. -/
theorem Session.Ready.wrapMain_admits {callees : Callees} (ready : session.Ready callees)
    (built : Gives Build.wrapMain session () after) : after.Accepted ↔ session.Accepted := by
  obtain ⟨start, found, _⟩ := LeftHand.gives_wrapMain.mp built
  obtain ⟨_, rfl⟩ := built.unique (ready.gives_wrapMain found)
  obtain ⟨startMember, _⟩ := Session.start?_eq_some found
  have seeded : (Global.function start.seeded).isAccepted = (Global.function start).isAccepted := by
    rw [Ir.Function.seeded, Ir.Function.seed, Ir.Function.isAccepted_insertAtEntry _ _ _ rfl,
      Ir.Function.isAccepted_insertAtEntry _ _ _ rfl]
  -- No other global has the name of the function that is changed.
  have replaced : (session.replace start.name start.seeded).Accepted ↔ session.Accepted := by
    simp only [Session.Accepted, Session.replace, forall_mem_map]
    refine forall₂_congr fun global member => ?_
    split
    · rename_i same
      obtain rfl : global = .function start :=
        inj_on_of_nodup_map ready.distinct member startMember same
      rw [seeded]
    · rfl
  have added : ∀ global ∈ [Libc.time.global, .function (entryPoint start)],
      global.isAccepted = true := by
    simp only [forall_mem_cons]
    exact ⟨rfl, rfl, by simp⟩
  rw [← replaced]
  exact forall_mem_append.trans (and_iff_left added)

end Main

section Programs

variable {isVerbose : Bool} {program : Program} {session after : Session}

theorem Predefined.accepted_base :
    ∀ casts ∈ castsLeft, (base casts).globals.all Global.isAccepted = true := by
  decide +kernel

/-- The module of a program is accepted exactly if the program is admissible. -/
theorem program_admits {casts : List (String × List Nat)} (left : casts ∈ castsLeft)
    (built : Gives (Build.program isVerbose program) { casts } () after) :
    after.globals.all Global.isAccepted = true ↔ program.Admissible := by
  have base := Predefined.gives_addAll left
  have ready := Predefined.ready_base left
  have accepted : (Predefined.base casts).Accepted :=
    all_eq_true.mp (Predefined.accepted_base casts left)
  -- Whatever the predefined functions are, only that they are accepted matters.
  generalize Predefined.base casts = start at base ready accepted
  obtain ⟨_, _, added, built⟩ := gives_bind.mp built
  obtain ⟨_, between, functions, wrapped⟩ := gives_bind.mp built
  obtain ⟨_, rfl⟩ := added.unique base
  obtain ⟨_, betweenReady⟩ := functions_sound ready functions
  rw [all_eq_true]
  -- From the whole module back to the functions, and on to the predefined ones.
  calc after.Accepted
    _ ↔ between.Accepted := betweenReady.wrapMain_admits wrapped
    _ ↔ _ := functions_admit ready functions
    _ ↔ program.Admissible := and_iff_right accepted

end Programs

section Command

variable (console : Console) (options : CompileOptions) (directory : Directory)

theorem CommandResult.say_ne_rejected {line : String} {result : CommandResult}
    (other : result.error ≠ some .rejected) : (result.say console line).error ≠ some .rejected := by
  rw [say]
  split
  · exact other
  · simp

theorem removeObject_ne_rejected (output : Path) :
    (removeObject console directory output).error ≠ some .rejected := by
  rw [removeObject]
  split
  · exact CommandResult.say_ne_rejected console (by simp)
  · split
    · exact CommandResult.say_ne_rejected console (by simp)
    · simp

theorem emitExecutable_ne_rejected (output : Path) (code : String) :
    (emitExecutable console directory output code).error ≠ some .rejected := by
  rw [emitExecutable]
  -- What can fail here is a path, a file, the linker or the console.
  split
  · simp
  · simp
  · split
    · simp
    · split
      · simp
      · rename_i linked _
        have removed := removeObject_ne_rejected console linked output
        dsimp only
        split
        · exact removed
        · exact CommandResult.say_ne_rejected console removed

theorem emitAsm_ne_rejected (output : Path) (code : String) :
    (emitAsm console directory output code).error ≠ some .rejected := by
  rw [emitAsm]
  split
  · simp
  · split
    · simp
    · exact CommandResult.say_ne_rejected console (by simp)

/-- A module is refused for nothing but its code, whatever is in the way of its files. -/
theorem emitFiles_rejected (globals : List Global) :
    (emitFiles console options directory globals).error = some .rejected ↔
      ¬globals.all Global.isAccepted = true := by
  -- The code is checked before any file is touched.
  rw [emitFiles]
  cases globals.all Global.isAccepted with
  | false => simp
  | true =>
    simp only [Bool.not_true, Bool.false_eq_true, if_false, not_true, iff_false]
    split
    · simp
    · split
      · exact emitAsm_ne_rejected console _ _ _
      · exact emitExecutable_ne_rejected console _ _ _

theorem CompileError.fail_ne_rejected (error : CompileError) :
    (error.fail console directory).error ≠ some .rejected := by
  cases error with
  | source => simp [fail]
  | fault reason =>
    cases reason with
    | reported => exact CommandResult.say_ne_rejected console (by simp)
    | _ => simp [fail, Fault.printed?]

theorem compileSource_rejected (text : List Char) :
    (compileSource console options directory text).error = some .rejected ↔
      ∃ program, readProgram text = .ok program ∧
        (options.isVerbose = true → console.shows program.toDatum.outline = true) ∧
        options.isBuild = true ∧ program.WellFormed ∧ ¬program.Admissible := by
  rw [compileSource]
  -- A text that cannot be read has a failure of its own, and so has one that cannot be built.
  cases read : readProgram text with
  | error error => simp [CompileError.fail_ne_rejected]
  | ok program =>
    simp only [Except.ok.injEq, exists_eq_left']
    split
    · rename_i unshown
      simp_all
    · rename_i shown
      have isShown : options.isVerbose = true → console.shows program.toDatum.outline = true := by
        simpa using shown
      rw [and_iff_right isShown]
      cases options.isBuild with
      | false => simp
      | true =>
        -- Each command starts afresh, without any casts.
        have left : [] ∈ castsLeft := by decide
        have solid := readProgram_solid read
        rcases ran : (Build.program options.isVerbose program).runOn {} with ⟨outcome, after⟩
        cases outcome with
        | error fault =>
          -- A program that keeps the rules would have been built.
          have refused : ¬program.WellFormed := by
            intro wellFormed
            obtain ⟨_, built⟩ := (gives_program left solid).mpr wellFormed
            cases built.symm.trans ran
          simp [refused, CompileError.fail_ne_rejected]
        | ok =>
          -- The build succeeded, so all the rules are kept, and only the code can be refused.
          have built : Gives (Build.program options.isVerbose program) {} () after := ran
          have wellFormed : program.WellFormed := (gives_program left solid).mp ⟨after, built⟩
          simp [emitFiles_rejected, program_admits left built, wellFormed]

/-- A file that can be read is compiled as its text is, if there is such an optimization. -/
theorem compileFile_rejected (input : Path) :
    (compileFile console options directory input).error = some .rejected ↔
      (0 ≤ options.opt ∧ options.opt ≤ 3) ∧ ∃ text, directory.read input = .ok text ∧
        (compileSource console options directory (unifyNewlines text.toList)).error =
          some .rejected := by
  -- Each check that fails before the file is read ends the command in another way.
  have refused (line : String) : (CommandResult.say console line
      { directory, error := some .refused }).error ≠ some .rejected :=
    CommandResult.say_ne_rejected console (by simp)
  rw [compileFile]
  split
  · rename_i missing
    -- A file that is not there cannot be read.
    have unread (text : String) : directory.read input ≠ .ok text := by
      intro read
      simp [Directory.contains_of_read read] at missing
    simp [unread, refused]
  · split
    · rename_i beyond
      have noLevel : ¬(0 ≤ options.opt ∧ options.opt ≤ 3) := by omega
      simp [noLevel, refused]
    · rename_i within
      have level : 0 ≤ options.opt ∧ options.opt ≤ 3 := by omega
      cases directory.read input with
      | error error => simp
      | ok text => simp [level]

end Command

theorem exists_built {isVerbose : Bool} {text : List Char} (isRead : (readProgram text).isOk = true)
    (isCompiled : (compileText isVerbose text {}).1.isOk = true) :
    ∃ program after, readProgram text = .ok program ∧
      Gives (Build.program isVerbose program) (Session.renew {}) () after := by
  obtain ⟨program, read⟩ := exists_of_isOk isRead
  obtain ⟨_, compiled⟩ := exists_of_isOk isCompiled
  obtain ⟨after, built⟩ := (compileText_eq_ok read).mp compiled
  exact ⟨program, after, read, built⟩

/-- The module of a program that can be built is accepted exactly if the program is admissible. So
the command that compiles a file with this program ends with a refused module exactly if the program
is not admissible, as long as it is asked to build, with an optimization that there is, and no
console stops it that has to show the outline of the program. -/
theorem rejected_iff_not_admissible {isVerbose : Bool} {program : Program} {session after : Session}
    (numbers : session.counters = []) (casts : session.casts ∈ castsLeft)
    (built : Gives (Build.program isVerbose program) session.renew () after) :
    (after.globals.all Ir.Global.isAccepted = true ↔ program.Admissible) ∧
      ∀ (console : Console) (options : CompileOptions) (directory : Directory) (input : Path)
        (text : String),
        directory.read input = .ok text → readProgram (unifyNewlines text.toList) = .ok program →
        ((compileFile console options directory input).error = some .rejected ↔
          (0 ≤ options.opt ∧ options.opt ≤ 3) ∧
            (options.isVerbose = true → console.shows program.toDatum.outline = true) ∧
            options.isBuild = true ∧ ¬program.Admissible) := by
  -- Of an earlier session, only its casts are left.
  have renewed : session.renew = { casts := session.casts } := by rw [Session.renew, numbers]
  rw [renewed] at built
  refine ⟨program_admits casts built, fun console options directory input text found read => ?_⟩
  -- A program that has been built keeps the rules, so they are no reason to fail.
  have wellFormed : program.WellFormed :=
    (gives_program casts (readProgram_solid read)).mp ⟨after, built⟩
  simp [compileFile_rejected, compileSource_rejected, found, read, wellFormed]

/-- A program whose start function returns a truth value where it has to give a number. -/
def truthReturned : String :=
  "def dect start %s ret trve$ !s"

/-- A program whose start function returns a number. -/
def numberReturned : String :=
  "def dect start %s ret %d1!d$ !s"

/-- The program that returns a number is admissible, the one that returns a truth value is not. -/
theorem rejected_iff_not_admissible_returned :
    (∃ program, readProgram numberReturned.toList = .ok program ∧ program.Admissible) ∧
      ∃ program, readProgram truthReturned.toList = .ok program ∧ ¬program.Admissible := by
  let file := Path.ofText "m!1eft"
  have refused (text : String) (lines : unifyNewlines text.toList = text.toList)
      (isRead : (readProgram text.toList).isOk = true)
      (isCompiled : (compileText false text.toList {}).1.isOk = true) :
      ∃ program, readProgram text.toList = .ok program ∧
        ((compileFile .plain {} (.holding [(file, text)]) file).error = some .rejected ↔
          ¬program.Admissible) := by
    obtain ⟨program, after, read, built⟩ := exists_built isRead isCompiled
    refine ⟨program, read, ((rejected_iff_not_admissible rfl (by decide) built).2 .plain {} _ file text
      rfl (by rw [lines, read])).trans ⟨fun refused => refused.2.2.2, fun inadmissible => ?_⟩⟩
    exact ⟨by decide, fun _ => rfl, rfl, inadmissible⟩
  constructor
  · obtain ⟨program, read, refused⟩ :=
      refused numberReturned (by decide +kernel) (by decide +kernel) (by decide +kernel)
    -- If it were not admissible, its module would be refused.
    exact ⟨program, read, not_not.mp fun inadmissible =>
      absurd (refused.mpr inadmissible) (by decide +kernel)⟩
  · obtain ⟨program, read, refused⟩ :=
      refused truthReturned (by decide +kernel) (by decide +kernel) (by decide +kernel)
    exact ⟨program, read, refused.mp (by decide +kernel)⟩

/-- A program that returns a truth value for a number is built, but its module is refused. -/
theorem not_accepted_truthReturned :
    let file := Path.ofText "m!1eft"
    (compileText false truthReturned.toList {}).1.isOk = true ∧
      (compileText false truthReturned.toList {}).2.globals.all Ir.Global.isAccepted = false ∧
      (compileFile .plain { isAsm := true } (.holding [(file, truthReturned)]) file).error = some .rejected := by
  decide +kernel

end LeftHand
