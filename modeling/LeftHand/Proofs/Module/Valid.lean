import LeftHand.Proofs.Module.Program

/-!
Valid modules: whatever program is built, and whatever other modules were built before it, the
functions of the module are in single assignment form, their blocks are whole, and the code of the
program is typed.
-/

namespace LeftHand

open List

variable {declares : String → Ir.Signature → Prop}

section Functions

variable {isVerbose : Bool} {function : Function} {opened : Draft} {code : Ir.Function}

/-- Wherever code of a function begins, every variable in scope stands for memory that has been
taken, on whichever path that place is reached. The code written so far, and what was put in front
of it later, are the instructions that have been executed in the block. -/
def Function.KeepsVariables (isVerbose : Bool) (function : Function) (opened : Draft)
    (code : Ir.Function) : Prop :=
  ∃ env start, Gives (lowerParams (opened.bound function) []) opened env start ∧
    ∀ scope point, Begins isVerbose env (.body function.body.statements) start scope point →
      ∀ name address, scope.lookup name = some address → ∃ block front back,
        code.blocks[point.current]? = some block ∧ block.code = (front ++ point.code) ++ back ∧
          code.Reserves block (front ++ point.code) address

/-- The code of a function keeps the memory of its variables. -/
theorem Function.Becomes.keepsVariables
    (becomes : function.Becomes isVerbose declares opened code) :
    function.KeepsVariables isVerbose opened code := by
  obtain ⟨_, env, start, params, places⟩ := becomes
  refine ⟨env, start, params, fun scope point begins name address isVariable => ?_⟩
  -- The certificate for this place has the address among the registers that are known there.
  obtain ⟨known, assembled, block, front, back, located, split, held⟩ := places scope point begins
  obtain ⟨inSight, register, type, rfl, definer, member, taken⟩ := held name address isVariable
  exact ⟨block, front, back, located, split,
    assembled.certified.reserves assembled.names located split inSight member taken⟩

theorem Ir.Function.Finished.singleAssignment (finished : code.Finished) : code.SingleAssignment := by
  obtain ⟨⟨known, assembled⟩, _⟩ := finished
  exact assembled.certified.singleAssignment assembled.names

/-- Code whose blocks have one end each, behind all else that stands in them, and lead to blocks of
the same function other than its entry. -/
structure Ir.Function.BlockStructure (code : Ir.Function) : Prop where
  ended : ∀ block ∈ code.blocks, ∃ (front : List Instr) (exit : Exit),
    block.body = front.map .instr ++ [.exit exit]
  targets : ∀ block ∈ code.blocks, ∀ exit, .exit exit ∈ block.body → ∀ label ∈ exit.targets,
    ∃! target, target ∈ code.blocks ∧ target.label = label
  entry : ∀ block ∈ code.blocks, ∀ exit, .exit exit ∈ block.body → ∀ label ∈ exit.targets,
    ∀ first ∈ code.blocks.head?, first.label ≠ label

/-- Once a block has ended, each instruction that is still written into it stands behind its end. -/
theorem Ir.Function.BlockStructure.push_notMem {block : Ir.Block} {instr : Ir.Instr}
    (structured : code.BlockStructure) (isEnded : block.exit.isSome) :
    block.push instr ∉ code.blocks := by
  intro member
  obtain ⟨front, exit, body⟩ := structured.ended _ member
  rw [Block.body, Block.push, if_pos isEnded] at body
  have last := congrArg getLast? body
  simp at last

theorem Ir.Function.Finished.blockStructure (finished : code.Finished) : code.BlockStructure := by
  obtain ⟨⟨known, assembled⟩, ended⟩ := finished
  -- Nothing stands behind the end of a block, so that is the only end there is.
  have body {block : Ir.Block} (member : block ∈ code.blocks) :
      ∃ exit, block.exit = some exit ∧ block.body = block.code.map .instr ++ [.exit exit] := by
    obtain ⟨exit, ends⟩ := Option.isSome_iff_exists.mp (ended block member)
    exact ⟨exit, ends, by simp [Block.body, ends, assembled.whole block member]⟩
  -- The certificate names the block that a label leads to, which is not at the first position.
  have leads {block : Ir.Block} (member : block ∈ code.blocks) {exit : Ir.Exit}
      (ends : .exit exit ∈ block.body) {label : String} (isTarget : label ∈ exit.targets) :
      ∃ (j : Nat) (target : Ir.Block),
        code.blocks[j]? = some target ∧ target.label = label ∧ j ≠ 0 := by
    obtain ⟨i, located⟩ := getElem?_of_mem member
    obtain ⟨only, isExit, whole⟩ := body member
    obtain rfl : exit = only := by simpa [whole] using ends
    obtain ⟨j, target, reached, named, inner, _⟩ :=
      (assembled.certified.fits i block located).leads exit isExit label isTarget
    exact ⟨j, target, reached, named, inner⟩
  refine ⟨fun block member => ?_, fun block member exit ends label isTarget => ?_,
    fun block member exit ends label isTarget first isFirst same => ?_⟩
  · obtain ⟨exit, _, whole⟩ := body member
    exact ⟨block.code, exit, whole⟩
  · obtain ⟨j, target, reached, named, _⟩ := leads member ends isTarget
    refine ⟨target, ⟨mem_of_getElem? reached, named⟩, fun other found => ?_⟩
    -- Labels are names, and no two blocks share one.
    obtain ⟨i, located⟩ := getElem?_of_mem found.1
    exact (position_eq assembled.names located reached (found.2.trans named.symm)).2
  · obtain ⟨j, target, reached, named, inner⟩ := leads member ends isTarget
    rw [head?_eq_getElem?] at isFirst
    -- The entry would be at the position of the block that is led to.
    have positions := position_eq assembled.names isFirst reached (same.trans named.symm)
    exact inner positions.1.symm

/-- Code whose operations and ends of blocks are typed, where some functions can be called. -/
structure Ir.Function.IsTyped (declares : String → Ir.Signature → Prop) (code : Ir.Function) :
    Prop where
  operations : ∀ block ∈ code.blocks, ∀ instr ∈ block.code, instr.operation.Typed declares
  exits : ∀ block ∈ code.blocks, ∀ exit ∈ block.exit, exit.Typed

theorem Function.Becomes.isTyped (becomes : function.Becomes isVerbose declares opened code) :
    code.IsTyped declares := by
  obtain ⟨_, env, start, _, places⟩ := becomes
  -- The certificate for any place will do, such as the one where the statements begin.
  obtain ⟨known, assembled, _⟩ := places env start .here
  exact ⟨assembled.operations, assembled.exits⟩

end Functions

section Programs

variable {isVerbose : Bool} {program : Program} {session after : Session}

/-- A program of two functions: the start function gives what the countdown from nine gives. -/
def launch : Program :=
  let pos : Pos := ⟨1, 1⟩
  let status : Ident := ⟨pos, "status"⟩
  { pos
    functions := [countdown,
      { pos, type := .decimal pos, ident := ⟨pos, "start"⟩, params := []
        body := ⟨pos,
          [.declare pos (.decimal pos) status,
           .assign pos (.name status) (.exec pos ⟨pos, "countdown"⟩ [.decimal pos 9]),
           .ret pos (some (.name pos status))]⟩ }] }

theorem exists_gives_launch :
    ∃ after, Gives (Build.program false launch) (Session.renew {}) () after := by
  obtain ⟨_, after, built⟩ : ∃ done after,
      Gives (Build.program false launch) (Session.renew {}) done after :=
    Gives.of_isOk (by decide +kernel)
  exact ⟨after, built⟩

/-- Every function of a module is in single assignment form, and in the code of the program's
functions every variable has its memory wherever it is in scope. -/
theorem gives_program_singleAssignment
    (built : Gives (Build.program isVerbose program) session.renew () after) :
    (∀ code, .function code ∈ after.globals → code.SingleAssignment) ∧
      ∀ front function back, program.functions = front ++ function :: back →
        ∃ earlier signature code,
          Gives (Predefined.addAll >>= fun _ => front.forM (Build.function isVerbose))
            session.renew () earlier ∧
          function.signature = .ok signature ∧
          .function code ∈ after.globals ∧ code.name = functionName function.ident.text ∧
          function.KeepsVariables isVerbose
            (.opening earlier (functionName function.ident.text) signature) code := by
  obtain ⟨sound, stand⟩ := gives_program_stands built
  refine ⟨fun code member => (sound.finished code member).singleAssignment,
    fun front function back split => ?_⟩
  obtain ⟨earlier, code, earlierBuilt, member, named, signature, typed, becomes⟩ :=
    stand front function back split
  exact ⟨earlier, signature, code, earlierBuilt, typed, member, named, becomes.keepsVariables⟩

/-- The launch can be built, and the countdown, which is built first, has the variables that it
should have. -/
theorem gives_program_singleAssignment_launch :
    ∃ after, Gives (Build.program false launch) (Session.renew {}) () after ∧
      (∀ code, .function code ∈ after.globals → code.SingleAssignment) ∧
      ∃ earlier signature code, countdown.signature = .ok signature ∧
        .function code ∈ after.globals ∧ code.name = functionName "countdown" ∧
        countdown.KeepsVariables false (.opening earlier (functionName "countdown") signature) code := by
  obtain ⟨after, built⟩ := exists_gives_launch
  obtain ⟨single, stand⟩ := gives_program_singleAssignment built
  obtain ⟨earlier, signature, code, _, typed, member, named, keeps⟩ := stand [] countdown _ rfl
  exact ⟨after, built, single, earlier, signature, code, typed, member, named, keeps⟩

/-- In every block of every function of a module stand instructions and behind them one end, which
leads only to blocks of the same function other than its entry. -/
theorem gives_program_blockStructure
    (built : Gives (Build.program isVerbose program) session.renew () after) :
    ∀ code, .function code ∈ after.globals → code.BlockStructure :=
  fun code member => ((gives_program_stands built).1.finished code member).blockStructure

theorem gives_program_blockStructure_launch :
    ∃ after, Gives (Build.program false launch) (Session.renew {}) () after ∧
      ∀ code, .function code ∈ after.globals → code.BlockStructure := by
  obtain ⟨after, built⟩ := exists_gives_launch
  exact ⟨after, built, gives_program_blockStructure built⟩

/-- No two functions of a module share a name, and the code of every function of the program is
typed against the functions of the module. -/
theorem gives_program_isTyped
    (built : Gives (Build.program isVerbose program) session.renew () after) :
    (∀ code other, .function code ∈ after.globals → .function other ∈ after.globals →
      code.name = other.name → code = other) ∧
    ∀ function ∈ program.functions, ∃ code, .function code ∈ after.globals ∧
      code.name = functionName function.ident.text ∧ code.IsTyped (Ir.Declares after.globals) := by
  obtain ⟨sound, stand⟩ := gives_program_stands built
  refine ⟨sound.distinct, fun function member => ?_⟩
  obtain ⟨front, back, split⟩ := append_of_mem member
  obtain ⟨_, code, _, inModule, named, _, _, becomes⟩ := stand front function back split
  exact ⟨code, inModule, named, becomes.isTyped⟩

theorem gives_program_isTyped_launch :
    ∃ after, Gives (Build.program false launch) (Session.renew {}) () after ∧
      ∃ code, .function code ∈ after.globals ∧ code.name = functionName "countdown" ∧
        code.IsTyped (Ir.Declares after.globals) := by
  obtain ⟨after, built⟩ := exists_gives_launch
  exact ⟨after, built, (gives_program_isTyped built).2 countdown mem_cons_self⟩

end Programs

end LeftHand
