import LeftHand.Proofs.Lower.Success

/-!
Instructions that are appended: they are put behind those of the block that is being written, under
names of their own, and nothing else of the function is touched.
-/

namespace LeftHand

open Ir List

/-- The block with more instructions behind all that stands in it. -/
def Ir.Block.append (code : List Instr) (block : Ir.Block) : Ir.Block :=
  if block.exit.isSome then { block with rest := block.rest ++ code.map .instr }
  else { block with code := block.code ++ code }

@[simp] theorem Ir.Block.append_nil : Ir.Block.append [] = id := by
  funext block
  simp [append]

@[simp] theorem Ir.Block.append_comp (code more : List Instr) :
    Ir.Block.append more ∘ Ir.Block.append code = Ir.Block.append (code ++ more) := by
  funext block
  cases ended : block.exit <;> simp [append, ended]

@[simp] theorem Ir.Block.label_append (code : List Instr) (block : Ir.Block) :
    (block.append code).label = block.label := by
  rw [append]
  split <;> rfl

@[simp] theorem Ir.Block.exit_append (code : List Instr) (block : Ir.Block) :
    (block.append code).exit = block.exit := by
  rw [append]
  split <;> rfl

/-- As long as a block is open, what is put behind it is put in front of its end. -/
theorem Ir.Block.append_of_open {block : Ir.Block} (isOpen : block.exit = none) (code : List Instr) :
    block.append code = { block with code := block.code ++ code } := by
  simp [append, isOpen]

/-- Drafts of one function between which nothing changes around its code, but constants may be
added. -/
structure Draft.SameFrame (before after : Draft) : Prop where
  globals : after.session.globals = before.session.globals
  casts : after.session.casts = before.session.casts
  name : after.function.name = before.function.name
  signature : after.function.signature = before.function.signature
  params : after.function.params = before.function.params
  strings : before.strings <+: after.strings

theorem Draft.SameFrame.refl (draft : Draft) : draft.SameFrame draft :=
  ⟨rfl, rfl, rfl, rfl, rfl, prefix_rfl⟩

theorem Draft.SameFrame.trans {before between after : Draft} (first : before.SameFrame between)
    (second : between.SameFrame after) : before.SameFrame after where
  globals := second.globals.trans first.globals
  casts := second.casts.trans first.casts
  name := second.name.trans first.name
  signature := second.signature.trans first.signature
  params := second.params.trans first.params
  strings := first.strings.trans second.strings

/-- The draft behind some instructions: they stand at the end of the block, and only their names
were taken. -/
structure Appends (before : Draft) (code : List Instr) (after : Draft) : Prop
    extends before.SameFrame after where
  current : after.current = before.current
  blocks : after.function.blocks =
    before.function.blocks.modify before.current (Ir.Block.append code)
  used : after.function.scope.used = (code.map (·.name)).reverse ++ before.function.scope.used
  /-- No name was taken before, and none twice. -/
  fresh : (code.map (·.name)).Nodup ∧ ∀ instr ∈ code, instr.name ∉ before.function.scope.used

namespace Appends

variable {before between after : Draft} {code more : List Instr}

theorem refl (draft : Draft) : Appends draft [] draft where
  __ := Draft.SameFrame.refl draft
  current := rfl
  blocks := by simp
  used := rfl
  fresh := by simp

theorem trans (first : Appends before code between) (second : Appends between more after) :
    Appends before (code ++ more) after where
  __ := first.toSameFrame.trans second.toSameFrame
  current := second.current.trans first.current
  blocks := by
    rw [second.blocks, first.blocks, first.current, modify_modify_eq, Ir.Block.append_comp]
  used := by simp [second.used, first.used]
  fresh := by
    -- The later names are none of those in use, and the earlier names are among these.
    have later := second.fresh.2
    simp only [first.used, mem_append, mem_reverse, mem_map, not_or] at later
    refine ⟨?_, fun instr member => ?_⟩
    · rw [map_append, nodup_append]
      refine ⟨first.fresh.1, second.fresh.1, ?_⟩
      rintro name earlier _ member rfl
      obtain ⟨instr, inside, rfl⟩ := mem_map.mp member
      exact (later instr inside).1 (by simpa using earlier)
    · rcases mem_append.mp member with early | late
      · exact first.fresh.2 instr early
      · exact (later instr late).2

theorem write (draft : Draft) (base : String) (operation : Operation) :
    Appends draft [⟨draft.named base, operation⟩] (draft.write base operation) where
  __ := Draft.SameFrame.refl draft
  current := rfl
  blocks := rfl
  used := by simp [Draft.write, Draft.modifyBlock, Draft.take, Draft.named]
  fresh := by
    have free : draft.named base ∉ draft.function.scope.used := Scope.take_notMem _ base
    simpa using free

/-- A string constant adds no instruction. -/
theorem keep (draft : Draft) (text : String) : Appends draft [] (draft.keep text) where
  __ := Draft.SameFrame.refl draft
  current := rfl
  strings := prefix_append _ _
  blocks := by simp [Draft.keep]
  used := rfl
  fresh := by simp

end Appends

end LeftHand
