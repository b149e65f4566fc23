import LeftHand.Proofs.Lower.Shape

/-!
Walks through a finished function from where a draft of it stands: from the end of what has been
written.
-/

namespace LeftHand

open Ir List

/-- The state in which a function is left: each block has its end, and no label is used twice. -/
structure Ir.Function.Closed (function : Ir.Function) : Prop where
  exits : ∀ block ∈ function.blocks, block.exit.isSome
  labels : (function.blocks.map (·.label)).Nodup

theorem Ir.Function.Closed.block?_eq {function : Ir.Function} (closed : function.Closed) {i : Nat}
    {block : Ir.Block} (located : function.blocks[i]? = some block) :
    function.block? block.label = some block := by
  have member : block ∈ function.blocks := mem_of_getElem? located
  cases found : function.block? block.label with
  | none => simpa using find?_eq_none.mp found block member
  | some other =>
    have same : other.label = block.label := by simpa using find?_some found
    rw [inj_on_of_nodup_map closed.labels (mem_of_find?_eq_some found) member same]

namespace Draft

/-- What is left of the block that is being written, in the finished function. -/
def Remains (draft : Draft) (function : Ir.Function) (code : List Instr) (exit : Exit) : Prop :=
  ∃ block, function.blocks[draft.current]? = some block ∧ block.code = draft.code ++ code ∧
    block.exit = some exit

/-- The walks through the finished function from where the draft stands. -/
def Reaches (draft : Draft) (function : Ir.Function) (outcomes : List Bool)
    (events : List Event) (stop : Stop) : Prop :=
  ∃ code exit, draft.Remains function code exit ∧
    Walks function code exit outcomes events stop

/-- In a later draft, the block that a draft writes has got an end and nothing else. -/
def Leaves (draft : Draft) (exit : Exit) (after : Draft) : Prop :=
  ∃ block, draft.block? = some block ∧
    after.function.blocks[draft.current]? = some { block with exit := some exit }

variable {draft after target : Draft} {function : Ir.Function} {waiting : List BlockRef}
  {code rest : List Instr} {exit other : Exit} {outcomes : List Bool}
  {events : List Event} {stop : Stop}

theorem Remains.unique (left : draft.Remains function code exit)
    (again : draft.Remains function rest other) : code = rest ∧ exit = other := by
  obtain ⟨block, located, written, ended⟩ := left
  obtain ⟨_, sameLocated, sameWritten, sameEnded⟩ := again
  cases located.symm.trans sameLocated
  exact ⟨append_cancel_left (written.symm.trans sameWritten),
    Option.some.inj (ended.symm.trans sameEnded)⟩

/-- Nothing is left of a block that has got its end. -/
theorem Leaves.remains (left : draft.Leaves exit after)
    (later : BlocksContinue after.function.blocks function.blocks) :
    draft.Remains function [] exit := by
  obtain ⟨block, written, located⟩ := left
  obtain ⟨next, nextLocated, goesOn⟩ := later _ _ located
  obtain rfl := goesOn.ended rfl
  exact ⟨_, nextLocated, by simp [Draft.code, written], rfl⟩

theorem Shape.leaves_finish (shape : draft.Shape waiting) (exit : Exit) :
    draft.Leaves exit (draft.finish exit) := by
  refine ⟨_, getElem?_eq_getElem shape.inside, ?_⟩
  simp [Draft.finish, modifyBlock, take, getElem?_eq_getElem shape.inside]

theorem Leaves.of_grow {base : String} (inside : draft.current < draft.function.blocks.length)
    (left : (draft.grow base).Leaves exit after) : draft.Leaves exit after := by
  obtain ⟨block, written, located⟩ := left
  refine ⟨block, ?_, located⟩
  simpa [block?, grow, getElem?_append_left inside] using written

variable (shape : draft.Shape waiting)

include shape

theorem Shape.leaves_fork (truth : Value) (hasElse : Bool) :
    draft.Leaves
      (.branch truth (draft.arms hasElse).whenTrue.label (draft.arms hasElse).whenFalse.label)
      (draft.fork truth hasElse) := by
  have first := shape.grow (blockName draft.label ".if")
  cases hasElse with
  | false =>
    have second := first.grow (blockName draft.label ".endif")
    exact ((second.leaves_finish _).of_grow first.inside).of_grow shape.inside
  | true =>
    have second := first.grow (blockName draft.label ".else")
    have third := second.grow (blockName draft.label ".endif")
    exact (((third.leaves_finish _).of_grow second.inside).of_grow first.inside).of_grow shape.inside

theorem Shape.leaves_toTest : draft.Leaves (.jump draft.ring.test.label) draft.toTest := by
  have first := shape.grow "ascond"
  have second := first.grow "asloop"
  have third := second.grow "asend"
  exact (((third.leaves_finish _).of_grow second.inside).of_grow first.inside).of_grow shape.inside

theorem Shape.leaves_leave (going : draft.isEnded = false) (join : BlockRef) :
    draft.Leaves (.jump join.label) (draft.leave join) := by
  rw [Draft.leave, if_neg (by simp [going])]
  exact shape.leaves_finish _

end Draft

section Walks

variable {function : Ir.Function} {code rest : List Instr} {exit : Exit}
  {outcomes : List Bool} {events : List Event} {stop : Stop}

theorem Ir.Walks.instrs (onward : Walks function rest exit outcomes events stop) :
    Walks function (code ++ rest) exit outcomes (code.map .instr ++ events) stop := by
  induction code with
  | nil => exact onward
  | cons instr code ih => exact .instr ih

end Walks

namespace Draft

variable {draft after target : Draft} {function : Ir.Function} {waiting : List BlockRef}
  {rest : List Instr} {outcomes : List Bool} {events : List Event} {stop : Stop}

theorem Reaches.appends (onward : after.Reaches function outcomes events stop)
    (shape : draft.Shape waiting) (going : draft.isEnded = false)
    (appended : Appends draft rest after) :
    draft.Reaches function outcomes (after.since draft ++ events) stop := by
  obtain ⟨code, exit, ⟨block, located, written, ended⟩, walked⟩ := onward
  obtain ⟨written', since⟩ := since_eq shape going appended
  refine ⟨rest ++ code, exit, ⟨block, ?_, ?_, ended⟩, ?_⟩
  · rw [← appended.current]
    exact located
  · rw [written, written', append_assoc]
  · rw [since]
    exact walked.instrs

/-- A place at the start of a block is where the label of the block leads to. -/
theorem reaches_start (closed : function.Closed) {label : String}
    (start : target.block? = some { label })
    (later : BlocksContinue target.function.blocks function.blocks) :
    ∃ block exit, function.block? label = some block ∧ block.exit = some exit ∧
      ∀ outcomes events stop, target.Reaches function outcomes events stop ↔
        Walks function block.code exit outcomes events stop := by
  obtain ⟨block, located, goesOn⟩ := later _ _ start
  obtain ⟨exit, ended⟩ := Option.isSome_iff_exists.mp
    (closed.exits block (mem_of_getElem? located))
  have label_eq : block.label = label := goesOn.label
  have left : target.Remains function block.code exit :=
    ⟨block, located, by simp [Draft.code, start], ended⟩
  refine ⟨block, exit, label_eq ▸ closed.block?_eq located, ended, fun _ _ _ => ⟨?_, ?_⟩⟩
  · rintro ⟨code, other, again, walked⟩
    obtain ⟨rfl, rfl⟩ := left.unique again
    exact walked
  · exact fun walked => ⟨_, _, left, walked⟩

/-- Walks from one place are walks from another. -/
def Joins (draft : Draft) (function : Ir.Function) (target : Draft) : Prop :=
  ∀ outcomes events stop, draft.Reaches function outcomes events stop ↔
    target.Reaches function outcomes events stop

/-- Walks from a place evaluate a condition, and go on at one of two places as its outcome says. -/
structure Decides (draft : Draft) (function : Ir.Function) (code : List Event)
    (whenTrue whenFalse : Draft) : Prop where
  starves : draft.Reaches function [] code .starves
  holds : ∀ {outcomes events stop}, whenTrue.Reaches function outcomes events stop →
    draft.Reaches function (true :: outcomes) (code ++ events) stop
  fails : ∀ {outcomes events stop}, whenFalse.Reaches function outcomes events stop →
    draft.Reaches function (false :: outcomes) (code ++ events) stop

/-- Where a block ends with a jump, walks go on at the start of another. -/
theorem Remains.joins (closed : function.Closed) {label : String}
    (left : draft.Remains function [] (.jump label)) (start : target.block? = some { label })
    (later : BlocksContinue target.function.blocks function.blocks) :
    draft.Joins function target := by
  intro outcomes events stop
  obtain ⟨block, exit, found, ended, reached⟩ := reaches_start closed start later
  rw [reached]
  constructor
  · rintro ⟨code, other, again, walked⟩
    obtain ⟨rfl, rfl⟩ := left.unique again
    cases walked with
    | jump sameFound sameEnded onward =>
      cases found.symm.trans sameFound
      cases ended.symm.trans sameEnded
      exact onward
  · exact fun onward => ⟨_, _, left, .jump found ended onward⟩

/-- A condition that has been evaluated at the end of a block decides where walks go on. -/
theorem Remains.decides {tested whenTrue whenFalse : Draft} {truth : Value}
    {trueLabel falseLabel : String} (closed : function.Closed)
    (left : tested.Remains function [] (.branch truth trueLabel falseLabel))
    (shape : draft.Shape waiting) (going : draft.isEnded = false)
    (appended : Appends draft rest tested)
    (trueStart : whenTrue.block? = some { label := trueLabel })
    (trueLater : BlocksContinue whenTrue.function.blocks function.blocks)
    (falseStart : whenFalse.block? = some { label := falseLabel })
    (falseLater : BlocksContinue whenFalse.function.blocks function.blocks) :
    draft.Decides function (tested.since draft ++ [.test truth]) whenTrue whenFalse := by
  refine ⟨Reaches.appends ⟨_, _, left, .starves⟩ shape going appended, fun onward => ?_, fun onward => ?_⟩
  all_goals rw [append_assoc, singleton_append]
  · obtain ⟨block, exit, found, ended, reached⟩ := reaches_start closed trueStart trueLater
    exact .appends ⟨_, _, left, .branch found ended ((reached ..).mp onward)⟩ shape going appended
  · obtain ⟨block, exit, found, ended, reached⟩ := reaches_start closed falseStart falseLater
    exact .appends ⟨_, _, left, .branch found ended ((reached ..).mp onward)⟩ shape going appended

end Draft

end LeftHand
