import LeftHand.Proofs.Ir.Assembly
import LeftHand.Proofs.Lower.Function

/-!
Charts: a function that is being written, with the registers known at the start of each block.
-/

namespace LeftHand

open Ir List

/-- A draft, with the registers known at the start of each of its blocks. -/
structure Chart where
  draft : Draft
  known : Known

namespace Chart

/-- The registers known where a draft is written. -/
def sight (chart : Chart) : List Value :=
  chart.known chart.draft.current ++ chart.draft.code.map Instr.result

/-- A block, other than the entry, at whose start no more is known than where the draft is
written. -/
def Leads (chart : Chart) (label : String) : Prop :=
  ∃ j target, chart.draft.function.blocks[j]? = some target ∧ target.label = label ∧ j ≠ 0 ∧
    chart.known j ⊆ chart.sight

/-- The steps of writing a function whose operations and ends of blocks follow some rules. -/
inductive Step (rule : Operation → Prop) (ends : Exit → Prop) : Chart → Chart → Prop where
  | write {draft known base operation} (going : draft.isEnded = false)
      (uses : ∀ value ∈ operation.operands, value.UsableIn (sight ⟨draft, known⟩))
      (allowed : rule operation) :
      Step rule ends ⟨draft, known⟩ ⟨draft.write base operation, known⟩
  | keep {draft known text} : Step rule ends ⟨draft, known⟩ ⟨draft.keep text, known⟩
  | finish {draft known exit} (going : draft.isEnded = false)
      (uses : ∀ value ∈ exit.operands, value.UsableIn (sight ⟨draft, known⟩))
      (leads : ∀ label ∈ exit.targets, Leads ⟨draft, known⟩ label) (allowed : ends exit) :
      Step rule ends ⟨draft, known⟩ ⟨draft.finish exit, known⟩
  /-- What is known now is known at the start of the block that is added. -/
  | grow {draft known base} :
      Step rule ends ⟨draft, known⟩
        ⟨draft.grow base, known.extend draft.function.blocks.length (sight ⟨draft, known⟩)⟩
  | goTo {draft known block} (inside : block.position < draft.function.blocks.length) :
      Step rule ends ⟨draft, known⟩ ⟨draft.goTo block, known⟩

/-- Any number of steps. -/
abbrev Steps (rule : Operation → Prop) (ends : Exit → Prop) : Chart → Chart → Prop :=
  Relation.ReflTransGen (Step rule ends)

/-- A chart of a function that is well assembled so far. -/
structure Sound (rule : Operation → Prop) (ends : Exit → Prop) (chart : Chart) : Prop where
  inside : chart.draft.current < chart.draft.function.blocks.length
  assembled : chart.draft.function.Assembled rule ends chart.known

variable {rule : Operation → Prop} {ends : Exit → Prop} {before after : Chart}

/-- The block that is being written is there, and open as long as it has not ended. -/
theorem Sound.located (sound : before.Sound rule ends) :
    ∃ block, before.draft.function.blocks[before.draft.current]? = some block ∧
      before.sight = before.known before.draft.current ++ block.results := by
  have located := getElem?_eq_getElem sound.inside
  exact ⟨_, located, by simp [sight, Draft.code, Draft.block?, located, Ir.Block.results]⟩

theorem sound_opening (session : Session) (name : String) (signature : Signature) :
    Sound rule ends ⟨.opening session name signature,
      fun _ => (Ir.Function.declare name signature).arguments⟩ where
  inside := (Draft.shape_opening session name signature).inside
  assembled := (Ir.Function.assembled_declare name signature).addEntry rfl

theorem Step.sound (step : Step rule ends before after) (sound : before.Sound rule ends) :
    after.Sound rule ends := by
  -- Every step but a move changes the function as assembly allows it.
  obtain ⟨block, located, sight⟩ := sound.located
  have inside := sound.inside
  cases step with
  | write going uses allowed =>
    -- What is in sight is what is known behind the code of the block.
    rw [sight] at uses
    refine ⟨?_, sound.assembled.append located (Draft.exit_eq_none going located) uses allowed⟩
    simpa [Draft.write, Draft.modifyBlock, Draft.take] using inside
  | keep => exact ⟨inside, sound.assembled⟩
  | finish _ uses leads allowed =>
    simp only [Leads, sight] at uses leads
    refine ⟨?_, sound.assembled.close located uses leads allowed⟩
    simpa [Draft.finish, Draft.modifyBlock, Draft.take] using inside
  | grow =>
    refine ⟨?_, ?_⟩
    · -- There is a block more, and writing stays where it was.
      rw [Draft.length_grow]
      exact Nat.lt_succ_of_lt inside
    · rw [sight]
      exact sound.assembled.add located
  | goTo there => exact ⟨there, sound.assembled⟩

/-- However many steps are taken, the function stays well assembled. -/
theorem Steps.sound (steps : Steps rule ends before after) (sound : before.Sound rule ends) :
    after.Sound rule ends := by
  induction steps with
  | refl => exact sound
  | tail _ step ih => exact step.sound ih

theorem Step.grows (step : Step rule ends before after) : before.draft.Grows after.draft := by
  -- Instructions and ends are put behind, and blocks are only added.
  cases step with
  | write going => exact (Appends.write ..).grows going
  | keep => exact { Draft.Grows.refl _ with strings := prefix_append _ _ }
  | finish going => exact Draft.finish_grows going _
  | grow => exact Draft.grow_grows ..
  | goTo => exact (Draft.goTo_moves ..).toGrows

theorem Steps.grows (steps : Steps rule ends before after) : before.draft.Grows after.draft := by
  induction steps with
  | refl => exact .refl _
  | tail _ step ih => exact ih.trans step.grows

/-- What is known at the start of a block never changes. -/
theorem Step.known_eq (step : Step rule ends before after) {i : Nat}
    (within : i < before.draft.function.blocks.length) : after.known i = before.known i := by
  cases step with
  | grow => exact if_pos within
  | write | keep | finish | goTo => rfl

theorem Steps.known_eq (steps : Steps rule ends before after) {i : Nat}
    (within : i < before.draft.function.blocks.length) : after.known i = before.known i := by
  induction steps with
  | refl => rfl
  | tail earlier step ih =>
    -- No block is ever taken away.
    obtain ⟨_, located, _⟩ := (Steps.grows earlier).blocks i _ (getElem?_eq_getElem within)
    rw [step.known_eq (List.getElem?_eq_some_iff.mp located).1, ih]

end Chart

/-- The functions that a draft can call are declared, and take what their signatures say. -/
def Draft.Calls (draft : Draft) (declares : String → Signature → Prop) : Prop :=
  ∀ code, .function code ∈ draft.globals →
    declares code.name code.signature ∧ code.params.length = code.signature.params.length

section Calls

variable {rule : Operation → Prop} {ends : Exit → Prop} {before after : Chart}
  {declares : String → Signature → Prop}

theorem Chart.Step.calls (step : Step rule ends before after) (calls : before.draft.Calls declares) :
    after.draft.Calls declares := by
  -- The function itself keeps its name, its signature and its parameters.
  have own := calls before.draft.function (by simp [Draft.globals])
  intro code member
  have grown := step.grows
  rw [Draft.globals, grown.globals] at member
  rcases mem_append.mp member with earlier | later
  · exact calls code (mem_append_left _ earlier)
  · rcases mem_cons.mp later with same | strings
    · injection same with same
      rw [same, grown.name, grown.signature, grown.params]
      exact own
    · -- Behind the function only string constants are added.
      have kept : .function code ∈ before.draft.strings := by
        cases step with
        | keep => simpa [Draft.keep] using strings
        | write | finish | grow | goTo => exact strings
      exact calls code (mem_append_right _ (mem_cons_of_mem _ kept))

theorem Chart.Steps.calls (steps : Steps rule ends before after)
    (calls : before.draft.Calls declares) : after.draft.Calls declares := by
  induction steps with
  | refl => exact calls
  | tail _ step ih => exact step.calls ih

end Calls

/-- A draft whose block is there and has not ended. -/
structure Draft.IsOpen (draft : Draft) : Prop where
  inside : draft.current < draft.function.blocks.length
  going : draft.isEnded = false

theorem Appends.isOpen {before after : Draft} {code : List Instr}
    (appended : Appends before code after) (isOpen : before.IsOpen) : after.IsOpen where
  inside := by simpa [appended.current, appended.blocks] using isOpen.inside
  going := appended.isEnded_eq.trans isOpen.going

/-- Steps that only write instructions, all into the same block. -/
structure Straight (rule : Operation → Prop) (ends : Exit → Prop) (known : Known)
    (before after : Draft) : Prop where
  steps : Chart.Steps rule ends ⟨before, known⟩ ⟨after, known⟩
  appends : ∃ code, Appends before code after

namespace Straight

variable {rule : Operation → Prop} {ends : Exit → Prop} {known : Known}
  {before between after : Draft}

theorem refl (draft : Draft) : Straight rule ends known draft draft :=
  ⟨.refl, _, .refl draft⟩

theorem trans (first : Straight rule ends known before between)
    (second : Straight rule ends known between after) : Straight rule ends known before after := by
  obtain ⟨_, firstAppends⟩ := first.appends
  obtain ⟨_, secondAppends⟩ := second.appends
  exact ⟨first.steps.trans second.steps, _, firstAppends.trans secondAppends⟩

theorem isOpen (straight : Straight rule ends known before after) (isOpen : before.IsOpen) :
    after.IsOpen := by
  obtain ⟨_, appended⟩ := straight.appends
  exact appended.isOpen isOpen

theorem sight_subset (straight : Straight rule ends known before after) :
    Chart.sight ⟨before, known⟩ ⊆ Chart.sight ⟨after, known⟩ := by
  -- Instructions are added behind those of the same block.
  obtain ⟨code, appended⟩ := straight.appends
  simp only [Chart.sight, appended.current]
  refine append_subset.mpr ⟨subset_append_left _ _, subset_append_of_subset_right _ ?_⟩
  simp only [Draft.code, Draft.block?, appended.blocks, appended.current, getElem?_modify_eq]
  cases before.function.blocks[before.current]? with
  | none => exact List.Subset.refl _
  | some block =>
    -- Behind an end, the code in front of it stays as it is.
    simp only [Option.map_eq_map, Option.map_some, Option.getD_some, Ir.Block.append]
    split <;> simp

theorem keep (draft : Draft) (text : String) : Straight rule ends known draft (draft.keep text) :=
  ⟨.single .keep, _, .keep draft text⟩

theorem write {base : String} {operation : Operation} (isOpen : before.IsOpen)
    (uses : ∀ value ∈ operation.operands, value.UsableIn (Chart.sight ⟨before, known⟩))
    (allowed : rule operation) : Straight rule ends known before (before.write base operation) :=
  ⟨.single (.write isOpen.going uses allowed), _, .write before base operation⟩

end Straight

theorem Draft.IsOpen.mem_sight_write {draft : Draft} (isOpen : draft.IsOpen) (known : Known)
    (base : String) (operation : Operation) :
    .register (draft.named base) operation.type ∈
      Chart.sight ⟨draft.write base operation, known⟩ := by
  -- The block is there, so the instruction is its last.
  obtain ⟨block, located⟩ : ∃ block, draft.function.blocks[draft.current]? = some block :=
    ⟨_, getElem?_eq_getElem isOpen.inside⟩
  refine mem_append_right _ ?_
  simp [Draft.code, Draft.block?, Draft.write, Draft.modifyBlock, Draft.take, Instr.result,
    located, Ir.Block.push_of_open (Draft.exit_eq_none isOpen.going located)]

end LeftHand
