import LeftHand.Proofs.Lower.Straight

/-!
Structured code: whatever a part of a program is lowered to is written step by step, and wherever
code of the part begins, the memory of every variable in scope has been taken before.
-/

namespace LeftHand

open Ir List

variable {label : String} {block : BlockRef} {start later : Chart} {truth : Value}

section Blocks

variable {rule : Operation → Prop} {ends : Exit → Prop} {draft : Draft} {known : Known}
  {waiting : List BlockRef}

/-- At the start of a block, what is known there is all that is in sight. -/
theorem Chart.sight_of_empty (empty : draft.block? = some { label := label }) :
    Chart.sight ⟨draft, known⟩ = known draft.current := by
  simp [Chart.sight, Draft.code, empty]

theorem Chart.sight_grow {base : String} (inside : draft.current < draft.function.blocks.length) :
    Chart.sight ⟨draft.grow base, known⟩ = Chart.sight ⟨draft, known⟩ := by
  simp [Chart.sight, Draft.code, Draft.block?, Draft.grow, getElem?_append_left inside]

/-- The end of a block takes nothing out of sight. -/
theorem Chart.sight_finish (draft : Draft) (known : Known) (exit : Exit) :
    Chart.sight ⟨draft, known⟩ ⊆ Chart.sight ⟨draft.finish exit, known⟩ := by
  simp only [Chart.sight, Draft.code, Draft.block?, Draft.finish, Draft.modifyBlock, Draft.take,
    getElem?_modify_eq]
  cases draft.function.blocks[draft.current]? <;> exact List.Subset.refl _

theorem Draft.Shape.isOpen (shape : draft.Shape waiting)
    (empty : draft.block? = some { label := label }) : draft.IsOpen :=
  ⟨shape.inside, Draft.isEnded_eq_false empty⟩

/-- Blocks that wait can be led to from where no less is known. -/
theorem Draft.Shape.leads (shape : draft.Shape waiting) (member : block ∈ waiting)
    (inner : block.position ≠ 0) (subset : known block.position ⊆ Chart.sight ⟨draft, known⟩) :
    Chart.Leads ⟨draft, known⟩ block.label :=
  ⟨block.position, _, shape.empty block member, rfl, inner, subset⟩

theorem Chart.Step.jump (going : draft.isEnded = false) (leads : Chart.Leads ⟨draft, known⟩ label) :
    Chart.Step rule Exit.Typed ⟨draft, known⟩ ⟨draft.finish (.jump label), known⟩ :=
  .finish going (by simp [Exit.operands]) (by simpa [Exit.targets] using leads) trivial

theorem Chart.Step.branch {whenTrue whenFalse : String} (going : draft.isEnded = false)
    (usable : truth.UsableIn (Chart.sight ⟨draft, known⟩)) (isTruth : truth.type = .i1)
    (leads : Chart.Leads ⟨draft, known⟩ whenTrue)
    (leadsToo : Chart.Leads ⟨draft, known⟩ whenFalse) :
    Chart.Step rule Exit.Typed ⟨draft, known⟩
      ⟨draft.finish (.branch truth whenTrue whenFalse), known⟩ :=
  .finish going (by simpa [Exit.operands] using usable)
    (by simpa [Exit.targets] using ⟨leads, leadsToo⟩) isTruth

/-- However many blocks are added in one place, the same is known at the start of each of them. -/
theorem Chart.Steps.growAll {length : Nat} {values : List Value} (draft : Draft)
    (bases : List String) (below : draft.current < length)
    (within : length ≤ draft.function.blocks.length)
    (sight : Chart.sight ⟨draft, known.extend length values⟩ = values) :
    Chart.Steps rule ends ⟨draft, known.extend length values⟩
        ⟨bases.foldl Draft.grow draft, known.extend length values⟩ ∧
      Chart.sight ⟨bases.foldl Draft.grow draft, known.extend length values⟩ = values := by
  -- By induction on the blocks, since a block that is added changes nothing in sight.
  induction bases generalizing draft with
  | nil => exact ⟨.refl, sight⟩
  | cons base bases ih =>
    -- From this position on the same is known already, so another block changes nothing.
    have same : (known.extend length values).extend draft.function.blocks.length values =
        known.extend length values := by
      funext i
      simp only [Known.extend]
      split
      · rfl
      · rw [if_neg (by omega)]
    have kept : Chart.sight ⟨draft.grow base, known.extend length values⟩ = values := by
      rw [Chart.sight_grow (by omega), sight]
    have within : length ≤ (draft.grow base).function.blocks.length := by
      rw [Draft.length_grow]
      omega
    obtain ⟨steps, sightLast⟩ := ih (draft.grow base) below within kept
    have first : Chart.Step rule ends ⟨draft, known.extend length values⟩
        ⟨draft.grow base, known.extend length values⟩ := by
      have step : Chart.Step rule ends ⟨draft, known.extend length values⟩ ⟨draft.grow base, _⟩ :=
        .grow
      rwa [sight, same] at step
    exact ⟨.head first steps, sightLast⟩

/-- Where blocks have been added, what was in sight before is known from their positions on. -/
abbrev Draft.widened (draft : Draft) (known : Known) : Known :=
  known.extend draft.function.blocks.length (Chart.sight ⟨draft, known⟩)

theorem Chart.Steps.grow (shape : draft.Shape waiting) (base : String) (bases : List String) :
    Chart.Steps rule ends ⟨draft, known⟩
        ⟨(base :: bases).foldl Draft.grow draft, draft.widened known⟩ ∧
      Chart.sight ⟨(base :: bases).foldl Draft.grow draft, draft.widened known⟩ =
        Chart.sight ⟨draft, known⟩ := by
  -- The first block fixes what is known, and the others are added in the same sight.
  have inside := shape.inside
  have sight : Chart.sight ⟨draft.grow base, draft.widened known⟩ = Chart.sight ⟨draft, known⟩ := by
    rw [Chart.sight_grow inside]
    simp [Chart.sight, Known.extend, inside]
  have within : draft.function.blocks.length ≤ (draft.grow base).function.blocks.length := by
    rw [Draft.length_grow]
    omega
  obtain ⟨steps, sightLast⟩ := Chart.Steps.growAll (draft.grow base) bases inside within sight
  exact ⟨.head .grow steps, sightLast⟩

theorem Draft.widened_eq {draft : Draft} {position : Nat} (known : Known)
    (added : draft.function.blocks.length ≤ position) :
    draft.widened known position = Chart.sight ⟨draft, known⟩ :=
  if_neg (by omega)

/-- A block that has been added, at whose start just what is in sight is known. -/
structure Chart.Awaits (chart : Chart) (block : BlockRef) : Prop where
  inner : block.position ≠ 0
  within : block.position < chart.draft.function.blocks.length
  known : chart.known block.position = chart.sight

/-- Whatever is written meanwhile, the same is known at the start of the block. -/
theorem Chart.Awaits.known_eq (awaits : start.Awaits block)
    (steps : Chart.Steps rule ends start later) : later.known block.position = start.sight :=
  (steps.known_eq awaits.within).trans awaits.known

theorem Chart.Awaits.subset (awaits : start.Awaits block)
    (steps : Chart.Steps rule ends start later) (sight : start.sight ⊆ later.sight) :
    later.known block.position ⊆ later.sight := by
  rw [awaits.known_eq steps]
  exact sight

/-- A branch is entered where its condition has been computed. -/
theorem Chart.Steps.fork (shape : draft.Shape waiting) (going : draft.isEnded = false)
    (usable : truth.UsableIn (Chart.sight ⟨draft, known⟩)) (isTruth : truth.type = .i1)
    (hasElse : Bool) :
    Chart.Steps rule Exit.Typed ⟨draft, known⟩
        ⟨draft.fork truth hasElse, draft.widened known⟩ ∧
      Chart.sight ⟨draft.fork truth hasElse, draft.widened known⟩ = Chart.sight ⟨draft, known⟩ ∧
      Chart.Awaits ⟨draft.fork truth hasElse, draft.widened known⟩ (draft.arms hasElse).whenFalse ∧
      Chart.Awaits ⟨draft.fork truth hasElse, draft.widened known⟩ (draft.arms hasElse).join := by
  -- Blocks have been written before, so none that is added is the entry.
  have inner : draft.function.blocks.length ≠ 0 := by
    have := shape.inside
    omega
  -- All blocks of the branch are added before the condition is left.
  obtain ⟨others, added, waits, steps, sight⟩ : ∃ others, (draft.withArms hasElse).Shape others ∧
      ((draft.arms hasElse).whenTrue ∈ others ∧ (draft.arms hasElse).whenFalse ∈ others ∧
        (draft.arms hasElse).join ∈ others) ∧
      Chart.Steps rule Exit.Typed ⟨draft, known⟩
        ⟨draft.withArms hasElse, draft.widened known⟩ ∧
      Chart.sight ⟨draft.withArms hasElse, draft.widened known⟩ = Chart.sight ⟨draft, known⟩ := by
    cases hasElse with
    | false => exact ⟨_, shape.withArms_false, by simp [Draft.arms],
        Chart.Steps.grow shape (blockName draft.label ".if") [blockName draft.label ".endif"]⟩
    | true => exact ⟨_, shape.withArms_true, by simp,
        Chart.Steps.grow shape (blockName draft.label ".if")
          [blockName draft.label ".else", blockName draft.label ".endif"]⟩
  -- Each of them can be led to from here, since no more is known at its start.
  have leads {block : BlockRef} (member : block ∈ others)
      (isAdded : draft.function.blocks.length ≤ block.position) :
      Chart.Leads ⟨draft.withArms hasElse, draft.widened known⟩ block.label :=
    added.leads member (by omega) (by rw [sight, Draft.widened_eq known isAdded]; exact fun _ => id)
  have steps := (steps.tail (.branch (by simpa using going) (sight ▸ usable) isTruth
    (leads waits.1 (by simp)) (leads waits.2.1 (by simp)))).tail (.goTo ((added.finish _).lt waits.1))
  have sight : Chart.sight ⟨draft.fork truth hasElse, draft.widened known⟩ =
      Chart.sight ⟨draft, known⟩ := by
    rw [Chart.sight_of_empty (shape.block?_fork truth hasElse)]
    exact Draft.widened_eq known (by simp [Draft.fork, Draft.goTo])
  -- The blocks that are not written to yet keep what is known at their starts.
  have awaits {block : BlockRef} (member : block ∈ others)
      (isAdded : draft.function.blocks.length ≤ block.position) :
      Chart.Awaits ⟨draft.fork truth hasElse, draft.widened known⟩ block :=
    ⟨by omega, (added.finish _).lt member, (Draft.widened_eq known isAdded).trans sight.symm⟩
  exact ⟨steps, sight, awaits waits.2.1 (by simp), awaits waits.2.2 (by simp)⟩

/-- From the end of a body, writing goes on in a block that waits. -/
theorem Chart.Steps.leave_goTo {join : BlockRef}
    (steps : Chart.Steps rule Exit.Typed start ⟨draft, known⟩)
    (sight : start.sight ⊆ Chart.sight ⟨draft, known⟩) (shape : draft.Shape (block :: waiting))
    (member : join ∈ block :: waiting) (awaits : start.Awaits block)
    (awaitsJoin : start.Awaits join) :
    Chart.Steps rule Exit.Typed ⟨draft, known⟩ ⟨(draft.leave join).goTo block, known⟩ ∧
      Chart.sight ⟨(draft.leave join).goTo block, known⟩ = start.sight := by
  refine ⟨.tail ?_ (.goTo ((shape.leave join).lt mem_cons_self)),
    (Chart.sight_of_empty (shape.block?_leave_goTo join)).trans (awaits.known_eq steps)⟩
  -- A body that has ended by itself leads nowhere else.
  rw [Draft.leave]
  split
  · exact .refl
  · rename_i going
    exact .single (.jump (by simpa using going)
      (shape.leads member awaitsJoin.inner (awaitsJoin.subset steps sight)))

/-- A loop is entered at its condition. -/
theorem Chart.Steps.toTest (shape : draft.Shape waiting) (going : draft.isEnded = false) :
    Chart.Steps rule Exit.Typed ⟨draft, known⟩ ⟨draft.toTest, draft.widened known⟩ ∧
      Chart.sight ⟨draft.toTest, draft.widened known⟩ = Chart.sight ⟨draft, known⟩ ∧
      Chart.Awaits ⟨draft.toTest, draft.widened known⟩ draft.ring.test ∧
      Chart.Awaits ⟨draft.toTest, draft.widened known⟩ draft.ring.inside ∧
      Chart.Awaits ⟨draft.toTest, draft.widened known⟩ draft.ring.join := by
  have inner : draft.function.blocks.length ≠ 0 := by
    have := shape.inside
    omega
  have added := shape.withRing
  -- At the condition nothing more is known than in front of the loop.
  have atTest : draft.widened known draft.ring.test.position = Chart.sight ⟨draft, known⟩ :=
    Draft.widened_eq known (Nat.le_refl _)
  obtain ⟨steps, sight⟩ := Chart.Steps.grow shape "ascond" ["asloop", "asend"]
  have leads : Chart.Leads ⟨((draft.grow "ascond").grow "asloop").grow "asend",
      draft.widened known⟩ _ :=
    added.leads mem_cons_self inner (by rw [atTest]; exact sight ▸ fun _ => id)
  -- The jump to the condition ends the block in front of the loop.
  have steps : Chart.Steps rule Exit.Typed ⟨draft, known⟩ ⟨draft.toTest, draft.widened known⟩ :=
    .tail (.tail steps (.jump (by simpa using going) leads))
      (.goTo ((added.finish _).lt mem_cons_self))
  have sight : Chart.sight ⟨draft.toTest, draft.widened known⟩ = Chart.sight ⟨draft, known⟩ :=
    (Chart.sight_of_empty shape.block?_toTest).trans atTest
  have awaits {block : BlockRef}
      (member : block ∈ draft.ring.test :: draft.ring.inside :: draft.ring.join :: waiting)
      (isAdded : draft.function.blocks.length ≤ block.position) :
      Chart.Awaits ⟨draft.toTest, draft.widened known⟩ block :=
    ⟨by omega, (added.finish _).lt member, (Draft.widened_eq known isAdded).trans sight.symm⟩
  exact ⟨steps, sight, awaits (by simp) (by simp), awaits (by simp) (by simp),
    awaits (by simp) (by simp)⟩

variable (steps : Chart.Steps rule Exit.Typed start ⟨draft, known⟩)

include steps

variable (sight : start.sight ⊆ Chart.sight ⟨draft, known⟩)

include sight

theorem Chart.Steps.toInside {ring : Draft.Ring}
    (shape : draft.Shape (ring.inside :: ring.join :: waiting)) (going : draft.isEnded = false)
    (usable : truth.UsableIn (Chart.sight ⟨draft, known⟩)) (isTruth : truth.type = .i1)
    (awaits : start.Awaits ring.inside) (awaitsJoin : start.Awaits ring.join) :
    Chart.Steps rule Exit.Typed ⟨draft, known⟩ ⟨draft.toInside ring truth, known⟩ ∧
      Chart.sight ⟨draft.toInside ring truth, known⟩ = start.sight := by
  -- Both ways on have been waiting since the loop was entered.
  have inside := shape.leads mem_cons_self awaits.inner (awaits.subset steps sight)
  have join := shape.leads (mem_cons_of_mem _ mem_cons_self) awaitsJoin.inner
    (awaitsJoin.subset steps sight)
  exact ⟨.tail (.single (.branch going usable isTruth inside join))
      (.goTo ((shape.finish _).lt mem_cons_self)),
    (Chart.sight_of_empty (shape.block?_toInside truth)).trans (awaits.known_eq steps)⟩

/-- From the body of a loop, writing goes on behind the loop. The end of the body leads back to the
condition, which has been written before. -/
theorem Chart.Steps.behind {ring : Draft.Ring} (shape : draft.Shape (ring.join :: waiting))
    (going : draft.isEnded = false)
    (test : start.draft.function.blocks[ring.test.position]? = some { label := ring.test.label })
    (awaitsTest : start.Awaits ring.test) (awaitsJoin : start.Awaits ring.join) :
    Chart.Steps rule Exit.Typed ⟨draft, known⟩ ⟨draft.behind ring, known⟩ ∧
      Chart.sight ⟨draft.behind ring, known⟩ = start.sight := by
  -- The condition has got code since, but its label is the same.
  obtain ⟨target, located, goesOn⟩ := steps.grows.blocks _ _ test
  have leads : Chart.Leads ⟨draft, known⟩ ring.test.label :=
    ⟨_, target, located, goesOn.label, awaitsTest.inner, awaitsTest.subset steps sight⟩
  exact ⟨.tail (.single (.jump going leads)) (.goTo ((shape.finish _).lt mem_cons_self)),
    (Chart.sight_of_empty shape.block?_behind).trans (awaitsJoin.known_eq steps)⟩

end Blocks

end LeftHand
