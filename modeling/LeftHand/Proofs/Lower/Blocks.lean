import LeftHand.Proofs.Lower.Code

/-! Branches and loops as steps from draft to draft. -/

namespace LeftHand

namespace Draft

variable (draft : Draft)

/-- The blocks of a branch. Without an else part, a false condition leads on at once. -/
structure Arms where
  whenTrue : BlockRef
  whenFalse : BlockRef
  join : BlockRef

/-- The blocks that a branch adds. -/
def arms (hasElse : Bool) : Arms :=
  let base := blockName draft.label
  let first := draft.grow (base ".if")
  if hasElse then
    ⟨draft.grown (base ".if"), first.grown (base ".else"),
      (first.grow (base ".else")).grown (base ".endif")⟩
  else ⟨draft.grown (base ".if"), first.grown (base ".endif"), first.grown (base ".endif")⟩

/-- The draft with the blocks of a branch. -/
def withArms (hasElse : Bool) : Draft :=
  let base := blockName draft.label
  let first := draft.grow (base ".if")
  if hasElse then (first.grow (base ".else")).grow (base ".endif") else first.grow (base ".endif")

/-- The draft at the first body of a branch. -/
def fork (truth : Ir.Value) (hasElse : Bool) : Draft :=
  ((draft.withArms hasElse).finish
    (.branch truth (draft.arms hasElse).whenTrue.label (draft.arms hasElse).whenFalse.label)).goTo
    (draft.arms hasElse).whenTrue

/-- The draft behind a body that goes on elsewhere, unless it has ended by itself. -/
def leave (join : BlockRef) : Draft :=
  if draft.isEnded then draft else draft.finish (.jump join.label)

/-- The blocks of a loop: its condition, its body, and what follows. -/
structure Ring where
  test : BlockRef
  inside : BlockRef
  join : BlockRef

/-- The blocks that a loop adds. -/
def ring : Ring :=
  let first := draft.grow "ascond"
  let second := first.grow "asloop"
  ⟨draft.grown "ascond", first.grown "asloop", second.grown "asend"⟩

/-- The draft at the condition of a loop. -/
def toTest : Draft :=
  ((((draft.grow "ascond").grow "asloop").grow "asend").finish (.jump draft.ring.test.label)).goTo
    draft.ring.test

/-- The draft at the body of a loop, from where its condition has been written. -/
def toInside (ring : Ring) (truth : Ir.Value) : Draft :=
  (draft.finish (.branch truth ring.inside.label ring.join.label)).goTo ring.inside

/-- The draft behind a loop, from the end of its body. -/
def behind (ring : Ring) : Draft :=
  (draft.finish (.jump ring.test.label)).goTo ring.join

@[simp] theorem isEnded_grow (base : String) : (draft.grow base).isEnded = draft.isEnded := by
  simp only [isEnded, block?, grow]
  rcases Nat.lt_trichotomy draft.current draft.function.blocks.length with within | last | beyond
  · rw [List.getElem?_append_left within]
  · simp [last]
  · rw [List.getElem?_eq_none (by simp; omega), List.getElem?_eq_none (by omega)]

@[simp] theorem isEnded_withArms (hasElse : Bool) :
    (draft.withArms hasElse).isEnded = draft.isEnded := by
  cases hasElse <;> simp [withArms]

@[simp] theorem length_grow (base : String) :
    (draft.grow base).function.blocks.length = draft.function.blocks.length + 1 := by
  simp [grow]

@[simp] theorem position_grown (base : String) :
    (draft.grown base).position = draft.function.blocks.length :=
  rfl

@[simp] theorem position_whenTrue (hasElse : Bool) :
    (draft.arms hasElse).whenTrue.position = draft.function.blocks.length := by
  cases hasElse <;> simp [arms]

@[simp] theorem position_whenFalse (hasElse : Bool) :
    (draft.arms hasElse).whenFalse.position = draft.function.blocks.length + 1 := by
  cases hasElse <;> simp [arms]

@[simp] theorem position_join (hasElse : Bool) :
    (draft.arms hasElse).join.position =
      draft.function.blocks.length + if hasElse then 2 else 1 := by
  cases hasElse <;> simp [arms]

@[simp] theorem position_test : draft.ring.test.position = draft.function.blocks.length := rfl

@[simp] theorem position_inside : draft.ring.inside.position = draft.function.blocks.length + 1 := by
  simp [ring]

@[simp] theorem position_behind : draft.ring.join.position = draft.function.blocks.length + 2 := by
  simp [ring]

end Draft

section Control

variable {before after : Draft} {block join : BlockRef} {truth : Ir.Value} {body other : Emit Unit}
  {done : Unit}

@[simp] theorem gives_bodyInto :
    Gives (Emit.bodyInto block join body) before done after ↔
      ∃ ended, Gives body (before.goTo block) () ended ∧ after = ended.leave join := by
  simp only [Emit.bodyInto, gives_bind, gives_enter, gives_get, Draft.leave]
  constructor
  · rintro ⟨_, _, rfl, _, ended, written, _, _, ⟨rfl, rfl⟩, left⟩
    refine ⟨_, written, ?_⟩
    split at left <;> simp_all
  · rintro ⟨ended, written, rfl⟩
    refine ⟨(), _, rfl, (), ended, written, _, _, ⟨rfl, rfl⟩, ?_⟩
    cases complete : ended.isEnded <;> simp [complete]

theorem gives_ifThen :
    Gives (Emit.ifThen truth body) before done after ↔
      before.isEnded = false ∧ ∃ ended, Gives body (before.fork truth false) () ended ∧
        after = (ended.leave (before.arms false).join).goTo (before.arms false).join := by
  simp only [Emit.ifThen, gives_bind, gives_currentLabel, gives_addBlock, gives_exit,
    gives_bodyInto, gives_enter]
  constructor
  · rintro ⟨_, _, ⟨rfl, rfl⟩, _, _, ⟨rfl, rfl⟩, _, _, ⟨rfl, rfl⟩, _, _, ⟨going, rfl⟩, _, _,
      ⟨ended, written, rfl⟩, rfl⟩
    exact ⟨by simpa using going, ended, written, rfl⟩
  · rintro ⟨going, ended, written, rfl⟩
    exact ⟨_, _, ⟨rfl, rfl⟩, _, _, ⟨rfl, rfl⟩, _, _, ⟨rfl, rfl⟩, (), _, ⟨by simpa using going, rfl⟩,
      (), _, ⟨ended, written, rfl⟩, rfl⟩

theorem gives_ifElse :
    Gives (Emit.ifElse truth body other) before done after ↔
      before.isEnded = false ∧ ∃ ended, Gives body (before.fork truth true) () ended ∧
        ∃ last, Gives other ((ended.leave (before.arms true).join).goTo
            (before.arms true).whenFalse) () last ∧
          after = (last.leave (before.arms true).join).goTo (before.arms true).join := by
  simp only [Emit.ifElse, gives_bind, gives_currentLabel, gives_addBlock, gives_exit,
    gives_bodyInto, gives_enter]
  constructor
  · rintro ⟨_, _, ⟨rfl, rfl⟩, _, _, ⟨rfl, rfl⟩, _, _, ⟨rfl, rfl⟩, _, _, ⟨rfl, rfl⟩, _, _,
      ⟨going, rfl⟩, _, _, ⟨ended, written, rfl⟩, _, _, ⟨last, followed, rfl⟩, rfl⟩
    exact ⟨by simpa using going, ended, written, last, followed, rfl⟩
  · rintro ⟨going, ended, written, last, followed, rfl⟩
    exact ⟨_, _, ⟨rfl, rfl⟩, _, _, ⟨rfl, rfl⟩, _, _, ⟨rfl, rfl⟩, _, _, ⟨rfl, rfl⟩, (), _,
      ⟨by simpa using going, rfl⟩, (), _, ⟨ended, written, rfl⟩, (), _, ⟨last, followed, rfl⟩, rfl⟩

/-- A loop, whose body must not end by itself. -/
theorem gives_loop {condition : Emit Ir.Value} :
    Gives (Emit.loop condition body) before done after ↔
      before.isEnded = false ∧ ∃ truth tested, Gives condition before.toTest truth tested ∧
        tested.isEnded = false ∧ ∃ ended, Gives body (tested.toInside before.ring truth) () ended ∧
          ended.isEnded = false ∧ after = ended.behind before.ring := by
  simp only [Emit.loop, gives_bind, gives_addBlock, gives_exit, gives_enter]
  constructor
  · rintro ⟨_, _, ⟨rfl, rfl⟩, _, _, ⟨rfl, rfl⟩, _, _, ⟨rfl, rfl⟩, _, _, ⟨going, rfl⟩, _, _, rfl,
      truth, tested, conditionWritten, _, _, ⟨testOpen, rfl⟩, _, _, rfl, _, ended, written, _, _,
      ⟨bodyOpen, rfl⟩, rfl⟩
    exact ⟨by simpa using going, truth, tested, conditionWritten, testOpen, ended, written, bodyOpen,
      rfl⟩
  · rintro ⟨going, truth, tested, conditionWritten, testOpen, ended, written, bodyOpen, rfl⟩
    exact ⟨_, _, ⟨rfl, rfl⟩, _, _, ⟨rfl, rfl⟩, _, _, ⟨rfl, rfl⟩, (), _, ⟨by simpa using going, rfl⟩,
      (), _, rfl, truth, tested, conditionWritten, (), _, ⟨testOpen, rfl⟩, (), _, rfl, (), ended,
      written, (), _, ⟨bodyOpen, rfl⟩, rfl⟩

end Control

end LeftHand
