import LeftHand.Proofs.Lower.Derivation

/-!
The shape of a function while it is written.

Blocks are added before they are written, so beside the current block some others wait, still empty.
Whatever is lowered leaves as many blocks waiting as it found, and every block that neither waits
nor is written has its end. What has been written never changes.
-/

namespace LeftHand

open Ir List

variable {change : Ir.Block → Ir.Block} {code : List Instr}

/-- A later state of a block: more instructions may follow, unless the block has ended. -/
structure Ir.Block.Continues (block later : Ir.Block) : Prop where
  label : later.label = block.label
  code : block.code <+: later.code
  ended : block.exit.isSome → later = block

namespace Ir.Block.Continues

variable {block between later : Ir.Block}

theorem refl (block : Ir.Block) : block.Continues block :=
  ⟨rfl, prefix_rfl, fun _ => rfl⟩

theorem trans (first : block.Continues between) (second : between.Continues later) :
    block.Continues later where
  label := second.label.trans first.label
  code := first.code.trans second.code
  ended exit := by
    have same := first.ended exit
    rw [same] at second
    exact second.ended exit

end Ir.Block.Continues

/-- Later states of the blocks of a function: each goes on, and more may follow. -/
def BlocksContinue (blocks later : List Ir.Block) : Prop :=
  ∀ (i : Nat) (block : Ir.Block), blocks[i]? = some block →
    ∃ next, later[i]? = some next ∧ block.Continues next

theorem BlocksContinue.trans {blocks between later : List Ir.Block}
    (first : BlocksContinue blocks between) (second : BlocksContinue between later) :
    BlocksContinue blocks later := by
  intro i block located
  obtain ⟨next, nextLocated, goesOn⟩ := first i block located
  obtain ⟨last, lastLocated, goesFurther⟩ := second i next nextLocated
  exact ⟨last, lastLocated, goesOn.trans goesFurther⟩

/-- A later draft of a function. -/
structure Draft.Grows (before after : Draft) : Prop extends before.SameFrame after where
  used : before.function.scope.used ⊆ after.function.scope.used
  blocks : BlocksContinue before.function.blocks after.function.blocks

namespace Draft.Grows

variable {before between after : Draft}

theorem refl (draft : Draft) : draft.Grows draft where
  __ := SameFrame.refl draft
  used := List.Subset.refl _
  blocks _ block located := ⟨block, located, .refl block⟩

theorem trans (first : before.Grows between) (second : between.Grows after) :
    before.Grows after where
  __ := first.toSameFrame.trans second.toSameFrame
  used := List.Subset.trans first.used second.used
  blocks := first.blocks.trans second.blocks

/-- Changing the current block lets the others be, so only its own change is to be looked at. -/
theorem blocks_modify {blocks : List Ir.Block} {current : Nat}
    (goesOn : ∀ block, blocks[current]? = some block → block.Continues (change block)) :
    BlocksContinue blocks (blocks.modify current change) := by
  intro i block located
  rw [getElem?_modify]
  by_cases same : current = i
  · subst same
    exact ⟨change block, by simp [located], goesOn block located⟩
  · exact ⟨block, by simp [same, located], .refl block⟩

end Draft.Grows

theorem Draft.exit_eq_none {draft : Draft} (going : draft.isEnded = false) {block : Ir.Block}
    (located : draft.function.blocks[draft.current]? = some block) : block.exit = none := by
  simpa [isEnded, block?, located] using going

theorem Draft.isEnded_eq_false {draft : Draft} {label : String}
    (empty : draft.block? = some { label }) : draft.isEnded = false := by
  simp [isEnded, empty]

/-- Instructions are put into blocks that go on. -/
theorem Appends.grows {before after : Draft} (appended : Appends before code after)
    (going : before.isEnded = false) :
    before.Grows after where
  __ := appended.toSameFrame
  used := by
    rw [appended.used]
    exact subset_append_right _ _
  blocks := by
    rw [appended.blocks]
    refine Draft.Grows.blocks_modify fun block located => ?_
    have isOpen := Draft.exit_eq_none going located
    rw [Ir.Block.append_of_open isOpen]
    exact ⟨rfl, prefix_append _ _, by simp [isOpen]⟩

namespace Draft

variable {draft : Draft}

theorem finish_grows (going : draft.isEnded = false) (exit : Exit) :
    draft.Grows (draft.finish exit) where
  __ := SameFrame.refl draft
  used := by simp [finish, modifyBlock, take]
  blocks := by
    refine Grows.blocks_modify fun block located => ⟨rfl, prefix_rfl, ?_⟩
    simp [exit_eq_none going located]

theorem grow_grows (draft : Draft) (base : String) : draft.Grows (draft.grow base) where
  __ := SameFrame.refl draft
  used := by simp [grow]
  blocks i block located := by
    refine ⟨block, ?_, .refl block⟩
    have within : i < draft.function.blocks.length := (List.getElem?_eq_some_iff.mp located).1
    simp [grow, getElem?_append_left within, located]

end Draft

/-- All instructions of a function, block by block. -/
def Ir.Function.instrs (function : Ir.Function) : List Instr :=
  function.blocks.flatMap (·.code)

/-- Drafts of a function between which blocks were added and ended, but no instruction was
written. -/
structure Draft.Moves (before after : Draft) : Prop extends before.Grows after where
  instrs : after.function.instrs = before.function.instrs
  session : after.session = before.session
  constants : after.strings = before.strings

namespace Draft

variable {draft before between after : Draft}

theorem Moves.refl (draft : Draft) : draft.Moves draft :=
  ⟨.refl draft, rfl, rfl, rfl⟩

theorem Moves.trans (first : before.Moves between) (second : between.Moves after) :
    before.Moves after :=
  ⟨first.toGrows.trans second.toGrows, second.instrs.trans first.instrs,
    second.session.trans first.session, second.constants.trans first.constants⟩

@[simp] theorem instrs_finish (draft : Draft) (exit : Exit) :
    (draft.finish exit).function.instrs = draft.function.instrs := by
  have unchanged (blocks : List Ir.Block) (i : Nat) :
      (blocks.modify i fun block => { block with exit := some exit }).flatMap (·.code) =
        blocks.flatMap (·.code) := by
    induction blocks generalizing i with
    | nil => rw [modify_nil]
    | cons block blocks ih => cases i <;> simp [ih]
  exact unchanged draft.function.blocks draft.current

@[simp] theorem instrs_grow (draft : Draft) (base : String) :
    (draft.grow base).function.instrs = draft.function.instrs := by
  simp [Ir.Function.instrs, grow]

theorem finish_moves (going : draft.isEnded = false) (exit : Exit) :
    draft.Moves (draft.finish exit) :=
  ⟨finish_grows going exit, instrs_finish draft exit, rfl, rfl⟩

theorem grow_moves (draft : Draft) (base : String) : draft.Moves (draft.grow base) :=
  ⟨grow_grows draft base, instrs_grow draft base, rfl, rfl⟩

theorem goTo_moves (draft : Draft) (block : BlockRef) : draft.Moves (draft.goTo block) where
  __ := Moves.refl draft

theorem leave_goTo_moves (draft : Draft) (join block : BlockRef) :
    draft.Moves ((draft.leave join).goTo block) := by
  refine Moves.trans ?_ (goTo_moves ..)
  rw [leave]
  split
  · exact .refl draft
  · rename_i going
    exact finish_moves (by simpa using going) _

variable (going : draft.isEnded = false)

include going

theorem fork_moves (truth : Value) (hasElse : Bool) : draft.Moves (draft.fork truth hasElse) := by
  have added : draft.Moves (draft.withArms hasElse) := by
    rw [withArms]
    split
    · exact ((grow_moves ..).trans (grow_moves ..)).trans (grow_moves ..)
    · exact (grow_moves ..).trans (grow_moves ..)
  exact (added.trans (finish_moves (by simpa using going) _)).trans (goTo_moves ..)

theorem toTest_moves : draft.Moves draft.toTest := by
  have added := ((grow_moves draft "ascond").trans (grow_moves _ "asloop")).trans
    (grow_moves _ "asend")
  exact (added.trans (finish_moves (by simpa using going) _)).trans (goTo_moves ..)

theorem toInside_moves (ring : Ring) (truth : Value) : draft.Moves (draft.toInside ring truth) :=
  (finish_moves going _).trans (goTo_moves ..)

theorem behind_moves (ring : Ring) : draft.Moves (draft.behind ring) :=
  (finish_moves going _).trans (goTo_moves ..)

end Draft

/-- A draft in which exactly some blocks wait to be written. -/
structure Draft.Shape (draft : Draft) (waiting : List BlockRef) : Prop where
  inside : draft.current < draft.function.blocks.length
  once : (draft.current :: waiting.map (·.position)).Nodup
  /-- A waiting block is still empty. -/
  empty : ∀ block ∈ waiting, draft.function.blocks[block.position]? = some { label := block.label }
  closed : ∀ (i : Nat) (block : Ir.Block), draft.function.blocks[i]? = some block →
    i ≠ draft.current → i ∉ waiting.map (·.position) → block.exit.isSome
  labels : (draft.function.blocks.map (·.label)).Nodup
  used : draft.function.blocks.map (·.label) ⊆ draft.function.scope.used

namespace Draft.Shape

variable {draft after : Draft} {waiting : List BlockRef}

section Current

variable (shape : draft.Shape waiting)

include shape

/-- Only which blocks wait matters, not in which order. -/
theorem congr {others : List BlockRef} (same : waiting.Perm others) :
    draft.Shape others where
  inside := shape.inside
  once := ((same.map _).cons _).nodup shape.once
  empty block member := shape.empty block (same.mem_iff.mpr member)
  closed i block located other written :=
    shape.closed i block located other fun member => written ((same.map _).mem_iff.mp member)
  labels := shape.labels
  used := shape.used

theorem lt {block : BlockRef} (member : block ∈ waiting) :
    block.position < draft.function.blocks.length :=
  (List.getElem?_eq_some_iff.mp (shape.empty block member)).1

theorem ne_position {block : BlockRef} (member : block ∈ waiting) :
    draft.current ≠ block.position := by
  intro here
  exact (nodup_cons.mp shape.once).1 (here ▸ mem_map_of_mem member)

/-- A change of the current block that keeps its label keeps the shape. -/
theorem modify (current : after.current = draft.current)
    (blocks : after.function.blocks = draft.function.blocks.modify draft.current change)
    (label : ∀ block, (change block).label = block.label)
    (used : draft.function.scope.used ⊆ after.function.scope.used) : after.Shape waiting := by
  have labels : after.function.blocks.map (·.label) = draft.function.blocks.map (·.label) := by
    refine ext_getElem? fun i => ?_
    rw [blocks, getElem?_map, getElem?_map, getElem?_modify]
    cases draft.function.blocks[i]? with
    | none => rfl
    | some block => by_cases same : draft.current = i <;> simp [same, label]
  refine ⟨?_, ?_, fun block member => ?_, fun i block located other written => ?_, ?_, ?_⟩
  · simpa [current, blocks] using shape.inside
  · rw [current]
    exact shape.once
  · rw [blocks, getElem?_modify_ne _ _ (shape.ne_position member)]
    exact shape.empty block member
  · rw [current] at other
    rw [blocks, getElem?_modify_ne _ _ (Ne.symm other)] at located
    exact shape.closed i block located other written
  · rw [labels]
    exact shape.labels
  · rw [labels]
    exact List.Subset.trans shape.used used

/-- A block that is added waits. -/
theorem grow (base : String) : (draft.grow base).Shape (draft.grown base :: waiting) := by
  have free : draft.named base ∉ draft.function.scope.used := Scope.take_notMem _ base
  refine ⟨?_, ?_, fun block member => ?_, fun i block located other written => ?_, ?_, ?_⟩
  · have := shape.inside
    simp [Draft.grow]
    omega
  · -- The positions in use are all before the new one.
    refine (List.Perm.swap _ _ _).nodup (nodup_cons.mpr ⟨fun member => ?_, shape.once⟩)
    have := shape.inside
    rcases mem_cons.mp member with here | earlier
    · exact absurd here (by simp [Draft.grow, grown]; omega)
    · obtain ⟨block, waits, here⟩ := mem_map.mp earlier
      have := shape.lt waits
      simp [grown] at here
      omega
  · rcases mem_cons.mp member with rfl | earlier
    · simp [Draft.grow, grown]
    · have located := shape.empty block earlier
      simp [Draft.grow, getElem?_append_left (shape.lt earlier), located]
  · simp only [map_cons, mem_cons, not_or, position_grown] at written
    simp only [Draft.grow, getElem?_append] at located
    split at located
    · exact shape.closed i block located other written.2
    · rename_i beyond
      -- The only position behind the others is the one of the block that waits.
      have : i - draft.function.blocks.length ≠ 0 := by omega
      simp [this] at located
  · simp only [Draft.grow, map_append, map_cons, map_nil]
    refine List.Nodup.append shape.labels (nodup_singleton _) ?_
    simpa using fun member => free (shape.used member)
  · simp only [Draft.grow, map_append, map_cons, map_nil, Scope.used_take]
    intro label member
    rcases mem_append.mp member with earlier | added
    · exact mem_cons_of_mem _ (shape.used earlier)
    · rw [mem_singleton.mp added]
      exact mem_cons_self

theorem appends (appended : Appends draft code after) : after.Shape waiting := by
  refine shape.modify appended.current appended.blocks (Ir.Block.label_append code) ?_
  rw [appended.used]
  exact subset_append_right _ _

theorem finish (exit : Exit) : (draft.finish exit).Shape waiting :=
  shape.modify rfl rfl (fun _ => rfl) (by simp [Draft.finish, modifyBlock, take])

theorem leave (join : BlockRef) : (draft.leave join).Shape waiting := by
  rw [Draft.leave]
  split
  · exact shape
  · exact shape.finish _

theorem isEnded_finish (exit : Exit) : (draft.finish exit).isEnded = true := by
  have inside := shape.inside
  simp [Draft.isEnded, block?, Draft.finish, modifyBlock, take, getElem?_eq_getElem inside]

theorem isEnded_leave (join : BlockRef) : (draft.leave join).isEnded = true := by
  rw [Draft.leave]
  split
  · assumption
  · exact shape.isEnded_finish _

end Current

section Waiting

variable {block : BlockRef} (shape : draft.Shape (block :: waiting))

include shape

/-- From a block that has ended, writing can go on in a block that waits. -/
theorem goTo (isEnded : draft.isEnded = true) : (draft.goTo block).Shape waiting where
  inside := shape.lt mem_cons_self
  once := (nodup_cons.mp shape.once).2
  empty other member := shape.empty other (mem_cons_of_mem _ member)
  closed i found located other written := by
    by_cases left : i = draft.current
    · subst left
      have located : draft.function.blocks[draft.current]? = some found := located
      simpa [Draft.isEnded, block?, located] using isEnded
    · refine shape.closed i found located left ?_
      rw [map_cons, mem_cons, not_or]
      exact ⟨other, written⟩
  labels := shape.labels
  used := shape.used

theorem block?_goTo : (draft.goTo block).block? = some { label := block.label } :=
  shape.empty block mem_cons_self

/-- From the end of a body, writing goes on in a block that waits. -/
theorem leave_goTo (join : BlockRef) : ((draft.leave join).goTo block).Shape waiting :=
  (shape.leave join).goTo (shape.isEnded_leave join)

theorem block?_leave_goTo
    (join : BlockRef) : ((draft.leave join).goTo block).block? = some { label := block.label } :=
  (shape.leave join).block?_goTo

theorem isEnded_leave_goTo (join : BlockRef) : ((draft.leave join).goTo block).isEnded = false :=
  Draft.isEnded_eq_false (shape.block?_leave_goTo join)

end Waiting

section Branches

variable (shape : draft.Shape waiting)

include shape

theorem withArms_false :
    (draft.withArms false).Shape
      ((draft.arms false).whenTrue :: (draft.arms false).join :: waiting) := by
  have added := (shape.grow (blockName draft.label ".if")).grow (blockName draft.label ".endif")
  exact added.congr (List.Perm.swap ..)

theorem withArms_true :
    (draft.withArms true).Shape
      ((draft.arms true).whenTrue :: (draft.arms true).whenFalse :: (draft.arms true).join ::
        waiting) := by
  have added := ((shape.grow (blockName draft.label ".if")).grow
    (blockName draft.label ".else")).grow (blockName draft.label ".endif")
  exact added.congr ((reverse_perm [_, _, _]).append_right waiting)

/-- At the body of a branch without an else part, what follows waits. -/
theorem fork_false (truth : Value) :
    (draft.fork truth false).Shape ((draft.arms false).join :: waiting) :=
  (shape.withArms_false.finish _).goTo (shape.withArms_false.isEnded_finish _)

/-- At the first body of a branch with an else part, that and what follows wait. -/
theorem fork_true (truth : Value) :
    (draft.fork truth true).Shape
      ((draft.arms true).whenFalse :: (draft.arms true).join :: waiting) :=
  (shape.withArms_true.finish _).goTo (shape.withArms_true.isEnded_finish _)

theorem block?_fork (truth : Value) (hasElse : Bool) :
    (draft.fork truth hasElse).block? = some { label := (draft.arms hasElse).whenTrue.label } := by
  cases hasElse with
  | false => exact (shape.withArms_false.finish _).block?_goTo
  | true => exact (shape.withArms_true.finish _).block?_goTo

theorem isEnded_fork (truth : Value) (hasElse : Bool) :
    (draft.fork truth hasElse).isEnded = false :=
  Draft.isEnded_eq_false (shape.block?_fork truth hasElse)

theorem withRing :
    (((draft.grow "ascond").grow "asloop").grow "asend").Shape
      (draft.ring.test :: draft.ring.inside :: draft.ring.join :: waiting) :=
  (((shape.grow "ascond").grow "asloop").grow "asend").congr
    ((reverse_perm [_, _, _]).append_right waiting)

/-- At the condition of a loop, its body and what follows wait. -/
theorem toTest : draft.toTest.Shape (draft.ring.inside :: draft.ring.join :: waiting) :=
  (shape.withRing.finish _).goTo (shape.withRing.isEnded_finish _)

theorem block?_toTest : draft.toTest.block? = some { label := draft.ring.test.label } :=
  (shape.withRing.finish _).block?_goTo

/-- Evaluating a condition adds instructions to the current block alone. -/
theorem condition {isVerbose : Bool} {env : Env} {condition : Expr} {truth : Value}
    (evaluated : Gives (lowerCondition isVerbose env condition) draft truth after) :
    after.Shape waiting := by
  obtain ⟨code, appended⟩ := lowerCondition_appends evaluated
  exact shape.appends appended

end Branches

section

variable {ring : Ring} (shape : draft.Shape (ring.inside :: waiting))

include shape

theorem toInside (truth : Value) : (draft.toInside ring truth).Shape waiting :=
  (shape.finish _).goTo (shape.isEnded_finish _)

theorem block?_toInside (truth : Value) :
    (draft.toInside ring truth).block? = some { label := ring.inside.label } :=
  (shape.finish _).block?_goTo

theorem isEnded_toInside (truth : Value) : (draft.toInside ring truth).isEnded = false :=
  Draft.isEnded_eq_false (shape.block?_toInside truth)

end

/-- From the body of a loop, writing goes on behind the loop. -/
theorem behind {ring : Ring} (shape : draft.Shape (ring.join :: waiting)) :
    (draft.behind ring).Shape waiting :=
  (shape.finish _).goTo (shape.isEnded_finish _)

theorem block?_behind {ring : Ring} (shape : draft.Shape (ring.join :: waiting)) :
    (draft.behind ring).block? = some { label := ring.join.label } :=
  (shape.finish _).block?_goTo

end Draft.Shape

/-- What is appended to an open block is the code that has come since. -/
theorem Draft.since_eq {draft after : Draft} {rest : List Instr} {waiting : List BlockRef}
    (shape : draft.Shape waiting) (going : draft.isEnded = false) (appended : Appends draft rest after) :
    after.code = draft.code ++ rest ∧ after.since draft = rest.map .instr := by
  obtain ⟨block, located⟩ : ∃ block, draft.block? = some block :=
    ⟨_, getElem?_eq_getElem shape.inside⟩
  have written : after.code = draft.code ++ rest := by
    rw [block?] at located
    simp [Draft.code, block?, appended.blocks, appended.current, located,
      Ir.Block.append_of_open (exit_eq_none going located)]
  exact ⟨written, by simp [since, written]⟩

/-- The instruction that a walk comes past. -/
def Ir.Event.instr? : Event → Option Instr
  | .instr written => some written
  | .test _ | .ret _ => none

/-- The instructions of a piece of code. -/
def instrsOf (events : List Event) : List Instr :=
  events.filterMap Event.instr?

@[simp] theorem instrsOf_map (code : List Instr) : instrsOf (code.map .instr) = code := by
  simp [instrsOf, filterMap_map, Function.comp_def, Event.instr?]

@[simp] theorem instrsOf_test (code : List Instr) (truth : Value) :
    instrsOf (code.map .instr ++ [.test truth]) = code := by
  rw [instrsOf, filterMap_append, ← instrsOf, instrsOf_map]
  simp [Event.instr?]

@[simp] theorem instrsOf_ret (code : List Instr) (value : Option Value) :
    instrsOf (code.map .instr ++ [.ret value]) = code := by
  rw [instrsOf, filterMap_append, ← instrsOf, instrsOf_map]
  simp [Event.instr?]

/-- Drafts of a function between which pieces of code were written, one after the other, each into
an open block, and no other code. -/
inductive Spans : Draft → Log → Draft → Prop where
  | nil {before after} (moved : before.Moves after) : Spans before [] after
  | cons {before start stop after entry log waiting} (moved : before.Moves start)
      (shape : start.Shape waiting) (going : start.isEnded = false)
      (appended : Appends start (instrsOf entry.2) stop) (others : Spans stop log after) :
      Spans before (entry :: log) after

namespace Spans

variable {before between after : Draft} {log more : Log} {entry : Visit × List Event}

theorem grows (spans : Spans before log after) : before.Grows after := by
  induction spans with
  | nil moved => exact moved.toGrows
  | cons moved _ going appended _ ih =>
    exact (moved.toGrows.trans (appended.grows going)).trans ih

theorem extend (spans : Spans before log between) (moved : between.Moves after) :
    Spans before log after := by
  induction spans with
  | nil first => exact .nil (first.trans moved)
  | cons first shape going appended _ ih => exact .cons first shape going appended (ih moved)

theorem since (moved : before.Moves between) (spans : Spans between log after) :
    Spans before log after := by
  cases spans with
  | nil last => exact .nil (moved.trans last)
  | cons first shape going appended others =>
    exact .cons (moved.trans first) shape going appended others

theorem append (first : Spans before log between) (second : Spans between more after) :
    Spans before (log ++ more) after := by
  induction first with
  | nil moved => exact second.since moved
  | cons moved shape going appended _ ih => exact .cons moved shape going appended (ih second)

end Spans

section Derivation

variable {isVerbose : Bool} {site : Site} {env env' : Env} {part : Part} {before after : Draft}
  {log : Log} {waiting : List BlockRef}

theorem Appends.isEnded_eq (appended : Appends before code after) :
    after.isEnded = before.isEnded := by
  simp only [Draft.isEnded, Draft.block?, appended.current, appended.blocks,
    getElem?_modify_eq]
  cases before.function.blocks[before.current]? <;> simp

/-- Lowering leaves as many blocks waiting as it found. -/
theorem Lowers.shape (lowered : Lowers isVerbose site env part before env' after log)
    (shape : before.Shape waiting) : after.Shape waiting := by
  induction lowered generalizing waiting with
  | plain isPlain written =>
    obtain ⟨code, appended⟩ := plain_appends isPlain written
    exact shape.appends appended
  | retVoid => exact shape.finish _
  | retValue evaluated =>
    obtain ⟨code, appended⟩ := lowerExpr_appends _ evaluated
    exact (shape.appends appended).finish _
  | branch _ ih | otherwise _ ih => exact ih shape
  | loop _ evaluated _ _ _ ih =>
    -- The body and what follows wait at the condition, what follows waits at the body.
    exact (ih ((shape.toTest.condition evaluated).toInside _)).behind
  | nil | dead | none => exact shape
  | cons _ _ _ firstIh othersIh => exact othersIh (firstIh shape)
  | ifThen evaluated _ _ ih =>
    exact (ih ((shape.condition evaluated).fork_false _)).leave_goTo _
  | ifElse _ evaluated _ _ _ ih restIh =>
    exact (restIh ((ih ((shape.condition evaluated).fork_true _)).leave_goTo _)).leave_goTo _

/-- What is behind the end of a block is not lowered. -/
theorem Lowers.eq_of_isEnded {stmts : List Stmt}
    (lowered : Lowers isVerbose site env (.body stmts) before env' after log)
    (isEnded : before.isEnded = true) : after = before ∧ log = [] := by
  cases lowered with
  | nil => exact ⟨rfl, rfl⟩
  | dead => exact ⟨rfl, rfl⟩
  | cons going => simp [isEnded] at going

theorem Spans.piece {entry : Visit × List Event} {stop : Draft} (shape : before.Shape waiting)
    (going : before.isEnded = false) (appended : Appends before code stop)
    (written : instrsOf entry.2 = code) (others : Spans stop log after) :
    Spans before (entry :: log) after :=
  .cons (.refl before) shape going (written ▸ appended) others

theorem Spans.condition {condition : Expr} {truth : Value} {tested : Draft}
    (shape : before.Shape waiting) (going : before.isEnded = false)
    (evaluated : Gives (lowerCondition isVerbose env condition) before truth tested)
    (others : Spans tested log after) :
    Spans before ((.condition site condition, tested.since before ++ [.test truth]) :: log) after := by
  obtain ⟨code, appended⟩ := lowerCondition_appends evaluated
  refine .piece shape going appended ?_ others
  rw [(Draft.since_eq shape going appended).2, instrsOf_test]

variable (lowered : Lowers isVerbose site env part before env' after log)

include lowered

/-- A part ends its block if it has a return that nothing can go around. -/
theorem Lowers.isEnded_eq (shape : before.Shape waiting) (going : before.isEnded = false) :
    after.isEnded = part.isEnding := by
  induction lowered generalizing waiting with
  | @plain _ _ stmt _ _ _ isPlain written =>
    obtain ⟨code, appended⟩ := plain_appends isPlain written
    rw [appended.isEnded_eq, going]
    cases stmt <;> first | rfl | cases isPlain
  | retVoid => exact shape.isEnded_finish _
  | retValue evaluated =>
    obtain ⟨code, appended⟩ := lowerExpr_appends _ evaluated
    exact (shape.appends appended).isEnded_finish _
  | branch _ ih | otherwise _ ih => exact ih shape going
  | loop _ evaluated _ lowered =>
    have atEnd := lowered.shape ((shape.toTest.condition evaluated).toInside _)
    exact Draft.isEnded_eq_false atEnd.block?_behind
  | nil | none => exact going
  | dead isEnded => simp [isEnded] at going
  | @cons _ _ stmt stmts _ _ _ _ _ _ _ first others firstIh othersIh =>
    have firstEnds : _ = stmt.isRet := firstIh shape going
    cases isRet : stmt.isRet with
    | true =>
      -- Behind a return nothing is lowered.
      obtain ⟨rfl, _⟩ := others.eq_of_isEnded (firstEnds.trans isRet)
      simp [Part.isEnding, firstEnds, isRet]
    | false =>
      have othersEnd := othersIh (first.shape shape) (firstEnds.trans isRet)
      simpa [Part.isEnding, isRet] using othersEnd
  | ifThen evaluated _ lowered =>
    have atEnd := lowered.shape ((shape.condition evaluated).fork_false _)
    exact atEnd.isEnded_leave_goTo _
  | ifElse _ evaluated _ lowered followed =>
    have atEnd := lowered.shape ((shape.condition evaluated).fork_true _)
    have atLast := followed.shape (atEnd.leave_goTo _)
    exact atLast.isEnded_leave_goTo _

/-- The pieces of code of a part are written one after the other. -/
theorem Lowers.spans (shape : before.Shape waiting) (going : before.isEnded = false) :
    Spans before log after := by
  induction lowered generalizing waiting with
  | plain isPlain written =>
    obtain ⟨code, appended⟩ := plain_appends isPlain written
    refine .piece shape going appended ?_ (.nil (.refl _))
    rw [(Draft.since_eq shape going appended).2, instrsOf_map]
  | retVoid => exact .piece shape going (.refl _) rfl (.nil (Draft.finish_moves going _))
  | retValue evaluated valueGoing =>
    obtain ⟨code, appended⟩ := lowerExpr_appends _ evaluated
    refine .piece shape going appended ?_ (.nil (Draft.finish_moves valueGoing _))
    rw [(Draft.since_eq shape going appended).2, instrsOf_ret]
  | branch _ ih | otherwise _ ih => exact ih shape going
  | loop _ evaluated testGoing _ bodyGoing ih =>
    have tested := shape.toTest.condition evaluated
    have inside := ih (tested.toInside _) (tested.isEnded_toInside _)
    have atTest := Draft.isEnded_eq_false shape.block?_toTest
    refine (Spans.condition shape.toTest atTest evaluated ?_).since (Draft.toTest_moves going)
    exact (inside.since (Draft.toInside_moves testGoing _ _)).extend (Draft.behind_moves bodyGoing _)
  | nil | none => exact .nil (.refl _)
  | dead isEnded => simp [isEnded] at going
  | @cons _ _ _ _ _ _ between _ _ _ _ first others firstIh othersIh =>
    refine (firstIh shape going).append ?_
    cases isEnded : between.isEnded with
    | true =>
      obtain ⟨rfl, rfl⟩ := others.eq_of_isEnded isEnded
      exact .nil (.refl _)
    | false => exact othersIh (first.shape shape) isEnded
  | ifThen evaluated testGoing _ ih =>
    have tested := shape.condition evaluated
    have inside := ih (tested.fork_false _) (tested.isEnded_fork _ _)
    exact .condition shape going evaluated
      ((inside.since (Draft.fork_moves testGoing _ _)).extend (Draft.leave_goTo_moves ..))
  | ifElse _ evaluated testGoing lowered _ ih restIh =>
    have tested := shape.condition evaluated
    have atEnd := lowered.shape (tested.fork_true _)
    have inside := ih (tested.fork_true _) (tested.isEnded_fork _ _)
    have rest := restIh (atEnd.leave_goTo _) (atEnd.isEnded_leave_goTo _)
    have both := (inside.append (rest.since (Draft.leave_goTo_moves ..))).since
      (Draft.fork_moves testGoing _ _)
    exact .condition shape going evaluated (both.extend (Draft.leave_goTo_moves ..))

/-- Whatever is lowered into an open block, the draft only grows. -/
theorem Lowers.grows (shape : before.Shape waiting) (going : before.isEnded = false) :
    before.Grows after :=
  (lowered.spans shape going).grows

end Derivation

end LeftHand
