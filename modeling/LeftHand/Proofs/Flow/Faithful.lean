import LeftHand.Proofs.Flow.Reach

/-! Lowered code is walked as the program runs. -/

namespace LeftHand

open List

variable {pos bodyPos : Pos} {condition : Expr}

/-- What comes behind a part: the walk goes on from there, or has stopped. -/
def Draft.Follows (after : Draft) (function : Ir.Function) : Result → List Ir.Event → Stop → Prop
  | .falls outcomes, events, stop => after.Reaches function outcomes events stop
  | .stops reason, events, stop => events = [] ∧ stop = reason

/-- A part that is lowered from an open block on. Its code stands in the finished function, for each
of its places the code that is told. -/
structure Stretch (isVerbose : Bool) (function : Ir.Function) (code : Visit → List Ir.Event) (site : Site)
    (env : Env) (part : Part) (before : Draft) (env' : Env) (after : Draft) : Prop where
  shape : ∃ waiting, before.Shape waiting
  going : before.isEnded = false
  later : BlocksContinue after.function.blocks function.blocks
  lowered : ∃ log, Lowers isVerbose site env part before env' after log ∧
    ∀ entry ∈ log, code entry.1 = entry.2

/-- A part inside a branch or a loop: it is lowered on its own, and its end leads on to
elsewhere. -/
structure Arm (isVerbose : Bool) (function : Ir.Function) (code : Visit → List Ir.Event) (site : Site)
    (env : Env) (part : Part) (before ended after : Draft) : Prop
    extends Stretch isVerbose function code site env part before env ended where
  joins : ended.isEnded = false → ended.Joins function after

variable {isVerbose : Bool} {site : Site} {env env' : Env} {function : Ir.Function} {part : Part}
  {before after ended : Draft} {code : Visit → List Ir.Event} {outcomes : List Bool}
  {trace : List Visit} {result : Result} {events : List Ir.Event} {stop : Stop}

theorem Arm.follows (arm : Arm isVerbose function code site env part before ended after)
    (ran : Runs site part outcomes trace result) (onward : after.Follows function result events stop) :
    ended.Follows function result events stop := by
  cases result with
  | stops reason => exact onward
  | falls left =>
    obtain ⟨waiting, shape⟩ := arm.shape
    obtain ⟨log, lowered, _⟩ := arm.lowered
    -- A part that leads on has not ended its block.
    have isOpen : ended.isEnded = false := by
      rw [lowered.isEnded_eq shape arm.going, ran.isEnding_eq_false]
    exact (arm.joins isOpen ..).mpr onward

namespace Stretch

/-- Straight code is walked from its first instruction to its last. -/
theorem plain {stmt : Stmt} (isPlain : stmt.isPlain = true)
    (stretch : Stretch isVerbose function code site env (.stmt stmt) before env' after)
    (onward : after.Reaches function outcomes events stop) :
    before.Reaches function outcomes (code (.stmt site stmt) ++ events) stop := by
  obtain ⟨⟨waiting, shape⟩, going, later, log, lowered, spelled⟩ := stretch
  cases lowered with
  | plain _ written =>
    obtain ⟨instrs, appended⟩ := plain_appends isPlain written
    rw [spelled _ mem_cons_self]
    exact onward.appends shape going appended
  | retVoid | retValue | branch | loop => cases isPlain

/-- A walk stops at a return, behind the code of the value. -/
theorem ret {value : Option Expr}
    (stretch : Stretch isVerbose function code site env (.stmt (.ret pos value)) before env' after) :
    before.Reaches function outcomes (code (.stmt site (.ret pos value))) .returns := by
  obtain ⟨⟨waiting, shape⟩, going, later, log, lowered, spelled⟩ := stretch
  cases lowered with
  | plain isPlain => cases isPlain
  | retVoid =>
    rw [spelled _ mem_cons_self]
    exact ⟨_, _, (shape.leaves_finish .retVoid).remains later, .retVoid⟩
  | retValue evaluated =>
    obtain ⟨instrs, appended⟩ := lowerExpr_appends _ evaluated
    have left := ((shape.appends appended).leaves_finish _).remains later
    rw [spelled _ mem_cons_self]
    exact Draft.Reaches.appends ⟨_, _, left, .ret⟩ shape going appended

/-- The condition of an else-if decides between its body and what is behind it, and both lead to the
same place. -/
theorem elseIf {body : List Stmt} {rest : Else} (closed : function.Closed)
    (stretch : Stretch isVerbose function code site env (.rest (.elseIf pos condition bodyPos body rest))
      before env' after) :
    ∃ fork ended other last, before.Decides function (code (.condition site condition)) fork other ∧
      Arm isVerbose function code site.body env (.body body) fork ended after ∧
      Arm isVerbose function code site.rest env (.rest rest) other last after := by
  obtain ⟨⟨waiting, shape⟩, isOpen, later, log, lowered, spelled⟩ := stretch
  cases lowered with
  | @ifThen _ _ _ _ _ _ _ truth tested ended inside evaluated going lowered =>
    obtain ⟨instrs, appended⟩ := lowerCondition_appends evaluated
    obtain ⟨chunk, spelled⟩ := forall_mem_cons.mp spelled
    have atTest := shape.appends appended
    have forkStart := atTest.block?_fork truth false
    have forkOpen := Draft.isEnded_eq_false forkStart
    have atEnd := lowered.shape (atTest.fork_false truth)
    have afterStart := atEnd.block?_leave_goTo (tested.arms false).join
    have endLater := (Draft.leave_goTo_moves ended _ _).blocks.trans later
    have forkLater := (lowered.grows (atTest.fork_false truth) forkOpen).blocks.trans endLater
    -- Without an else part, a false condition leads behind the branch at once.
    let after := (ended.leave (tested.arms false).join).goTo (tested.arms false).join
    refine ⟨_, _, after, after, ?_,
      ⟨⟨⟨_, atTest.fork_false truth⟩, forkOpen, endLater, _, lowered, spelled⟩, fun bodyGoing => ?_⟩,
      ⟨⟨⟨_, atEnd.leave_goTo _⟩, Draft.isEnded_eq_false afterStart, later, _, .none, by simp⟩,
        fun _ _ _ _ => Iff.rfl⟩⟩
    · rw [chunk]
      exact ((atTest.leaves_fork truth false).remains forkLater).decides closed shape isOpen appended
        forkStart forkLater afterStart later
    · exact ((atEnd.leaves_leave bodyGoing _).remains later).joins closed afterStart later
  | @ifElse _ _ _ _ _ _ _ _ truth tested ended last inside more follows evaluated going lowered
      followed =>
    obtain ⟨instrs, appended⟩ := lowerCondition_appends evaluated
    obtain ⟨chunk, spelled⟩ := forall_mem_cons.mp spelled
    obtain ⟨spelled, restSpelled⟩ := forall_mem_append.mp spelled
    have atTest := shape.appends appended
    have forkStart := atTest.block?_fork truth true
    have forkOpen := Draft.isEnded_eq_false forkStart
    have atEnd := lowered.shape (atTest.fork_true truth)
    have otherStart := atEnd.block?_leave_goTo (tested.arms true).join
    have otherOpen := Draft.isEnded_eq_false otherStart
    have atOther := atEnd.leave_goTo (tested.arms true).join
    have atLast := followed.shape atOther
    have afterStart := atLast.block?_leave_goTo (tested.arms true).join
    have lastLater := (Draft.leave_goTo_moves last _ _).blocks.trans later
    have otherLater := (followed.grows atOther otherOpen).blocks.trans lastLater
    have endLater := (Draft.leave_goTo_moves ended _ _).blocks.trans otherLater
    have forkLater := (lowered.grows (atTest.fork_true truth) forkOpen).blocks.trans endLater
    refine ⟨_, _, _, _, ?_,
      ⟨⟨⟨_, atTest.fork_true truth⟩, forkOpen, endLater, _, lowered, spelled⟩, fun bodyGoing => ?_⟩,
      ⟨⟨⟨_, atOther⟩, otherOpen, lastLater, _, followed, restSpelled⟩, fun lastGoing => ?_⟩⟩
    · rw [chunk]
      exact ((atTest.leaves_fork truth true).remains forkLater).decides closed shape isOpen appended
        forkStart forkLater otherStart otherLater
    · exact ((atEnd.leaves_leave bodyGoing _).remains otherLater).joins closed afterStart later
    · exact ((atLast.leaves_leave lastGoing _).remains later).joins closed afterStart later

/-- A loop leads to its condition, which decides between its body and what is behind the loop, and
the body leads back to the condition. -/
theorem loop {body : List Stmt} (closed : function.Closed)
    (stretch : Stretch isVerbose function code site env (.stmt (.loop pos condition bodyPos body)) before
      env' after) :
    ∃ test fork ended, before.Joins function test ∧
      test.Decides function (code (.condition site condition)) fork after ∧
      Arm isVerbose function code site.body env (.body body) fork ended test := by
  obtain ⟨⟨waiting, shape⟩, going, later, log, lowered, spelled⟩ := stretch
  cases lowered with
  | plain isPlain => cases isPlain
  | @loop _ _ _ _ _ _ _ truth tested ended inside _ evaluated testGoing lowered bodyGoing =>
    obtain ⟨instrs, appended⟩ := lowerCondition_appends evaluated
    obtain ⟨chunk, spelled⟩ := forall_mem_cons.mp spelled
    have testStart := shape.block?_toTest
    have testOpen := Draft.isEnded_eq_false testStart
    have atTest := shape.toTest.appends appended
    have insideStart := atTest.block?_toInside truth
    have insideOpen := Draft.isEnded_eq_false insideStart
    have atEnd := lowered.shape (atTest.toInside truth)
    have endLater := (Draft.behind_moves bodyGoing before.ring).blocks.trans later
    have insideLater := (lowered.grows (atTest.toInside truth) insideOpen).blocks.trans endLater
    have testGrows := (appended.grows testOpen).trans
      (Draft.toInside_moves testGoing before.ring truth).toGrows
    have testLater := testGrows.blocks.trans insideLater
    have tested_leaves : tested.Leaves _ (tested.toInside before.ring truth) :=
      atTest.leaves_finish _
    have ended_leaves : ended.Leaves _ (ended.behind before.ring) := atEnd.leaves_finish _
    refine ⟨before.toTest, _, _, ?_, ?_,
      ⟨⟨⟨_, atTest.toInside truth⟩, insideOpen, endLater, _, lowered, spelled⟩, fun _ => ?_⟩⟩
    · exact (shape.leaves_toTest.remains testLater).joins closed testStart testLater
    · rw [chunk]
      exact (tested_leaves.remains insideLater).decides closed shape.toTest testOpen appended
        insideStart insideLater atEnd.block?_behind later
    · exact (ended_leaves.remains later).joins closed testStart testLater

theorem cons {stmt : Stmt} {stmts : List Stmt}
    (stretch : Stretch isVerbose function code site env (.body (stmt :: stmts)) before env' after) :
    ∃ between env'', Stretch isVerbose function code site env (.stmt stmt) before env'' between ∧
      (stmt.isRet = false →
        Stretch isVerbose function code site.next env'' (.body stmts) between env'' after) := by
  obtain ⟨⟨waiting, shape⟩, going, later, log, lowered, spelled⟩ := stretch
  cases lowered with
  | dead isEnded => simp [isEnded] at going
  | @cons _ _ _ _ _ env'' between _ first others _ lowered followed =>
    obtain ⟨firstSpelled, othersSpelled⟩ := forall_mem_append.mp spelled
    have atEnd := lowered.shape shape
    have isEnded : between.isEnded = stmt.isRet := lowered.isEnded_eq shape going
    refine ⟨between, env'', ⟨⟨_, shape⟩, going, ?_, _, lowered, firstSpelled⟩, fun notRet =>
      ⟨⟨_, atEnd⟩, isEnded.trans notRet, later, _, followed, othersSpelled⟩⟩
    cases isRet : stmt.isRet with
    | true =>
      obtain ⟨rfl, _⟩ := followed.eq_of_isEnded (isEnded.trans isRet)
      exact later
    | false => exact (followed.grows atEnd (isEnded.trans isRet)).blocks.trans later

end Stretch

/-- A walk through the code of a part comes past the code of what a run of the part comes past. -/
theorem Runs.reaches (closed : function.Closed) (ran : Runs site part outcomes trace result)
    (stretch : Stretch isVerbose function code site env part before env' after)
    (onward : after.Follows function result events stop) :
    before.Reaches function outcomes (trace.flatMap code ++ events) stop := by
  induction ran generalizing env env' before after events stop with
  | plain isPlain => simpa using stretch.plain isPlain onward
  | ret =>
    obtain ⟨rfl, rfl⟩ := onward
    simpa using stretch.ret
  | branch _ ih =>
    obtain ⟨shape, going, later, log, lowered, spelled⟩ := stretch
    cases lowered with
    | plain isPlain => cases isPlain
    | branch lowered => exact ih ⟨shape, going, later, log, lowered, spelled⟩ onward
  | loopStarves =>
    obtain ⟨rfl, rfl⟩ := onward
    obtain ⟨_, _, _, enters, decides, _⟩ := stretch.loop closed
    simpa using (enters ..).mpr decides.starves
  | loopLeaves =>
    obtain ⟨_, _, _, enters, decides, _⟩ := stretch.loop closed
    simpa using (enters ..).mpr (decides.fails onward)
  | loopStops _ ih =>
    obtain ⟨_, _, _, enters, decides, arm⟩ := stretch.loop closed
    simpa using (enters ..).mpr (decides.holds (ih arm.toStretch onward))
  | loopRepeats ran _ ih againIh =>
    obtain ⟨_, _, _, enters, decides, arm⟩ := stretch.loop closed
    -- Behind the body the walk is at the condition, where it also is before the loop.
    have again := (enters ..).mp (againIh stretch onward)
    simpa using (enters ..).mpr (decides.holds (ih arm.toStretch (arm.follows ran again)))
  | nil | none =>
    obtain ⟨_, _, _, _, lowered, _⟩ := stretch
    cases lowered
    exact onward
  | consStops _ ih =>
    obtain ⟨_, _, first, _⟩ := stretch.cons
    exact ih first onward
  | cons ran _ ih othersIh =>
    obtain ⟨_, _, first, others⟩ := stretch.cons
    rw [flatMap_append, append_assoc]
    exact ih first (othersIh (others ran.isEnding_eq_false) onward)
  | elseIfStarves =>
    obtain ⟨rfl, rfl⟩ := onward
    obtain ⟨_, _, _, _, decides, _, _⟩ := stretch.elseIf closed
    simpa using decides.starves
  | elseIfHolds ran ih =>
    obtain ⟨_, _, _, _, decides, arm, _⟩ := stretch.elseIf closed
    simpa using decides.holds (ih arm.toStretch (arm.follows ran onward))
  | elseIfFails ran ih =>
    obtain ⟨_, _, _, _, decides, _, arm⟩ := stretch.elseIf closed
    simpa using decides.fails (ih arm.toStretch (arm.follows ran onward))
  | otherwise _ ih =>
    obtain ⟨shape, going, later, log, lowered, spelled⟩ := stretch
    cases lowered with
    | otherwise lowered => exact ih ⟨shape, going, later, log, lowered, spelled⟩ onward

end LeftHand
