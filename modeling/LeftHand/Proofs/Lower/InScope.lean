import LeftHand.Proofs.Lower.Structured

/-!
Variables in scope: a part of a program is written step by step, and wherever code of the part
begins, the memory of every variable in scope there has been taken before, on every path.
-/

namespace LeftHand

open Ir

variable {start : Chart}

/-- The places at which the code of a part, or of something inside it, begins, with the variables in
scope there. Expressions are evaluated from such places on. -/
inductive Begins (isVerbose : Bool) : Env → Part → Draft → Env → Draft → Prop where
  | here {env part before} : Begins isVerbose env part before env before
  | branch {env pos condition bodyPos body rest before scope point}
      (begins : Begins isVerbose env (.rest (.elseIf pos condition bodyPos body rest)) before scope
        point) :
      Begins isVerbose env (.stmt (.branch pos condition bodyPos body rest)) before scope point
  /-- The condition of a loop has a block of its own. -/
  | test {env pos condition bodyPos body before} :
      Begins isVerbose env (.stmt (.loop pos condition bodyPos body)) before env before.toTest
  | loop {env pos condition bodyPos body before truth tested scope point}
      (evaluated : Gives (lowerCondition isVerbose env condition) before.toTest truth tested)
      (begins : Begins isVerbose env (.body body) (tested.toInside before.ring truth) scope point) :
      Begins isVerbose env (.stmt (.loop pos condition bodyPos body)) before scope point
  | first {env stmt stmts before scope point}
      (begins : Begins isVerbose env (.stmt stmt) before scope point) :
      Begins isVerbose env (.body (stmt :: stmts)) before scope point
  | later {env stmt stmts before env' between scope point}
      (written : Gives (lowerStmt isVerbose env stmt) before env' between)
      (going : between.isEnded = false)
      (begins : Begins isVerbose env' (.body stmts) between scope point) :
      Begins isVerbose env (.body (stmt :: stmts)) before scope point
  | inside {env pos condition bodyPos body rest before truth tested scope point}
      (evaluated : Gives (lowerCondition isVerbose env condition) before truth tested)
      (begins : Begins isVerbose env (.body body) (tested.fork truth (!rest.isEmpty)) scope point) :
      Begins isVerbose env (.rest (.elseIf pos condition bodyPos body rest)) before scope point
  | other {env pos condition bodyPos body rest before truth tested ended scope point}
      (follows : rest.isEmpty = false)
      (evaluated : Gives (lowerCondition isVerbose env condition) before truth tested)
      (written : Gives (lowerBody isVerbose env body) (tested.fork truth true) () ended)
      (begins : Begins isVerbose env (.rest rest)
        ((ended.leave (tested.arms true).join).goTo (tested.arms true).whenFalse) scope point) :
      Begins isVerbose env (.rest (.elseIf pos condition bodyPos body rest)) before scope point
  | otherwise {env bodyPos body before scope point}
      (begins : Begins isVerbose env (.body body) before scope point) :
      Begins isVerbose env (.rest (.otherwise bodyPos body)) before scope point

/-- Any number of steps that write typed code. -/
abbrev TypedSteps (declares : String → Signature → Prop) : Chart → Chart → Prop :=
  Chart.Steps (Operation.Typed declares) Exit.Typed

/-- Steps from one draft to another that pass a place where the variables in scope have their
memory. What was in sight stays in sight, and the variables in scope at the end have their memory
too. -/
def Passage (declares : String → Signature → Prop) (start : Chart) (env' : Env) (after : Draft)
    (scope : Env) (point : Draft) : Prop :=
  ∃ here last, TypedSteps declares start ⟨point, here⟩ ∧ scope.Held ⟨point, here⟩ ∧
    TypedSteps declares ⟨point, here⟩ ⟨after, last⟩ ∧
    start.sight ⊆ Chart.sight ⟨after, last⟩ ∧ env'.Held ⟨after, last⟩

section Passage

variable {declares : String → Signature → Prop} {known : Known} {env env' scope : Env}
  {before after point : Draft}

/-- Wherever code of a part begins, the place is passed when the part is lowered. -/
def GoesPast (declares : String → Signature → Prop) (isVerbose : Bool) (env : Env) (part : Part)
    (before : Draft) (env' : Env) (after : Draft) : Prop :=
  ∀ ⦃known : Known⦄ ⦃scope : Env⦄ ⦃point : Draft⦄, before.Hosts declares known env →
    Begins isVerbose env part before scope point →
      Passage declares ⟨before, known⟩ env' after scope point

theorem Passage.of_steps {last : Known} (steps : TypedSteps declares start ⟨after, last⟩)
    (held : env.Held start) (sight : start.sight ⊆ Chart.sight ⟨after, last⟩)
    (heldLast : env'.Held ⟨after, last⟩) : Passage declares start env' after env start.draft :=
  ⟨start.known, last, .refl, held, steps, sight, heldLast⟩

theorem Passage.whole (passage : Passage declares start env' after scope point)
    (held : env.Held start) : Passage declares start env' after env start.draft := by
  obtain ⟨_, _, enter, _, leave, sight, heldLast⟩ := passage
  exact .of_steps (enter.trans leave) held sight heldLast

/-- A passage through something inside a part is a passage through the part, if steps lead in and
out again. -/
theorem Passage.wrap {middle : Chart} {between : Draft} {inner : Env} (held : env.Held start)
    (enter : TypedSteps declares start middle)
    (passage : Passage declares middle inner between scope point)
    (leave : ∀ last, TypedSteps declares middle ⟨between, last⟩ →
      middle.sight ⊆ Chart.sight ⟨between, last⟩ → inner.Held ⟨between, last⟩ →
      ∃ final, TypedSteps declares ⟨between, last⟩ ⟨after, final⟩ ∧
        start.sight ⊆ Chart.sight ⟨after, final⟩) :
    Passage declares start env after scope point := by
  obtain ⟨here, last, toPoint, heldThere, fromPoint, sight, heldLast⟩ := passage
  obtain ⟨final, toEnd, sightEnd⟩ := leave last (toPoint.trans fromPoint) sight heldLast
  -- The place is passed on the way, and no sight of it is lost.
  refine ⟨here, final, enter.trans toPoint, heldThere, fromPoint.trans toEnd, sightEnd, ?_⟩
  exact held.mono sightEnd (Chart.Steps.grows (enter.trans (toPoint.trans (fromPoint.trans toEnd))))

theorem Draft.Hosts.steps {later : Known} (hosts : before.Hosts declares known env)
    (steps : TypedSteps declares ⟨before, known⟩ ⟨after, later⟩)
    (sight : Chart.sight ⟨before, known⟩ ⊆ Chart.sight ⟨after, later⟩) (isOpen : after.IsOpen) :
    after.Hosts declares later env where
  isOpen := isOpen
  calls := steps.calls hosts.calls
  held := hosts.held.mono sight steps.grows

end Passage

section Derivation

variable {declares : String → Signature → Prop} {isVerbose : Bool} {site : Site}
  {env env' : Env} {part : Part} {before after : Draft} {log : Log}

theorem lowerCondition_straight {known : Known} {condition : Expr} {truth : Value}
    (hosts : before.Hosts declares known env)
    (evaluated : Gives (lowerCondition isVerbose env condition) before truth after) :
    Yields (Operation.Typed declares) Exit.Typed known before truth after ∧
      truth.type = .i1 := by
  obtain ⟨lowered, isTruth⟩ := gives_lowerCondition.mp evaluated
  exact ⟨lowerExpr_straight condition hosts lowered, isTruth⟩

section Branches

variable {known : Known} {condition : Expr} {truth : Value} {waiting : List BlockRef}
  {tested ended : Draft} {scope : Env} {point : Draft} {body : List Stmt}

theorem Draft.Hosts.cross {other join : BlockRef} {last : Known}
    (hosts : start.draft.Hosts declares start.known env)
    (steps : TypedSteps declares start ⟨ended, last⟩)
    (sight : start.sight ⊆ Chart.sight ⟨ended, last⟩)
    (shape : ended.Shape (other :: join :: waiting)) (awaits : start.Awaits other)
    (awaitsJoin : start.Awaits join) :
    TypedSteps declares ⟨ended, last⟩ ⟨(ended.leave join).goTo other, last⟩ ∧
      Chart.sight ⟨(ended.leave join).goTo other, last⟩ = start.sight ∧
      ((ended.leave join).goTo other).Hosts declares last env := by
  obtain ⟨leave, sightThere⟩ := steps.leave_goTo sight shape
    (List.mem_cons_of_mem _ List.mem_cons_self) awaits awaitsJoin
  have isOpen := (shape.leave_goTo join).isOpen (shape.block?_leave_goTo join)
  exact ⟨leave, sightThere,
    hosts.steps (steps.trans leave) (sightThere ▸ List.Subset.refl _) isOpen⟩

section Condition

variable (hosts : before.Hosts declares known env) (shape : before.Shape waiting)
  (evaluated : Gives (lowerCondition isVerbose env condition) before truth tested)
  (going : tested.isEnded = false)

include hosts shape evaluated going

/-- At the first body of a branch, all is known that was in sight before, and it is known as well at
the start of the blocks that wait. -/
theorem Draft.Hosts.fork (hasElse : Bool) :
    let forked : Chart := ⟨tested.fork truth hasElse, tested.widened known⟩
    TypedSteps declares ⟨before, known⟩ forked ∧
      Chart.sight ⟨before, known⟩ ⊆ forked.sight ∧
      forked.draft.Hosts declares forked.known env ∧
      forked.Awaits (tested.arms hasElse).whenFalse ∧ forked.Awaits (tested.arms hasElse).join := by
  -- The condition is written in front of the branch, so all that it knows is known inside.
  obtain ⟨yields, isTruth⟩ := lowerCondition_straight hosts evaluated
  have testedShape := shape.condition evaluated
  obtain ⟨steps, sight, whenFalse, join⟩ :=
    Chart.Steps.fork testedShape going yields.usable isTruth hasElse
  have steps := yields.straight.steps.trans steps
  have sight := sight ▸ yields.straight.sight_subset
  have inside : (tested.fork truth hasElse).current <
      (tested.fork truth hasElse).function.blocks.length := by
    cases hasElse with
    | false => exact (testedShape.fork_false truth).inside
    | true => exact (testedShape.fork_true truth).inside
  have isOpen : (tested.fork truth hasElse).IsOpen :=
    ⟨inside, testedShape.isEnded_fork truth hasElse⟩
  exact ⟨steps, sight, hosts.steps steps sight isOpen, whenFalse, join⟩

end Condition

/-- A loop, from its condition on. Behind the loop, no more is known than in front of it. -/
theorem Passage.loop (hosts : before.toTest.Hosts declares (before.widened known) env)
    (shape : before.Shape waiting)
    (awaitsTest : Chart.Awaits ⟨before.toTest, before.widened known⟩ before.ring.test)
    (awaitsInside : Chart.Awaits ⟨before.toTest, before.widened known⟩ before.ring.inside)
    (awaitsJoin : Chart.Awaits ⟨before.toTest, before.widened known⟩ before.ring.join)
    (evaluated : Gives (lowerCondition isVerbose env condition) before.toTest truth tested)
    (testGoing : tested.isEnded = false) (shapeEnded : ended.Shape (before.ring.join :: waiting))
    (bodyGoing : ended.isEnded = false)
    (inner : GoesPast declares isVerbose env (.body body) (tested.toInside before.ring truth) env ended)
    (begins : Begins isVerbose env (.body body) (tested.toInside before.ring truth) scope point) :
    Passage declares ⟨before.toTest, before.widened known⟩ env (ended.behind before.ring) scope
      point := by
  -- The condition, the body and the way back all keep in sight what was known in front.
  obtain ⟨yields, isTruth⟩ := lowerCondition_straight hosts evaluated
  have shapeTested := shape.toTest.condition evaluated
  obtain ⟨toInside, sightInside⟩ := yields.straight.steps.toInside yields.straight.sight_subset
    shapeTested testGoing yields.usable isTruth awaitsInside awaitsJoin
  -- From the condition the body is entered.
  have enter := yields.straight.steps.trans toInside
  have isOpen := (shapeTested.toInside truth).isOpen (shapeTested.block?_toInside truth)
  have hostsInside := hosts.steps enter (sightInside ▸ List.Subset.refl _) isOpen
  refine .wrap hosts.held enter (inner hostsInside begins) fun last steps sightEnded _ => ?_
  -- From the end of the body the way leads back to the condition, and on behind the loop.
  obtain ⟨leave, sightLast⟩ := Chart.Steps.behind (enter.trans steps) (sightInside ▸ sightEnded)
    shapeEnded bodyGoing shape.block?_toTest awaitsTest awaitsJoin
  exact ⟨last, leave, sightLast ▸ List.Subset.refl _⟩

end Branches

section Parts

variable {waiting : List BlockRef} {stmt : Stmt} {pos bodyPos : Pos} {condition : Expr}
  {body : List Stmt} {rest : Else} {truth : Value} {tested ended last : Draft}

theorem GoesPast.plain (isPlain : stmt.isPlain = true)
    (written : Gives (lowerStmt isVerbose env stmt) before env' after) :
    GoesPast declares isVerbose env (.stmt stmt) before env' after := by
  intro known scope point hosts begins
  obtain ⟨straight, hostsLast⟩ := plain_straight isPlain hosts written
  cases begins with
  | here => exact .of_steps straight.steps hosts.held straight.sight_subset hostsLast.held
  | branch | test | loop => cases isPlain

/-- A return: straight code for its value, and the end of the block. -/
theorem GoesPast.ret {value : Option Expr} {exit : Exit} (going : last.isEnded = false)
    (typed : exit.Typed) (leaves : exit.targets = [])
    (written : ∀ known, before.Hosts declares known env →
      Straight (Operation.Typed declares) Exit.Typed known before last ∧
        ∀ operand ∈ exit.operands, operand.UsableIn (Chart.sight ⟨last, known⟩)) :
    GoesPast declares isVerbose env (.stmt (.ret pos value)) before env (last.finish exit) := by
  intro known scope point hosts begins
  obtain ⟨straight, usable⟩ := written known hosts
  have steps := straight.steps.tail (.finish going usable (by simp [leaves]) typed)
  have sight := List.Subset.trans straight.sight_subset (Chart.sight_finish last known exit)
  cases begins with
  | here =>
    exact .of_steps steps hosts.held sight (hosts.held.mono sight (Chart.Steps.grows steps))

theorem GoesPast.cons {stmts : List Stmt} {between : Draft} (shape : between.Shape waiting)
    (written : Gives (lowerStmt isVerbose env stmt) before env' between)
    (dead : between.isEnded = true → after = between)
    (first : GoesPast declares isVerbose env (.stmt stmt) before env' between)
    (others : GoesPast declares isVerbose env' (.body stmts) between env' after) :
    GoesPast declares isVerbose env (.body (stmt :: stmts)) before env after := by
  intro known scope point hosts begins
  -- Behind the first statement its own variables are in scope too.
  have hostsBetween {last : Known} (isEnded : between.isEnded = false)
      (steps : TypedSteps declares ⟨before, known⟩ ⟨between, last⟩)
      (held : env'.Held ⟨between, last⟩) : between.Hosts declares last env' :=
    ⟨⟨shape.inside, isEnded⟩, steps.calls hosts.calls, held⟩
  -- From behind the first statement the others can always be written to their end.
  have onward (last : Known) (steps : TypedSteps declares ⟨before, known⟩ ⟨between, last⟩)
      (sight : Chart.sight ⟨before, known⟩ ⊆ Chart.sight ⟨between, last⟩)
      (held : env'.Held ⟨between, last⟩) :
      ∃ final, TypedSteps declares ⟨between, last⟩ ⟨after, final⟩ ∧
        Chart.sight ⟨before, known⟩ ⊆ Chart.sight ⟨after, final⟩ := by
    cases isEnded : between.isEnded with
    | true =>
      -- Behind a return nothing is written.
      obtain rfl := dead isEnded
      exact ⟨last, .refl, sight⟩
    | false =>
      obtain ⟨_, final, enter, _, leave, sightLast, _⟩ :=
        others (hostsBetween isEnded steps held) .here
      exact ⟨final, enter.trans leave, List.Subset.trans sight sightLast⟩
  cases begins with
  | here => exact (Passage.wrap hosts.held .refl (first hosts .here) onward).whole hosts.held
  | first begins => exact .wrap hosts.held .refl (first hosts begins) onward
  | later again isEnded begins =>
    -- Lowering is a function, so the place begins where the first statement has led.
    obtain ⟨rfl, rfl⟩ := again.unique written
    obtain ⟨_, last, enter, _, leave, sight, held⟩ := first hosts .here
    have inner := others (hostsBetween isEnded (enter.trans leave) held) begins
    exact .wrap hosts.held (enter.trans leave) inner fun final _ sightLast _ =>
      ⟨final, .refl, List.Subset.trans sight sightLast⟩

theorem GoesPast.loop (shape : before.Shape waiting) (going : before.isEnded = false)
    (evaluated : Gives (lowerCondition isVerbose env condition) before.toTest truth tested)
    (testGoing : tested.isEnded = false) (shapeEnded : ended.Shape (before.ring.join :: waiting))
    (bodyGoing : ended.isEnded = false)
    (inner : GoesPast declares isVerbose env (.body body) (tested.toInside before.ring truth) env ended) :
    GoesPast declares isVerbose env (.stmt (.loop pos condition bodyPos body)) before env
      (ended.behind before.ring) := by
  intro known scope point hosts begins
  obtain ⟨toTest, sight, awaitsTest, awaitsInside, awaitsJoin⟩ : TypedSteps declares _ _ ∧ _ :=
    Chart.Steps.toTest shape going
  have hostsTest := hosts.steps toTest (sight ▸ List.Subset.refl _)
    (shape.toTest.isOpen shape.block?_toTest)
  have fromTest {scope : Env} {point : Draft} :=
    @Passage.loop declares isVerbose env before known condition truth waiting tested ended scope point
      body hostsTest shape awaitsTest awaitsInside awaitsJoin evaluated testGoing shapeEnded bodyGoing
      inner
  -- Only the way to the condition comes before.
  have fromStart {scope : Env} {point : Draft}
      (passage : Passage declares ⟨before.toTest, before.widened known⟩ env
        (ended.behind before.ring) scope point) :
      Passage declares ⟨before, known⟩ env (ended.behind before.ring) scope point :=
    .wrap hosts.held toTest passage fun last _ sightLast _ => ⟨last, .refl, sight ▸ sightLast⟩
  cases begins with
  | here => exact (fromStart (fromTest .here)).whole hosts.held
  | test => exact fromStart ((fromTest .here).whole hostsTest.held)
  | loop again begins =>
    obtain ⟨rfl, rfl⟩ := again.unique evaluated
    exact fromStart (fromTest begins)

section Condition

variable (shape : before.Shape waiting)
  (evaluated : Gives (lowerCondition isVerbose env condition) before truth tested)
  (going : tested.isEnded = false)

include shape evaluated going

theorem GoesPast.ifThen (shapeEnded : ended.Shape ((tested.arms false).join :: waiting))
    (inner : GoesPast declares isVerbose env (.body body) (tested.fork truth false) env ended) :
    GoesPast declares isVerbose env (.rest (.elseIf pos condition bodyPos body .none)) before env
      ((ended.leave (tested.arms false).join).goTo (tested.arms false).join) := by
  intro known scope point hosts begins
  obtain ⟨enter, sight, hostsInside, _, awaits⟩ := hosts.fork shape evaluated going false
  have inside {scope : Env} {point : Draft}
      (begins : Begins isVerbose env (.body body) (tested.fork truth false) scope point) :
      Passage declares ⟨before, known⟩ env
        ((ended.leave (tested.arms false).join).goTo (tested.arms false).join) scope point := by
    refine .wrap hosts.held enter (inner hostsInside begins) fun last steps sightEnded _ => ?_
    -- Both the body and the condition lead to the block behind, which has been waiting.
    obtain ⟨leave, sightLast⟩ :=
      steps.leave_goTo sightEnded shapeEnded List.mem_cons_self awaits awaits
    exact ⟨last, leave, sightLast ▸ sight⟩
  cases begins with
  | here => exact (inside .here).whole hosts.held
  | inside again begins =>
    obtain ⟨rfl, rfl⟩ := again.unique evaluated
    exact inside begins
  | other follows => cases follows

theorem GoesPast.ifElse (follows : rest.isEmpty = false)
    (written : Gives (lowerBody isVerbose env body) (tested.fork truth true) () ended)
    (shapeEnded : ended.Shape ((tested.arms true).whenFalse :: (tested.arms true).join :: waiting))
    (shapeLast : last.Shape ((tested.arms true).join :: waiting))
    (inner : GoesPast declares isVerbose env (.body body) (tested.fork truth true) env ended)
    (outer : GoesPast declares isVerbose env (.rest rest)
      ((ended.leave (tested.arms true).join).goTo (tested.arms true).whenFalse) env last) :
    GoesPast declares isVerbose env (.rest (.elseIf pos condition bodyPos body rest)) before env
      ((last.leave (tested.arms true).join).goTo (tested.arms true).join) := by
  intro known scope point hosts begins
  obtain ⟨enter, sight, hostsInside, whenFalse, join⟩ := hosts.fork shape evaluated going true
  -- Behind a place in the first body, the rest of it, the else part and the join are still to be written.
  have inside {scope : Env} {point : Draft}
      (begins : Begins isVerbose env (.body body) (tested.fork truth true) scope point) :
      Passage declares ⟨before, known⟩ env
        ((last.leave (tested.arms true).join).goTo (tested.arms true).join) scope point := by
    refine .wrap hosts.held enter (inner hostsInside begins) fun middle steps sightEnded _ => ?_
    obtain ⟨cross, sightOther, hostsOther⟩ :=
      hostsInside.cross steps sightEnded shapeEnded whenFalse join
    obtain ⟨_, final, toPlace, _, fromPlace, sightRest, _⟩ := outer hostsOther .here
    have onward := cross.trans (toPlace.trans fromPlace)
    obtain ⟨leave, sightLast⟩ := Chart.Steps.leave_goTo (steps.trans onward)
      (sightOther ▸ sightRest) shapeLast List.mem_cons_self join join
    exact ⟨final, onward.trans leave, sightLast ▸ sight⟩
  cases begins with
  | here => exact (inside .here).whole hosts.held
  | inside again begins =>
    obtain ⟨rfl, rfl⟩ := again.unique evaluated
    rw [follows] at begins
    exact inside begins
  | other _ again alsoWritten begins =>
    -- The first body is written on the way to the place, the join behind it.
    obtain ⟨rfl, rfl⟩ := again.unique evaluated
    obtain ⟨_, rfl⟩ := alsoWritten.unique written
    obtain ⟨_, middle, toPlace, _, fromPlace, sightEnded, _⟩ := inner hostsInside .here
    have steps := toPlace.trans fromPlace
    obtain ⟨cross, sightOther, hostsOther⟩ :=
      hostsInside.cross steps sightEnded shapeEnded whenFalse join
    refine .wrap hosts.held ((enter.trans steps).trans cross) (outer hostsOther begins)
      fun final onward sightRest _ => ?_
    obtain ⟨leave, sightLast⟩ := Chart.Steps.leave_goTo ((steps.trans cross).trans onward)
      (sightOther ▸ sightRest) shapeLast List.mem_cons_self join join
    exact ⟨final, leave, sightLast ▸ sight⟩

end Condition

end Parts

/-- Whatever is lowered is written step by step, past all the places where code of it begins. -/
theorem Lowers.goesPast (lowered : Lowers isVerbose site env part before env' after log)
    {waiting : List BlockRef} (shape : before.Shape waiting) :
    GoesPast declares isVerbose env part before env' after := by
  -- Along the derivation; the place is in one of the parts, and the others are written around it.
  induction lowered generalizing waiting with
  | plain isPlain written => exact .plain isPlain written
  | retVoid going =>
    exact .ret going trivial rfl fun _ _ => ⟨.refl _, by simp [Exit.operands]⟩
  | retValue evaluated going =>
    refine .ret going trivial rfl fun known hosts => ?_
    have yields : Yields _ Exit.Typed known _ _ _ := lowerExpr_straight _ hosts evaluated
    exact ⟨yields.straight, by simpa [Exit.operands] using yields.usable⟩
  | branch _ ih =>
    intro known scope point hosts begins
    cases begins with
    | here => exact ih shape hosts .here
    | branch begins => exact ih shape hosts begins
  | otherwise _ ih =>
    intro known scope point hosts begins
    cases begins with
    | here => exact ih shape hosts .here
    | otherwise begins => exact ih shape hosts begins
  | nil | none =>
    intro known scope point hosts begins
    cases begins with
    | here => exact .of_steps .refl hosts.held (List.Subset.refl _) hosts.held
  | dead isEnded =>
    intro known scope point hosts
    rw [hosts.isOpen.going] at isEnded
    cases isEnded
  | cons _ first others firstIh othersIh =>
    have shapeBetween := first.shape shape
    exact .cons shapeBetween first.gives (fun isEnded => (others.eq_of_isEnded isEnded).1)
      (firstIh shape) (othersIh shapeBetween)
  | @loop _ _ _ _ _ _ _ truth _ _ _ going evaluated testGoing lowered bodyGoing ih =>
    have shapeInside := (shape.toTest.condition evaluated).toInside truth
    exact .loop shape going evaluated testGoing (lowered.shape shapeInside) bodyGoing (ih shapeInside)
  | @ifThen _ _ _ _ _ _ _ truth _ _ _ evaluated going lowered ih =>
    have shapeInside := (shape.condition evaluated).fork_false truth
    exact .ifThen shape evaluated going (lowered.shape shapeInside) (ih shapeInside)
  | @ifElse _ _ _ _ _ _ _ _ truth tested _ _ _ _ follows evaluated going lowered followed ih restIh =>
    have shapeInside := (shape.condition evaluated).fork_true truth
    have shapeEnded := lowered.shape shapeInside
    have shapeOther := shapeEnded.leave_goTo (tested.arms true).join
    exact .ifElse shape evaluated going follows (gives_lower_body.mp lowered.gives).2 shapeEnded
      (followed.shape shapeOther) (ih shapeInside) (restIh shapeOther)

end Derivation

end LeftHand
