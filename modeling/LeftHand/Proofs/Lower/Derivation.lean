import LeftHand.Proofs.Flow.Walk
import LeftHand.Proofs.Lower.Blocks

/-! Lowering as a derivation: one rule for each way in which a part of a program becomes code. -/

namespace LeftHand

variable {done : Unit} {stmts body : List Stmt} {pos bodyPos : Pos} {condition : Expr} {rest : Else}
  {env' : Env}

/-- The instructions of the block that is being written. -/
def Draft.code (draft : Draft) : List Ir.Instr :=
  (draft.block?.map (·.code)).getD []

/-- The instructions written into the block since an earlier draft of it. -/
def Draft.since (draft earlier : Draft) : List Ir.Event :=
  (draft.code.drop earlier.code.length).map .instr

/-- The code of the places of a part. -/
abbrev Log := List (Visit × List Ir.Event)

/-- Lowers a part, and gives the variables in scope after it. -/
def Part.lower (isVerbose : Bool) (env : Env) : Part → Emit Env
  | .stmt single => lowerStmt isVerbose env single
  | .body stmts => do
    lowerBody isVerbose env stmts
    return env
  | .rest last => do
    lowerElse isVerbose env last
    return env

/-- The rules of lowering. A part at a place, with the variables in scope, leads from one draft to
another, and to the variables in scope after it. -/
inductive Lowers (isVerbose : Bool) : Site → Env → Part → Draft → Env → Draft → Log → Prop where
  | plain {site env stmt before env' after} (isPlain : stmt.isPlain = true)
      (written : Gives (lowerStmt isVerbose env stmt) before env' after) :
      Lowers isVerbose site env (.stmt stmt) before env' after
        [(.stmt site stmt, after.since before)]
  | retVoid {site env pos before} (going : before.isEnded = false) :
      Lowers isVerbose site env (.stmt (.ret pos none)) before env (before.finish .retVoid)
        [(.stmt site (.ret pos none), [.ret none])]
  | retValue {site env pos value before operand written}
      (evaluated : Gives (lowerExpr isVerbose env value) before operand written)
      (going : written.isEnded = false) :
      Lowers isVerbose site env (.stmt (.ret pos (some value))) before env
        (written.finish (.ret operand))
        [(.stmt site (.ret pos (some value)), written.since before ++ [.ret (some operand)])]
  /-- A branch is lowered as an else-if is. -/
  | branch {site env pos condition bodyPos body rest before after log}
      (lowered : Lowers isVerbose site env (.rest (.elseIf pos condition bodyPos body rest)) before
        env after log) :
      Lowers isVerbose site env (.stmt (.branch pos condition bodyPos body rest)) before env after
        log
  | loop {site env pos condition bodyPos body before truth tested ended log}
      (going : before.isEnded = false)
      (evaluated : Gives (lowerCondition isVerbose env condition) before.toTest truth tested)
      (testGoing : tested.isEnded = false)
      (lowered : Lowers isVerbose site.body env (.body body) (tested.toInside before.ring truth) env
        ended log)
      (bodyGoing : ended.isEnded = false) :
      Lowers isVerbose site env (.stmt (.loop pos condition bodyPos body)) before env
        (ended.behind before.ring)
        ((.condition site condition, tested.since before.toTest ++ [.test truth]) :: log)
  | nil {site env before} : Lowers isVerbose site env (.body []) before env before []
  /-- Statements behind the end of the block are skipped. -/
  | dead {site env stmt stmts before} (isEnded : before.isEnded = true) :
      Lowers isVerbose site env (.body (stmt :: stmts)) before env before []
  | cons {site env stmt stmts before env' between after log more} (going : before.isEnded = false)
      (first : Lowers isVerbose site env (.stmt stmt) before env' between log)
      (others : Lowers isVerbose site.next env' (.body stmts) between env' after more) :
      Lowers isVerbose site env (.body (stmt :: stmts)) before env after (log ++ more)
  | none {site env before} : Lowers isVerbose site env (.rest .none) before env before []
  | ifThen {site env pos condition bodyPos body before truth tested ended log}
      (evaluated : Gives (lowerCondition isVerbose env condition) before truth tested)
      (going : tested.isEnded = false)
      (lowered : Lowers isVerbose site.body env (.body body) (tested.fork truth false) env ended
        log) :
      Lowers isVerbose site env (.rest (.elseIf pos condition bodyPos body .none)) before env
        ((ended.leave (tested.arms false).join).goTo (tested.arms false).join)
        ((.condition site condition, tested.since before ++ [.test truth]) :: log)
  | ifElse {site env pos condition bodyPos body rest before truth tested ended last log more}
      (follows : rest.isEmpty = false)
      (evaluated : Gives (lowerCondition isVerbose env condition) before truth tested)
      (going : tested.isEnded = false)
      (lowered : Lowers isVerbose site.body env (.body body) (tested.fork truth true) env ended log)
      (followed : Lowers isVerbose site.rest env (.rest rest)
        ((ended.leave (tested.arms true).join).goTo (tested.arms true).whenFalse) env last more) :
      Lowers isVerbose site env (.rest (.elseIf pos condition bodyPos body rest)) before env
        ((last.leave (tested.arms true).join).goTo (tested.arms true).join)
        ((.condition site condition, tested.since before ++ [.test truth]) :: (log ++ more))
  | otherwise {site env bodyPos body before after log}
      (lowered : Lowers isVerbose site.body env (.body body) before env after log) :
      Lowers isVerbose site env (.rest (.otherwise bodyPos body)) before env after log

variable {isVerbose : Bool} {env : Env} {before after : Draft}

theorem gives_lowerBody_ended (stmts : List Stmt) (isEnded : before.isEnded = true) :
    Gives (lowerBody isVerbose env stmts) before done after ↔ after = before := by
  induction stmts with
  | nil => simp [lowerBody]
  | cons stmt stmts ih =>
    simp only [lowerBody, gives_bind, gives_get]
    constructor
    · rintro ⟨_, _, ⟨rfl, rfl⟩, skipped⟩
      rw [if_pos isEnded] at skipped
      exact ih.mp skipped
    · rintro rfl
      exact ⟨_, _, ⟨rfl, rfl⟩, by rw [if_pos isEnded]; exact ih.mpr rfl⟩

theorem gives_lowerBody_cons {stmt : Stmt} (going : before.isEnded = false) :
    Gives (lowerBody isVerbose env (stmt :: stmts)) before done after ↔
      ∃ env' between, Gives (lowerStmt isVerbose env stmt) before env' between ∧
        Gives (lowerBody isVerbose env' stmts) between () after := by
  simp only [lowerBody, gives_bind, gives_get]
  constructor
  · rintro ⟨_, _, ⟨rfl, rfl⟩, lowered⟩
    rw [if_neg (by simp [going])] at lowered
    exact gives_bind.mp lowered
  · intro lowered
    exact ⟨_, _, ⟨rfl, rfl⟩, by rw [if_neg (by simp [going])]; exact gives_bind.mpr lowered⟩

/-- The condition comes first in a branch, and its else part decides which blocks it needs. -/
theorem gives_lowerElse_elseIf :
    Gives (lowerElse isVerbose env (.elseIf pos condition bodyPos body rest)) before done after ↔
      ∃ truth tested, Gives (lowerCondition isVerbose env condition) before truth tested ∧
        if rest.isEmpty then
          Gives (Emit.ifThen truth (lowerBody isVerbose env body)) tested () after
        else
          Gives (Emit.ifElse truth (lowerBody isVerbose env body) (lowerElse isVerbose env rest))
            tested () after := by
  simp only [lowerElse, gives_bind]
  cases rest.isEmpty <;> rfl

theorem gives_lowerStmt_branch :
    Gives (lowerStmt isVerbose env (.branch pos condition bodyPos body rest)) before env' after ↔
      env' = env ∧
        Gives (lowerElse isVerbose env (.elseIf pos condition bodyPos body rest)) before () after := by
  simp only [lowerStmt, gives_lowerElse_elseIf, gives_bind]
  constructor
  · rintro ⟨truth, tested, evaluated, lowered⟩
    cases empty : rest.isEmpty <;>
      simp only [empty, if_true, if_false, Bool.false_eq_true, gives_bind, gives_pure] at lowered ⊢
    all_goals
      obtain ⟨_, _, lowered, rfl, rfl⟩ := lowered
      exact ⟨rfl, truth, tested, evaluated, lowered⟩
  · rintro ⟨rfl, truth, tested, evaluated, lowered⟩
    refine ⟨truth, tested, evaluated, ?_⟩
    cases empty : rest.isEmpty <;>
      simp only [empty, if_true, if_false, Bool.false_eq_true, gives_bind, gives_pure] at lowered ⊢
    all_goals exact ⟨(), _, lowered, trivial, rfl⟩

theorem elseIf_lowers {site : Site}
    (bodyLowers : ∀ {before after : Draft}, Gives (lowerBody isVerbose env body) before () after →
      ∃ log, Lowers isVerbose site.body env (.body body) before env after log)
    (restLowers : ∀ {before after : Draft}, Gives (lowerElse isVerbose env rest) before () after →
      ∃ log, Lowers isVerbose site.rest env (.rest rest) before env after log)
    (lowered : Gives (lowerElse isVerbose env (.elseIf pos condition bodyPos body rest)) before ()
      after) :
    ∃ log, Lowers isVerbose site env (.rest (.elseIf pos condition bodyPos body rest)) before env
      after log := by
  rw [gives_lowerElse_elseIf] at lowered
  obtain ⟨truth, tested, evaluated, lowered⟩ := lowered
  cases empty : rest.isEmpty with
  | true =>
    rw [empty, if_pos rfl, gives_ifThen] at lowered
    obtain ⟨going, ended, bodyLowered, rfl⟩ := lowered
    obtain ⟨log, derived⟩ := bodyLowers bodyLowered
    cases rest with
    | none => exact ⟨_, .ifThen evaluated going derived⟩
    | elseIf => cases empty
    | otherwise => cases empty
  | false =>
    rw [empty, if_neg (by decide), gives_ifElse] at lowered
    obtain ⟨going, ended, bodyLowered, last, restLowered, rfl⟩ := lowered
    obtain ⟨log, derived⟩ := bodyLowers bodyLowered
    obtain ⟨more, restDerived⟩ := restLowers restLowered
    exact ⟨_, .ifElse empty evaluated going derived restDerived⟩

mutual

/-- Every successful lowering of a statement has a derivation. -/
theorem lowerStmt_lowers {env env' : Env} {before after : Draft} (site : Site) : (stmt : Stmt) →
    Gives (lowerStmt isVerbose env stmt) before env' after →
      ∃ log, Lowers isVerbose site env (.stmt stmt) before env' after log
  | .expr .., lowered | .noOp _, lowered | .declare .., lowered | .assign .., lowered =>
    ⟨_, .plain rfl lowered⟩
  | .ret pos none, lowered => by
    simp only [lowerStmt, gives_bind, gives_exit, gives_pure] at lowered
    obtain ⟨_, _, ⟨going, rfl⟩, rfl, rfl⟩ := lowered
    exact ⟨_, .retVoid going⟩
  | .ret pos (some value), lowered => by
    simp only [lowerStmt, gives_bind, gives_exit, gives_pure] at lowered
    obtain ⟨_, _, evaluated, _, _, ⟨going, rfl⟩, rfl, rfl⟩ := lowered
    exact ⟨_, .retValue evaluated going⟩
  | .branch pos condition bodyPos body rest, lowered => by
    rw [gives_lowerStmt_branch] at lowered
    obtain ⟨rfl, lowered⟩ := lowered
    obtain ⟨log, derived⟩ := elseIf_lowers (lowerBody_lowers site.body body)
      (lowerElse_lowers site.rest rest) lowered
    exact ⟨log, .branch derived⟩
  | .loop pos condition bodyPos body, lowered => by
    simp only [lowerStmt, gives_bind, gives_loop, gives_pure] at lowered
    obtain ⟨_, _, ⟨going, truth, tested, evaluated, testGoing, ended, bodyLowered, bodyGoing, rfl⟩,
      rfl, rfl⟩ := lowered
    obtain ⟨log, derived⟩ := lowerBody_lowers site.body body bodyLowered
    exact ⟨_, .loop going evaluated testGoing derived bodyGoing⟩
  | .unknown node, lowered => by
    simp only [lowerStmt, gives_report] at lowered

theorem lowerBody_lowers {env : Env} {before after : Draft} (site : Site) : (stmts : List Stmt) →
    Gives (lowerBody isVerbose env stmts) before () after →
      ∃ log, Lowers isVerbose site env (.body stmts) before env after log
  | [], lowered => by
    obtain ⟨_, rfl⟩ := gives_pure.mp lowered
    exact ⟨_, .nil⟩
  | stmt :: stmts, lowered => by
    cases isEnded : before.isEnded with
    | true =>
      obtain rfl := (gives_lowerBody_ended _ isEnded).mp lowered
      exact ⟨_, .dead isEnded⟩
    | false =>
      obtain ⟨env', between, first, others⟩ := (gives_lowerBody_cons isEnded).mp lowered
      obtain ⟨log, firstDerived⟩ := lowerStmt_lowers site stmt first
      obtain ⟨more, othersDerived⟩ := lowerBody_lowers site.next stmts others
      exact ⟨_, .cons isEnded firstDerived othersDerived⟩

theorem lowerElse_lowers {env : Env} {before after : Draft} (site : Site) : (rest : Else) →
    Gives (lowerElse isVerbose env rest) before () after →
      ∃ log, Lowers isVerbose site env (.rest rest) before env after log
  | .none, lowered => by
    obtain ⟨_, rfl⟩ := gives_pure.mp lowered
    exact ⟨_, .none⟩
  | .elseIf _ _ _ body rest, lowered =>
    elseIf_lowers (lowerBody_lowers site.body body) (lowerElse_lowers site.rest rest) lowered
  | .otherwise bodyPos body, lowered => by
    obtain ⟨log, derived⟩ := lowerBody_lowers site.body body lowered
    exact ⟨log, .otherwise derived⟩

end

theorem gives_then_pure {step : Emit Unit} :
    Gives (step >>= fun _ => pure env) before env' after ↔ env' = env ∧ Gives step before () after := by
  simp only [gives_bind, gives_pure]
  constructor
  · rintro ⟨_, _, lowered, rfl, rfl⟩
    exact ⟨rfl, lowered⟩
  · rintro ⟨rfl, lowered⟩
    exact ⟨(), _, lowered, rfl, rfl⟩

theorem gives_lower_body : Gives ((Part.body stmts).lower isVerbose env) before env' after ↔
    env' = env ∧ Gives (lowerBody isVerbose env stmts) before () after :=
  gives_then_pure

theorem gives_lower_rest : Gives ((Part.rest rest).lower isVerbose env) before env' after ↔
    env' = env ∧ Gives (lowerElse isVerbose env rest) before () after :=
  gives_then_pure

/-- Every derivation tells of a successful lowering. -/
theorem Lowers.gives {site : Site} {part : Part} {log : Log}
    (lowered : Lowers isVerbose site env part before env' after log) :
    Gives (part.lower isVerbose env) before env' after := by
  induction lowered with
  | plain _ written => exact written
  | retVoid going => simp [Part.lower, lowerStmt, going]
  | retValue evaluated going =>
    rw [Part.lower, lowerStmt]
    simp only [gives_bind, gives_exit, gives_pure]
    exact ⟨_, _, evaluated, (), _, ⟨going, rfl⟩, trivial, rfl⟩
  | branch _ ih => exact gives_lowerStmt_branch.mpr (gives_lower_rest.mp ih)
  | loop going evaluated testGoing _ bodyGoing ih =>
    rw [Part.lower, lowerStmt]
    simp only [gives_bind, gives_loop, gives_pure]
    exact ⟨(), _, ⟨going, _, _, evaluated, testGoing, _, (gives_lower_body.mp ih).2, bodyGoing, rfl⟩,
      trivial, rfl⟩
  | nil => simp [Part.lower, lowerBody]
  | dead isEnded => exact gives_lower_body.mpr ⟨rfl, (gives_lowerBody_ended _ isEnded).mpr rfl⟩
  | cons going _ _ first others =>
    have others := (gives_lower_body.mp others).2
    exact gives_lower_body.mpr ⟨rfl, (gives_lowerBody_cons going).mpr ⟨_, _, first, others⟩⟩
  | none => simp [Part.lower, lowerElse]
  | ifThen evaluated going _ ih =>
    refine gives_lower_rest.mpr ⟨rfl, gives_lowerElse_elseIf.mpr ⟨_, _, evaluated, ?_⟩⟩
    rw [Else.isEmpty, if_pos rfl]
    exact gives_ifThen.mpr ⟨going, _, (gives_lower_body.mp ih).2, rfl⟩
  | ifElse follows evaluated going _ _ ih restIh =>
    refine gives_lower_rest.mpr ⟨rfl, gives_lowerElse_elseIf.mpr ⟨_, _, evaluated, ?_⟩⟩
    rw [follows, if_neg (by decide)]
    exact gives_ifElse.mpr
      ⟨going, _, (gives_lower_body.mp ih).2, _, (gives_lower_rest.mp restIh).2, rfl⟩
  | otherwise _ ih =>
    refine gives_lower_rest.mpr ⟨rfl, ?_⟩
    exact (gives_lower_body.mp ih).2

end LeftHand
