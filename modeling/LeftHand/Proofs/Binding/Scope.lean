import LeftHand.Proofs.Binding.Source
import LeftHand.Proofs.Flow.Reach

/-! The variables in scope where code is written. -/

namespace LeftHand

open Ir List

variable {outer : Site} {code : List Event} {position later : Nat}

/-- Memory that the code of a declaration takes, for a name and with a type. -/
inductive Log.Takes (log : Log) : Site → String → Ty → Value → Prop where
  | intro {site pos type ident lowered register}
      (taken : (.stmt site (.declare pos type ident), [.instr ⟨register, .alloca lowered⟩]) ∈ log)
      (typed : lowerType false type = .ok lowered) :
      log.Takes site ident.text type (.register register (.pointer lowered))

/-- Memory that is taken by a declaration in scope at a place. -/
def Log.Offers (log : Log) (place : Site) (name : String) (address : Value) : Prop :=
  ∃ site type, log.Takes site name type address ∧ site.Precedes place

/-- Code that is written at a place while some variables are in scope. -/
inductive Written (isVerbose : Bool) (scope : Env) : Visit → List Event → Prop where
  | plain {site stmt before scope' after waiting} (shape : before.Shape waiting)
      (going : before.isEnded = false) (isPlain : stmt.isPlain = true)
      (written : Gives (lowerStmt isVerbose scope stmt) before scope' after) :
      Written isVerbose scope (.stmt site stmt) (after.since before)
  | retVoid {site pos} : Written isVerbose scope (.stmt site (.ret pos none)) [.ret none]
  | retValue {site pos value before operand after waiting} (shape : before.Shape waiting)
      (going : before.isEnded = false)
      (evaluated : Gives (lowerExpr isVerbose scope value) before operand after) :
      Written isVerbose scope (.stmt site (.ret pos (some value)))
        (after.since before ++ [.ret (some operand)])
  | condition {site condition before truth tested waiting} (shape : before.Shape waiting)
      (going : before.isEnded = false)
      (evaluated : Gives (lowerCondition isVerbose scope condition) before truth tested) :
      Written isVerbose scope (.condition site condition) (tested.since before ++ [.test truth])

/-- A place of a part whose scope is what the part began with and what it declares before the
place. -/
def Scoped (isVerbose : Bool) (env : Env) (log : Log) (visit : Visit) (code : List Event) : Prop :=
  ∃ place scope, visit.site? = some place ∧ Written isVerbose scope visit code ∧
    ∀ name address, (name, address) ∈ scope ↔ (name, address) ∈ env ∨ log.Offers place name address

section Written

variable {isVerbose : Bool} {scope : Env} {visit : Visit} {code : List Event}

theorem Written.coded {resolves : Resolution} (written : Written isVerbose scope visit code)
    (agrees : scope.AgreesWith resolves) : visit.Coded resolves code := by
  cases written with
  | plain shape going isPlain written =>
    obtain ⟨code, appended, coded⟩ := plain_coded agrees isPlain written
    rw [(Draft.since_eq shape going appended).2]
    exact .plain coded
  | retVoid => exact .retVoid
  | retValue shape going evaluated =>
    obtain ⟨code, appended, coded⟩ := lowerExpr_coded agrees _ evaluated
    rw [(Draft.since_eq shape going appended).2]
    exact .ret coded
  | condition shape going evaluated =>
    obtain ⟨code, appended, coded⟩ := lowerExpr_coded agrees _ (gives_lowerCondition.mp evaluated).1
    rw [(Draft.since_eq shape going appended).2]
    exact .condition coded

theorem Written.notMem {site : Site} {pos : Pos} {type : Ty} {ident : Ident}
    (written : Written isVerbose scope (.stmt site (.declare pos type ident)) code)
    (address : Value) : (ident.text, address) ∉ scope := by
  obtain ⟨_, _, _, written⟩ := written
  obtain ⟨_, absent, _⟩ := gives_declare.mp written
  intro member
  simpa using lookup_eq_none_iff.mp absent _ member

end Written

section Takes

variable {log more : Log} {site place : Site} {name : String} {type : Ty} {address : Value}

theorem Log.takes_append :
    Log.Takes (log ++ more) site name type address ↔
      log.Takes site name type address ∨ more.Takes site name type address := by
  constructor
  · rintro ⟨taken, typed⟩
    rcases mem_append.mp taken with early | late
    · exact .inl ⟨early, typed⟩
    · exact .inr ⟨late, typed⟩
  · rintro (⟨taken, typed⟩ | ⟨taken, typed⟩)
    · exact ⟨mem_append_left _ taken, typed⟩
    · exact ⟨mem_append_right _ taken, typed⟩

theorem Log.takes_condition {here : Site} {condition : Expr} :
    Log.Takes ((.condition here condition, code) :: log) site name type address ↔
      log.Takes site name type address := by
  constructor
  · rintro ⟨taken, typed⟩
    rcases mem_cons.mp taken with same | inside
    · cases same
    · exact ⟨inside, typed⟩
  · rintro ⟨taken, typed⟩
    exact ⟨mem_cons_of_mem _ taken, typed⟩

theorem Log.offers_append :
    Log.Offers (log ++ more) place name address ↔
      log.Offers place name address ∨ more.Offers place name address := by
  simp only [Log.Offers, Log.takes_append, or_and_right, exists_or]

theorem Log.offers_condition {here : Site} {condition : Expr} :
    Log.Offers ((.condition here condition, code) :: log) place name address ↔
      log.Offers place name address := by
  simp only [Log.Offers, Log.takes_condition]

theorem Log.Takes.exists_entry (takes : log.Takes site name type address) :
    ∃ pos ident lowered register,
      (.stmt site (.declare pos type ident), [.instr ⟨register, .alloca lowered⟩]) ∈ log ∧
        ident.text = name ∧ address = .register register (.pointer lowered) := by
  obtain ⟨taken, _⟩ := takes
  exact ⟨_, _, _, _, taken, rfl, rfl⟩

end Takes

section Places

variable {isVerbose : Bool} {site place inner : Site} {env env' : Env} {part : Part}
  {before after : Draft} {log more : Log} {name : String} {type : Ty} {address : Value}
  {stmt : Stmt}

theorem Lowers.holds_place (lowered : Lowers isVerbose site env part before env' after log)
    (nested : site ≠ []) {entry : Visit × List Event} (member : entry ∈ log)
    (isPlace : entry.1.site? = some place) : part.Holds site place := by
  obtain ⟨_, same, held⟩ := lowered.holds nested (mem_map_of_mem member)
  cases isPlace.symm.trans same
  exact held

theorem Lowers.holds_takes (lowered : Lowers isVerbose site env part before env' after log)
    (nested : site ≠ []) (takes : log.Takes inner name type address) : part.Holds site inner := by
  obtain ⟨_, _, _, _, taken, _⟩ := takes.exists_entry
  exact lowered.holds_place nested taken rfl

/-- What a body declares is not in scope at the condition in front of it. -/
theorem Lowers.not_offers_condition {stmts : List Stmt}
    (lowered : Lowers isVerbose site.body env (.body stmts) before env' after log) :
    ¬ log.Offers site name address := by
  rintro ⟨_, _, takes, precedes⟩
  have held := lowered.holds_takes (cons_ne_nil _ _) takes
  exact Site.not_precedes_of_deeper held.of_body precedes

theorem Lowers.takes_deeper {rest : Else}
    (lowered : Lowers isVerbose site env (.rest rest) before env' after log)
    (takes : log.Takes inner name type address) : ∃ marker, marker :: site <:+ inner := by
  -- Places in a body are marked 0, and those in the else part behind it 1.
  cases lowered with
  | none => cases takes with | intro taken => cases taken
  | ifThen _ _ lowered =>
    have held := lowered.holds_takes (cons_ne_nil _ _) (Log.takes_condition.mp takes)
    exact ⟨0, held.of_body⟩
  | ifElse _ _ _ lowered followed =>
    rcases Log.takes_append.mp (Log.takes_condition.mp takes) with inside | later
    · exact ⟨0, (lowered.holds_takes (cons_ne_nil _ _) inside).of_body⟩
    · exact ⟨1, followed.holds_takes (cons_ne_nil _ _) later⟩
  | otherwise lowered =>
    exact ⟨0, (lowered.holds_takes (cons_ne_nil _ _) takes).of_body⟩

/-- What is declared inside a statement is not in scope at the places behind it. -/
theorem Log.not_offers_of_deeper
    (deeper : ∀ inner name type address, log.Takes inner name type address →
      ∃ marker, marker :: position :: outer <:+ inner) (here : later :: outer <:+ place)
    (behind : position < later) :
    ¬ log.Offers place name address := by
  rintro ⟨inner, type, takes, precedes⟩
  obtain ⟨marker, inside⟩ := deeper inner name type address takes
  exact Site.not_precedes_of_inside here inside (by omega) precedes

theorem Log.not_offers_single (other : ∀ pos type ident, stmt ≠ .declare pos type ident) :
    ¬ Log.Offers [(.stmt site stmt, code)] place name address := by
  rintro ⟨_, _, ⟨taken, _⟩, _⟩
  cases mem_singleton.mp taken
  exact other _ _ _ rfl

theorem Log.offers_declare {pos : Pos} {ident : Ident} {lowered : Ir.Ty} {register : String}
    (typed : lowerType false type = .ok lowered) (here : later :: outer <:+ place)
    (behind : position < later) :
    Log.Offers [(.stmt (position :: outer) (.declare pos type ident),
        [.instr ⟨register, .alloca lowered⟩])] place name address ↔
      name = ident.text ∧ address = .register register (.pointer lowered) := by
  constructor
  · rintro ⟨_, _, ⟨taken, _⟩, _⟩
    cases mem_singleton.mp taken
    exact ⟨rfl, rfl⟩
  · rintro ⟨rfl, rfl⟩
    exact ⟨_, type, ⟨mem_singleton_self _, typed⟩, position, later, outer, rfl, here, behind⟩

theorem Lowers.env_eq (lowered : Lowers isVerbose site env (.stmt stmt) before env' after log)
    (other : ∀ pos type ident, stmt ≠ .declare pos type ident) : env' = env := by
  cases lowered with
  | plain isPlain written =>
    cases stmt with
    | declare pos type ident => exact absurd rfl (other pos type ident)
    | expr pos value =>
      simp only [lowerStmt, gives_bind, gives_pure] at written
      obtain ⟨_, _, _, rfl, _⟩ := written
      rfl
    | noOp pos =>
      simp only [lowerStmt, gives_pure] at written
      exact written.1
    | assign pos target value => exact (gives_assign.mp written).1
    | ret | branch | loop | unknown => cases isPlain
  | retVoid | retValue | branch | loop => rfl

/-- Behind a statement, all is in scope that was in scope before, and what the statement
declares. -/
theorem Lowers.mem_env_iff {waiting : List BlockRef}
    (lowered : Lowers isVerbose (position :: outer) env (.stmt stmt) before env' after log)
    (shape : before.Shape waiting)
    (going : before.isEnded = false) (here : later :: outer <:+ place) (behind : position < later) :
    (name, address) ∈ env' ↔ (name, address) ∈ env ∨ log.Offers place name address := by
  by_cases isDeclare : ∃ pos type ident, stmt = .declare pos type ident
  · -- The name of a declaration is put in front, with the memory that its code takes.
    obtain ⟨pos, type, ident, rfl⟩ := isDeclare
    obtain ⟨_, written⟩ := lowered
    obtain ⟨lowered, _, typed, _, rfl, rfl⟩ := gives_declare.mp written
    rw [(Draft.since_eq shape going (.write ..)).2, map_singleton,
      Log.offers_declare typed here behind, mem_cons, Prod.mk.injEq, or_comm]
  · have other : ∀ pos type ident, stmt ≠ .declare pos type ident := by simpa using isDeclare
    have nothing : ¬ log.Offers place name address := by
      cases lowered with
      | plain | retVoid | retValue => exact Log.not_offers_single other
      -- What a branch or a loop declares is inside it, so it is not in scope behind it.
      | branch lowered =>
        exact Log.not_offers_of_deeper (fun _ _ _ _ => lowered.takes_deeper) here behind
      | loop _ _ _ lowered =>
        rw [Log.offers_condition]
        exact Log.not_offers_of_deeper (fun _ _ _ _ takes =>
          ⟨0, (lowered.holds_takes (cons_ne_nil _ _) takes).of_body⟩) here behind
    rw [lowered.env_eq other, or_iff_left nothing]

end Places

section Scoped

variable {isVerbose : Bool} {site : Site} {env env' : Env} {part : Part} {before after : Draft}
  {log more : Log} {visit : Visit} {code : List Event}

/-- More code around a part makes no difference if what it declares is not in scope in the part. -/
theorem Scoped.widen (inScope : Scoped isVerbose env log visit code)
    (same : ∀ place, visit.site? = some place → ∀ name address,
      more.Offers place name address ↔ log.Offers place name address) :
    Scoped isVerbose env more visit code := by
  obtain ⟨place, scope, isPlace, written, members⟩ := inScope
  refine ⟨place, scope, isPlace, written, fun name address => ?_⟩
  rw [members, same place isPlace]

theorem Scoped.here (isPlace : visit.site? = some site) (written : Written isVerbose env visit code)
    (nothing : ∀ name address, ¬ log.Offers site name address) :
    Scoped isVerbose env log visit code :=
  ⟨site, env, isPlace, written, fun name address => (or_iff_left (nothing name address)).symm⟩

theorem Scoped.behind_condition {condition : Expr} {test : List Event}
    (inScope : Scoped isVerbose env log visit code) :
    Scoped isVerbose env ((.condition site condition, test) :: log) visit code :=
  inScope.widen fun _ _ _ _ => Log.offers_condition

theorem Scoped.condition {condition : Expr} {test : List Event}
    (written : Written isVerbose env (.condition site condition) test)
    (nothing : ∀ name address, ¬ log.Offers site name address) :
    Scoped isVerbose env ((.condition site condition, test) :: log) (.condition site condition) test :=
  .behind_condition (.here rfl written nothing)

theorem Scoped.single {stmt : Stmt} (written : Written isVerbose env (.stmt site stmt) code) :
    Scoped isVerbose env [(.stmt site stmt, code)] (.stmt site stmt) code := by
  refine .here rfl written fun name address => ?_
  rintro ⟨_, _, ⟨taken, _⟩, precedes⟩
  cases mem_singleton.mp taken
  exact Site.not_precedes_self precedes

/-- What a later part declares is not in scope in an earlier one, and the other way around. So in
either of two bodies that exclude each other, scopes are as in that body alone. -/
theorem Lowers.offers_apart {body : List Stmt} {rest : Else} {start ended last : Draft}
    (lowered : Lowers isVerbose site.body env (.body body) before env ended log)
    (followed : Lowers isVerbose site.rest env (.rest rest) start env last more) (name : String)
    (address : Value) :
    (∀ entry ∈ log, ∀ place, entry.1.site? = some place → ¬ more.Offers place name address) ∧
      ∀ entry ∈ more, ∀ place, entry.1.site? = some place → ¬ log.Offers place name address := by
  constructor
  · rintro entry member place isPlace ⟨inner, type, takes, precedes⟩
    have held := lowered.holds_place (cons_ne_nil _ _) member isPlace
    have behind : 1 :: site <:+ inner := followed.holds_takes (cons_ne_nil _ _) takes
    exact Site.not_precedes_of_later held.of_body behind (by decide) precedes
  · rintro entry member place isPlace ⟨inner, type, takes, precedes⟩
    have held := followed.holds_place (cons_ne_nil _ _) member isPlace
    obtain ⟨_, _, inside⟩ := lowered.holds_takes (cons_ne_nil _ _) takes
    exact Site.not_precedes_of_inside held inside (by decide) precedes

/-- Wherever code of a part is written, the scope is what the part began with and what it declares
before that place. -/
theorem Lowers.inScope (lowered : Lowers isVerbose site env part before env' after log)
    {waiting : List BlockRef} (shape : before.Shape waiting) (going : before.isEnded = false)
    (nested : site ≠ []) : ∀ entry ∈ log, Scoped isVerbose env log entry.1 entry.2 := by
  induction lowered generalizing waiting with
  | plain isPlain written =>
    exact forall_mem_singleton.mpr (.single (.plain shape going isPlain written))
  | retVoid => exact forall_mem_singleton.mpr (.single .retVoid)
  | retValue evaluated => exact forall_mem_singleton.mpr (.single (.retValue shape going evaluated))
  | branch _ ih => exact ih shape going nested
  | loop _ evaluated _ lowered _ ih =>
    have atTest := shape.toTest.condition evaluated
    intro entry member
    rcases mem_cons.mp member with rfl | inside
    · have testGoing := Draft.isEnded_eq_false shape.block?_toTest
      exact .condition (.condition shape.toTest testGoing evaluated)
        fun _ _ => lowered.not_offers_condition
    · exact (ih (atTest.toInside _) (atTest.isEnded_toInside _) (cons_ne_nil _ _) entry
        inside).behind_condition
  | nil | dead | none => exact forall_mem_nil _
  | @cons site _ _ _ _ _ between _ log more _ first others firstIh othersIh =>
    obtain ⟨position, outer, rfl⟩ := exists_cons_of_ne_nil nested
    intro entry member
    rcases mem_append.mp member with inside | later
    · -- Nothing that later statements declare is in scope in the first one.
      refine (firstIh shape going nested entry inside).widen fun place isPlace name address => ?_
      rw [Log.offers_append, or_iff_left]
      rintro ⟨inner, type, takes, precedes⟩
      have held := first.holds_place nested inside isPlace
      obtain ⟨_, after, behind⟩ := others.holds_takes (cons_ne_nil _ _) takes
      exact Site.not_precedes_of_later held behind after precedes
    · -- Later statements begin with what the first one has left in scope, unless it ends the block.
      have goesOn : between.isEnded = false := by
        by_contra isEnded
        obtain ⟨_, rfl⟩ := others.eq_of_isEnded (by simpa using isEnded)
        cases later
      obtain ⟨place, scope, isPlace, written, members⟩ :=
        othersIh (first.shape shape) goesOn (cons_ne_nil _ _) entry later
      refine ⟨place, scope, isPlace, written, fun name address => ?_⟩
      obtain ⟨_, after, here⟩ := others.holds_place (cons_ne_nil _ _) later isPlace
      rw [members, first.mem_env_iff shape going here after, Log.offers_append, or_assoc]
  | ifThen evaluated _ lowered ih =>
    have atTest := shape.condition evaluated
    intro entry member
    rcases mem_cons.mp member with rfl | inside
    · exact .condition (.condition shape going evaluated) fun _ _ => lowered.not_offers_condition
    · exact (ih (atTest.fork_false _) (atTest.isEnded_fork _ _) (cons_ne_nil _ _) entry
        inside).behind_condition
  | @ifElse site _ _ _ _ _ _ _ _ _ _ _ log more _ evaluated _ lowered followed ih restIh =>
    have atTest := shape.condition evaluated
    have atEnd := lowered.shape (atTest.fork_true _)
    intro entry member
    rcases mem_cons.mp member with rfl | member
    · refine .condition (.condition shape going evaluated) fun name address => ?_
      rw [Log.offers_append]
      rintro (inside | ⟨inner, type, takes, precedes⟩)
      · exact lowered.not_offers_condition inside
      · exact Site.not_precedes_of_deeper (followed.holds_takes (cons_ne_nil _ _) takes) precedes
    rcases mem_append.mp member with inside | later
    · refine ((ih (atTest.fork_true _) (atTest.isEnded_fork _ _) (cons_ne_nil _ _) entry inside).widen
        fun place isPlace name address => ?_).behind_condition
      have apart := (lowered.offers_apart followed name address).1
      rw [Log.offers_append, or_iff_left (apart _ inside place isPlace)]
    · refine ((restIh (atEnd.leave_goTo _) (atEnd.isEnded_leave_goTo _) (cons_ne_nil _ _) entry
        later).widen fun place isPlace name address => ?_).behind_condition
      have apart := (lowered.offers_apart followed name address).2
      rw [Log.offers_append, or_iff_right (apart _ later place isPlace)]
  | otherwise _ ih => exact ih shape going (cons_ne_nil _ _)

end Scoped

end LeftHand
