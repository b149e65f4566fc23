import LeftHand.Ast.Basic

/-! What runs of a function come past. -/

namespace LeftHand

/-- A place in the body of a function: the positions on the way to it, the innermost first. -/
abbrev Site := List Nat

/-- The place of the next statement of the same list. -/
def Site.next : Site → Site
  | [] => []
  | position :: outer => (position + 1) :: outer

/-- The place of the first statement of the body at a place. -/
def Site.body (site : Site) : Site :=
  0 :: 0 :: site

/-- The place of what follows the body at a place. -/
def Site.rest (site : Site) : Site :=
  1 :: site

/-- What a run of a function comes past. -/
inductive Visit where
  | stmt (site : Site) (stmt : Stmt)
  | condition (site : Site) (condition : Expr)
  /-- The end of the last statement. -/
  | fallOff

/-- Whether a statement neither holds others nor returns. -/
def Stmt.isPlain : Stmt → Bool
  | .expr .. | .noOp _ | .declare .. | .assign .. => true
  | _ => false

/-- Whether a statement returns. -/
def Stmt.isRet : Stmt → Bool
  | .ret .. => true
  | _ => false

/-- A part of a function that runs on its own. -/
inductive Part where
  | stmt (stmt : Stmt)
  | body (stmts : List Stmt)
  | rest (rest : Else)

/-- How a function stops. -/
inductive Stop where
  | returns
  /-- A condition has no outcome left. -/
  | starves
deriving DecidableEq, Repr

/-- Where a part of a function leads to. -/
inductive Result where
  /-- To what follows, with the outcomes that are left. -/
  | falls (outcomes : List Bool)
  | stops (stop : Stop)

/-- The runs of a part of a function: with some outcomes of conditions, it comes past some places in
order and leads on or stops. -/
inductive Runs : Site → Part → List Bool → List Visit → Result → Prop where
  | plain {site stmt outcomes} (isPlain : stmt.isPlain = true) :
      Runs site (.stmt stmt) outcomes [.stmt site stmt] (.falls outcomes)
  | ret {site pos value outcomes} :
      Runs site (.stmt (.ret pos value)) outcomes [.stmt site (.ret pos value)] (.stops .returns)
  | branch {site pos condition bodyPos body rest outcomes trace result}
      (ran : Runs site (.rest (.elseIf pos condition bodyPos body rest)) outcomes trace result) :
      Runs site (.stmt (.branch pos condition bodyPos body rest)) outcomes trace result
  | loopStarves {site pos condition bodyPos body} :
      Runs site (.stmt (.loop pos condition bodyPos body)) [] [.condition site condition]
        (.stops .starves)
  | loopLeaves {site pos condition bodyPos body outcomes} :
      Runs site (.stmt (.loop pos condition bodyPos body)) (false :: outcomes)
        [.condition site condition] (.falls outcomes)
  | loopStops {site pos condition bodyPos body outcomes trace stop}
      (inside : Runs site.body (.body body) outcomes trace (.stops stop)) :
      Runs site (.stmt (.loop pos condition bodyPos body)) (true :: outcomes)
        (.condition site condition :: trace) (.stops stop)
  /-- Behind the body the condition comes again. -/
  | loopRepeats {site pos condition bodyPos body outcomes trace between more result}
      (inside : Runs site.body (.body body) outcomes trace (.falls between))
      (again : Runs site (.stmt (.loop pos condition bodyPos body)) between more result) :
      Runs site (.stmt (.loop pos condition bodyPos body)) (true :: outcomes)
        (.condition site condition :: (trace ++ more)) result
  | nil {site outcomes} : Runs site (.body []) outcomes [] (.falls outcomes)
  | consStops {site stmt stmts outcomes trace stop}
      (first : Runs site (.stmt stmt) outcomes trace (.stops stop)) :
      Runs site (.body (stmt :: stmts)) outcomes trace (.stops stop)
  | cons {site stmt stmts outcomes trace between more result}
      (first : Runs site (.stmt stmt) outcomes trace (.falls between))
      (others : Runs site.next (.body stmts) between more result) :
      Runs site (.body (stmt :: stmts)) outcomes (trace ++ more) result
  | none {site outcomes} : Runs site (.rest .none) outcomes [] (.falls outcomes)
  | elseIfStarves {site pos condition bodyPos body rest} :
      Runs site (.rest (.elseIf pos condition bodyPos body rest)) [] [.condition site condition]
        (.stops .starves)
  /-- A condition that holds chooses its body, and no other condition is looked at. -/
  | elseIfHolds {site pos condition bodyPos body rest outcomes trace result}
      (inside : Runs site.body (.body body) outcomes trace result) :
      Runs site (.rest (.elseIf pos condition bodyPos body rest)) (true :: outcomes)
        (.condition site condition :: trace) result
  | elseIfFails {site pos condition bodyPos body rest outcomes trace result}
      (followed : Runs site.rest (.rest rest) outcomes trace result) :
      Runs site (.rest (.elseIf pos condition bodyPos body rest)) (false :: outcomes)
        (.condition site condition :: trace) result
  | otherwise {site bodyPos body outcomes trace result}
      (inside : Runs site.body (.body body) outcomes trace result) :
      Runs site (.rest (.otherwise bodyPos body)) outcomes trace result

/-- The runs of a function. One that comes to the end of its statements returns. -/
inductive Function.Runs (function : Function) : List Bool → List Visit → Stop → Prop where
  | stops {outcomes trace stop}
      (ran : LeftHand.Runs [0] (.body function.body.statements) outcomes trace (.stops stop)) :
      function.Runs outcomes trace stop
  | fallsOff {outcomes trace rest}
      (ran : LeftHand.Runs [0] (.body function.body.statements) outcomes trace (.falls rest)) :
      function.Runs outcomes (trace ++ [.fallOff]) .returns

/-- Whether a part has a return that nothing can go around: statements behind it are not reached. -/
def Part.isEnding : Part → Bool
  | .stmt single => single.isRet
  | .body stmts | .rest (.otherwise _ stmts) => stmts.any Stmt.isRet
  | .rest _ => false

variable {outcomes left : List Bool} {part : Part} {trace others : List Visit}

theorem Runs.isEnding_eq_false {site : Site} (ran : Runs site part outcomes trace (.falls left)) :
    part.isEnding = false := by
  generalize reached : Result.falls left = result at ran
  induction ran generalizing left with
  | @plain _ stmt _ isPlain => cases stmt <;> first | rfl | cases isPlain
  | branch | loopLeaves | loopRepeats | nil | none | elseIfHolds | elseIfFails => rfl
  | ret | loopStarves | loopStops | consStops | elseIfStarves => cases reached
  | cons first others firstIh othersIh =>
    have unended : Stmt.isRet _ = false := firstIh rfl
    have others := othersIh reached
    simpa [Part.isEnding, unended] using others
  | otherwise inside ih => exact ih reached

theorem Runs.length_le {site : Site} (ran : Runs site part outcomes trace (.falls left)) :
    left.length ≤ outcomes.length := by
  generalize reached : Result.falls left = result at ran
  induction ran generalizing left with
  | plain | nil | none | loopLeaves =>
    cases reached
    simp
  | ret | loopStarves | loopStops | consStops | elseIfStarves => cases reached
  | branch _ ih | otherwise _ ih => exact ih reached
  | loopRepeats _ _ insideIh againIh =>
    have inside := insideIh rfl
    have again := againIh reached
    simp only [List.length_cons]
    omega
  | cons _ _ firstIh othersIh =>
    have first := firstIh rfl
    have others := othersIh reached
    omega
  | elseIfHolds _ ih | elseIfFails _ ih =>
    have inside := ih reached
    simp only [List.length_cons]
    omega

/-- The outcomes decide a run of a part. -/
theorem Runs.unique {site : Site} {result other : Result}
    (ran : Runs site part outcomes trace result) (again : Runs site part outcomes others other) :
    trace = others ∧ result = other := by
  induction ran generalizing others other with
  | plain isPlain =>
    cases again with
    | plain => exact ⟨rfl, rfl⟩
    | ret | branch | loopStarves | loopLeaves | loopStops | loopRepeats => cases isPlain
  | ret =>
    cases again with
    | plain isPlain => cases isPlain
    | ret => exact ⟨rfl, rfl⟩
  | branch _ ih =>
    cases again with
    | plain isPlain => cases isPlain
    | branch again => exact ih again
  | loopStarves =>
    cases again with
    | plain isPlain => cases isPlain
    | loopStarves => exact ⟨rfl, rfl⟩
  | loopLeaves =>
    cases again with
    | plain isPlain => cases isPlain
    | loopLeaves => exact ⟨rfl, rfl⟩
  | loopStops _ ih =>
    cases again with
    | plain isPlain => cases isPlain
    | loopStops inside =>
      obtain ⟨rfl, same⟩ := ih inside
      exact ⟨rfl, same⟩
    | loopRepeats inside => cases (ih inside).2
  | loopRepeats _ _ ih againIh =>
    cases again with
    | plain isPlain => cases isPlain
    | loopStops inside => cases (ih inside).2
    | loopRepeats inside again =>
      obtain ⟨rfl, same⟩ := ih inside
      cases same
      obtain ⟨rfl, same⟩ := againIh again
      exact ⟨rfl, same⟩
  | nil | none | elseIfStarves =>
    cases again
    exact ⟨rfl, rfl⟩
  | consStops _ ih =>
    cases again with
    | consStops first => exact ih first
    | cons first => cases (ih first).2
  | cons _ _ ih othersIh =>
    cases again with
    | consStops first => cases (ih first).2
    | cons first others =>
      obtain ⟨rfl, same⟩ := ih first
      cases same
      obtain ⟨rfl, same⟩ := othersIh others
      exact ⟨rfl, same⟩
  | elseIfHolds _ ih =>
    cases again with
    | elseIfHolds inside =>
      obtain ⟨rfl, same⟩ := ih inside
      exact ⟨rfl, same⟩
  | elseIfFails _ ih =>
    cases again with
    | elseIfFails followed =>
      obtain ⟨rfl, same⟩ := ih followed
      exact ⟨rfl, same⟩
  | otherwise _ ih =>
    cases again with
    | otherwise inside => exact ih inside

theorem Function.Runs.unique {function : Function} {stop other : Stop}
    (ran : function.Runs outcomes trace stop) (again : function.Runs outcomes others other) :
    trace = others ∧ stop = other := by
  cases ran with
  | stops ran =>
    cases again with
    | stops again =>
      obtain ⟨rfl, same⟩ := ran.unique again
      cases same
      exact ⟨rfl, rfl⟩
    | fallsOff again => cases (ran.unique again).2
  | fallsOff ran =>
    cases again with
    | stops again => cases (ran.unique again).2
    | fallsOff again =>
      obtain ⟨rfl, _⟩ := ran.unique again
      exact ⟨rfl, rfl⟩

end LeftHand
