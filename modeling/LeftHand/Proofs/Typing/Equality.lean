import LeftHand.Proofs.Module.History

/-!
Equality of strings: values of one type can be compared, and strings have one type as well, so they
are compared like any others, by their addresses.
-/

namespace LeftHand

/-- The comparison that an operator of equality makes. -/
def BinOp.equality? : BinOp → Option Ir.Comparison
  | .equals => some .eq
  | .revEquals => some .ne
  | _ => none

/-- An equality that is lowered has operands of one type, and they are no strings. -/
def SparesStrings (isVerbose : Bool) (env : Env) (pos : Pos) (op : BinOp) (lhs rhs : Expr)
    (before : Draft) : Prop :=
  ∀ value after, Gives (lowerExpr isVerbose env (.binary pos op lhs rhs)) before value after →
    ∃ left middle right last, Gives (lowerExpr isVerbose env lhs) before left middle ∧
      Gives (lowerExpr isVerbose env rhs) middle right last ∧
      left.type = right.type ∧ left.type ≠ .bytes

/-- What an equality does behind its operands: it compares values of one type, and reports the types
of others. -/
def ComparesOneType (isVerbose : Bool) (env : Env) (pos : Pos) (op : BinOp) (lhs rhs : Expr)
    (before : Draft) (comparison : Ir.Comparison) : Prop :=
  ∀ left middle right last, Gives (lowerExpr isVerbose env lhs) before left middle →
    Gives (lowerExpr isVerbose env rhs) middle right last →
    if left.type = right.type then
      Gives (lowerExpr isVerbose env (.binary pos op lhs rhs)) before
        (.register (last.named ".cmptmp") .i1) (last.write ".cmptmp" (.compare comparison left right))
    else StopsAt (lowerExpr isVerbose env (.binary pos op lhs rhs)) before
      (.reported (.incomparable left.type right.type) pos isVerbose) last

section Equality

variable {isVerbose : Bool} {env : Env} {pos : Pos} {op : BinOp} {comparison : Ir.Comparison}
  {lhs rhs : Expr} {before : Draft}

theorem lowerBinary_equality (isEquality : op.equality? = some comparison) (left right : Ir.Value) :
    lowerBinary isVerbose pos op left right = lowerEquality isVerbose pos comparison left right := by
  cases op <;> cases isEquality <;> rfl

theorem comparesOneType (pos : Pos) (isEquality : op.equality? = some comparison) :
    ComparesOneType isVerbose env pos op lhs rhs before comparison := by
  intro left middle right last leftLowered rightLowered
  have ran : ((lowerExpr isVerbose env (.binary pos op lhs rhs)).run.run before) =
      (lowerEquality isVerbose pos comparison left right).run.run last := by
    rw [lowerExpr, run_bind_of_gives leftLowered, run_bind_of_gives rightLowered,
      lowerBinary_equality isEquality]
  split
  · rename_i same
    exact ran.trans (gives_lowerEquality.mpr ⟨same, rfl, rfl⟩)
  · rename_i differ
    refine ran.trans ?_
    rw [lowerEquality, if_pos differ]
    rfl

theorem not_sparesStrings (isEquality : op.equality? = some comparison) {left right : Ir.Value}
    {middle last : Draft} (leftLowered : Gives (lowerExpr isVerbose env lhs) before left middle)
    (rightLowered : Gives (lowerExpr isVerbose env rhs) middle right last)
    (leftBytes : left.type = .bytes) (rightBytes : right.type = .bytes) :
    ¬SparesStrings isVerbose env pos op lhs rhs before := by
  intro spares
  have outcome := comparesOneType pos isEquality _ _ _ _ leftLowered rightLowered
  rw [if_pos (leftBytes.trans rightBytes.symm)] at outcome
  obtain ⟨other, _, _, _, otherLowered, _, _, apart⟩ := spares _ _ outcome
  -- The left operand has one value only.
  obtain ⟨rfl, -⟩ := leftLowered.unique otherLowered
  exact apart leftBytes

theorem sparesStrings_iff {callees : Callees} {vars : Vars} (isEquality : op.equality? = some comparison)
    (ready : before.Ready callees) (agree : env.Matches vars) :
    SparesStrings isVerbose env pos op lhs rhs before ↔
      ¬(HasKind callees vars lhs (.pointer .char) ∧ HasKind callees vars rhs (.pointer .char)) := by
  constructor
  · rintro spares ⟨lhsKind, rhsKind⟩
    obtain ⟨left, middle, leftLowered, leftBytes⟩ := lowerExpr_complete agree lhs ready lhsKind
    -- The left operand may have made a string constant, so the right one starts elsewhere.
    obtain ⟨middleReady, -⟩ := lowerExpr_sound agree lhs ready leftLowered
    obtain ⟨right, last, rightLowered, rightBytes⟩ := lowerExpr_complete agree rhs middleReady rhsKind
    exact not_sparesStrings isEquality leftLowered rightLowered leftBytes rightBytes spares
  · intro mixed value after lowered
    simp only [lowerExpr, gives_bind, lowerBinary_equality isEquality, gives_lowerEquality] at lowered
    obtain ⟨left, middle, leftLowered, right, last, rightLowered, same, _⟩ := lowered
    refine ⟨left, middle, right, last, leftLowered, rightLowered, same, fun bytes => mixed ?_⟩
    obtain ⟨middleReady, leftKind, lhsKind, leftType⟩ := lowerExpr_sound agree lhs ready leftLowered
    obtain ⟨-, rightKind, rhsKind, rightType⟩ := lowerExpr_sound agree rhs middleReady rightLowered
    obtain rfl := Kind.eq_of_type (.pointer .char) leftType bytes
    obtain rfl := Kind.eq_of_type (.pointer .char) rightType (same.symm.trans bytes)
    exact ⟨lhsKind, rhsKind⟩

/-- Strings are compared like other values of one type, whatever expressions they come from. So the
operands of an equality are known to be no strings exactly if they are not both strings by their
kinds. -/
theorem equality_spares_strings_iff (isVerbose : Bool) (env : Env) (pos : Pos) (lhs rhs : Expr)
    (before : Draft) (isEquality : op.equality? = some comparison) :
    ComparesOneType isVerbose env pos op lhs rhs before comparison ∧
    ∀ callees vars, before.Ready callees → env.Matches vars →
      (SparesStrings isVerbose env pos op lhs rhs before ↔
        ¬(HasKind callees vars lhs (.pointer .char) ∧ HasKind callees vars rhs (.pointer .char))) :=
  ⟨comparesOneType pos isEquality, fun _ _ ready agree => sparesStrings_iff isEquality ready agree⟩

/-- A string variable moved by a number is told apart from a string. -/
theorem equality_spares_strings_iff_moved :
    let function : Function := ⟨⟨1, 1⟩, .decimal ⟨1, 5⟩, ⟨⟨1, 10⟩, "start"⟩, [], ⟨⟨1, 16⟩, []⟩⟩
    let before := function.opening (Predefined.base [])
    let env : Env := [("x", .register "x" (.pointer .bytes))]
    let vars : Vars := [("x", .pointer .char)]
    let moved : Expr := .binary ⟨1, 20⟩ .add (.name ⟨1, 18⟩ ⟨⟨1, 18⟩, "x"⟩) (.decimal ⟨1, 22⟩ 1)
    BinOp.revEquals.equality? = some .ne ∧ before.Ready (callees [function]) ∧ env.Matches vars ∧
      ¬SparesStrings false env ⟨1, 30⟩ .revEquals moved (.string ⟨1, 34⟩ "a") before := by
  intro function before env vars moved
  have ready : before.Ready (callees [function]) :=
    Function.ready_opening (Predefined.ready_base (by decide)) (by decide)
  have empty : Env.Matches [] [] := fun _ => rfl
  have agree : env.Matches vars := empty.cons rfl "x"
  have movedKind : HasKind (callees [function]) vars moved (.pointer .char) :=
    .binary (.name rfl) .decimal .forward
  have isEquality : BinOp.revEquals.equality? = some .ne := rfl
  refine ⟨isEquality, ready, agree, fun spares => ?_⟩
  exact ((equality_spares_strings_iff false env ⟨1, 30⟩ moved (.string ⟨1, 34⟩ "a") before
    isEquality).2 _ _ ready agree).mp spares ⟨movedKind, .string⟩

/-- Two string literals are compared. -/
theorem not_sparesStrings_literals :
    ¬SparesStrings false [] ⟨1, 23⟩ .equals (.string ⟨1, 19⟩ "a") (.string ⟨1, 26⟩ "b")
      (.opening {} "1eft.start" ⟨.i64, [], false⟩) :=
  not_sparesStrings rfl rfl rfl rfl rfl

end Equality

end LeftHand
