import LeftHand.Proofs.Exec.Source
import LeftHand.Proofs.Typing.Expr

/-!
Scalars as words: each operator between scalars is one instruction between their words, and has a
result exactly if the instruction has one.
-/

namespace LeftHand

open Ir List

namespace Scalar

/-- The word of a value. -/
def word : Scalar → Ir.Word
  | number value => .int 64 value
  | truth value => .int 1 (BitVec.ofBool value)

/-- The kind of a value. -/
def kind : Scalar → Kind
  | number _ => .dect
  | truth _ => .boolean

theorem word_ofInt (value : Int) : (ofInt value).word = .int 64 (BitVec.ofInt 64 value) := rfl

end Scalar

/-- What memory holds or a call gives is read as a value as it is read as a word. -/
theorem Kind.exists_scalar {kind : Kind} (scalar : kind.isScalar = true) (cell : BitVec 64) :
    ∃ value, kind.scalar? cell = some value ∧ kind.lower.word? cell = some value.word ∧
      value.kind = kind := by
  cases kind with
  | dect => exact ⟨.number cell, rfl, by simp [lower, Ir.Ty.word?, Scalar.word], rfl⟩
  | boolean =>
    exact ⟨.truth (cell.getLsbD 0), rfl, by simp [lower, Ir.Ty.word?, Scalar.word,
      BitVec.setWidth_one], rfl⟩
  | void | char | pointer => cases scalar

section Numbers

variable (lhs rhs : BitVec 64)

theorem word_add : (Scalar.ofInt (lhs.toInt + rhs.toInt)).word = .int 64 (lhs + rhs) := by
  rw [Scalar.word_ofInt, BitVec.ofInt_add, BitVec.ofInt_toInt, BitVec.ofInt_toInt]

theorem word_sub : (Scalar.ofInt (lhs.toInt - rhs.toInt)).word = .int 64 (lhs - rhs) := by
  rw [Scalar.word_ofInt, Int.sub_eq_add_neg, BitVec.ofInt_add, BitVec.ofInt_neg,
    BitVec.ofInt_toInt, BitVec.ofInt_toInt, BitVec.sub_eq_add_neg]

theorem word_mul : (Scalar.ofInt (lhs.toInt * rhs.toInt)).word = .int 64 (lhs * rhs) := by
  rw [Scalar.word_ofInt, BitVec.ofInt_mul, BitVec.ofInt_toInt, BitVec.ofInt_toInt]

theorem beq_eq_toInt : (lhs == rhs) = (lhs.toInt == rhs.toInt) := by
  rw [Bool.eq_iff_iff, beq_iff_eq, beq_iff_eq, BitVec.toInt_inj]

theorem divides_eq : Ir.divides lhs rhs = isQuotient lhs.toInt rhs.toInt := by
  rw [Ir.divides, isQuotient, bne, bne, beq_eq_toInt rhs 0, beq_eq_toInt lhs, beq_eq_toInt rhs (-1)]
  rfl

theorem word_div (defined : Ir.divides lhs rhs = true) :
    (Scalar.ofInt (lhs.toInt.tdiv rhs.toInt)).word = .int 64 (lhs.sdiv rhs) := by
  have within : lhs ≠ BitVec.intMin 64 ∨ rhs ≠ -1#64 := by
    by_contra both
    simp only [not_or, not_not] at both
    simp [Ir.divides, both.1, both.2] at defined
  rw [Scalar.word_ofInt, ← BitVec.toInt_sdiv_of_ne_or_ne lhs rhs within, BitVec.ofInt_toInt]

theorem word_mod : (Scalar.ofInt (lhs.toInt.tmod rhs.toInt)).word = .int 64 (lhs.srem rhs) := by
  rw [Scalar.word_ofInt, ← BitVec.toInt_srem, BitVec.ofInt_toInt]

end Numbers

theorem isCall_operation (op : BinOp) (lhs rhs : Value) :
    (op.operation lhs rhs).isCall = false := by
  cases op <;> rfl

section Operator

variable {isVerbose : Bool} {before after : Draft} {pos : Pos} {op : BinOp} {lhs rhs value : Value}
  {left right : Kind}

/-- An operator between scalars is lowered to its instruction, and gives a scalar. -/
theorem lowerBinary_scalar (leftScalar : left.isScalar = true) (rightScalar : right.isScalar = true)
    (lhsType : lhs.type = left.lower) (rhsType : rhs.type = right.lower)
    (lowered : Gives (lowerBinary isVerbose pos op lhs rhs) before value after) :
    ∃ base kind, op.HasKind left right kind ∧ kind.isScalar = true ∧
      (op.operation lhs rhs).type = kind.lower ∧
      value = .register (before.named base) kind.lower ∧
      after = before.write base (op.operation lhs rhs) := by
  -- No scalar is a pointer, so sums and differences are of numbers.
  cases BinOp.operates_of_gives lowered with
  | plain same suits =>
    obtain ⟨kind, allowed, given⟩ := BinOp.exists_hasKind lhsType rhsType same suits
    refine ⟨_, kind, allowed, ?_, given, given ▸ rfl, rfl⟩
    cases allowed <;> first | rfl | exact leftScalar | exact rightScalar
  | forward pointer | backward pointer =>
    obtain ⟨target, rfl⟩ := Kind.exists_of_isPointer (lhsType ▸ pointer)
    cases leftScalar
  | forwardBy pointer =>
    obtain ⟨target, rfl⟩ := Kind.exists_of_isPointer (rhsType ▸ pointer)
    cases rightScalar

section Values

variable {machine : Machine} {kind : Kind}

/-- The instruction of an operator between numbers gives the word of its value, if there is one: a
truth value where they are compared, and a number elsewhere. -/
theorem word?_numbers {first second : BitVec 64} (typed : op.HasKind .dect .dect kind)
    (lhsHeld : lhs.word? machine.registers = some (.int 64 first))
    (rhsHeld : rhs.word? machine.registers = some (.int 64 second)) :
    (op.operation lhs rhs).word? machine =
        (op.eval? (.number first) (.number second)).map Scalar.word ∧
      ∀ given, op.eval? (.number first) (.number second) = some given → given.kind = kind := by
  cases typed with
  | equality isEquality =>
    simp only [mem_cons, not_mem_nil, or_false] at isEquality
    rcases isEquality with rfl | rfl
    all_goals
      rw [BinOp.operation, Ir.word?_compare _ lhsHeld rhsHeld]
      simp [Comparison.holds, BinOp.eval?, Scalar.word, bne, beq_eq_toInt, Scalar.kind]
  | order isOrder =>
    simp only [mem_cons, not_mem_nil, or_false] at isOrder
    rcases isOrder with rfl | rfl | rfl | rfl
    all_goals
      rw [BinOp.operation, Ir.word?_compare _ lhsHeld rhsHeld]
      exact ⟨rfl, by rintro _ ⟨⟩; rfl⟩
  | arith isArith =>
    simp only [mem_cons, not_mem_nil, or_false] at isArith
    rcases isArith with rfl | rfl | rfl | rfl | rfl
    all_goals
      rw [BinOp.operation, Ir.word?_arith _ lhsHeld rhsHeld]
      simp only [Arith.apply, BinOp.eval?, ← divides_eq]
    · exact ⟨by simp [word_add], by rintro _ ⟨⟩; rfl⟩
    · exact ⟨by simp [word_sub], by rintro _ ⟨⟩; rfl⟩
    · exact ⟨by simp [word_mul], by rintro _ ⟨⟩; rfl⟩
    · split
      · rename_i defined
        exact ⟨by simp [word_div _ _ defined], by rintro _ ⟨⟩; rfl⟩
      · exact ⟨rfl, by rintro _ ⟨⟩⟩
    · split
      · exact ⟨by simp [word_mod], by rintro _ ⟨⟩; rfl⟩
      · exact ⟨rfl, by rintro _ ⟨⟩⟩

/-- The instruction of an operator between truth values gives the word of its value, a truth
value. -/
theorem word?_truths {first second : Bool} (typed : op.HasKind .boolean .boolean kind)
    (lhsHeld : lhs.word? machine.registers = some (.int 1 (BitVec.ofBool first)))
    (rhsHeld : rhs.word? machine.registers = some (.int 1 (BitVec.ofBool second))) :
    (op.operation lhs rhs).word? machine =
        (op.eval? (.truth first) (.truth second)).map Scalar.word ∧
      ∀ given, op.eval? (.truth first) (.truth second) = some given → given.kind = kind := by
  cases typed with
  | logic isLogic =>
    simp only [mem_cons, not_mem_nil, or_false] at isLogic
    rcases isLogic with rfl | rfl
    all_goals
      rw [BinOp.operation, Ir.word?_arith _ lhsHeld rhsHeld]
      simp [Arith.apply, BinOp.eval?, Scalar.word, Scalar.kind]
  | equality isEquality =>
    simp only [mem_cons, not_mem_nil, or_false] at isEquality
    rcases isEquality with rfl | rfl
    all_goals
      rw [BinOp.operation, Ir.word?_compare _ lhsHeld rhsHeld]
      refine ⟨?_, by rintro _ ⟨⟩; rfl⟩
      cases first <;> cases second <;> rfl

/-- The instruction of an operator gives the word of the operator's value, if there is one, and the
value is of the kind that the rule for the operator tells. -/
theorem word?_operation {first second : Scalar}
    (typed : op.HasKind first.kind second.kind kind)
    (lhsHeld : lhs.word? machine.registers = some first.word)
    (rhsHeld : rhs.word? machine.registers = some second.word) :
    (op.operation lhs rhs).word? machine = (op.eval? first second).map Scalar.word ∧
      ∀ given, op.eval? first second = some given → given.kind = kind := by
  cases first with
  | number first =>
    cases second with
    | number second => exact word?_numbers typed lhsHeld rhsHeld
    | truth second => cases typed
  | truth first =>
    cases second with
    | number second => cases typed
    | truth second => exact word?_truths typed lhsHeld rhsHeld

end Values

end Operator

end LeftHand
