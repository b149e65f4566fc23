import LeftHand.Proofs.Source.Operands

/-!
Programs as texts: every expression is written between marks, and one space stands between any two
words.
-/

namespace LeftHand

open List

/-- The digits of a number. -/
def leftDigits (number : Nat) : List Char :=
  (Nat.toDigits 10 number).map handDigit

mutual

/-- The words of an expression, without marks around it. -/
def Expr.words : Expr → List (List Char)
  | .decimal _ value => [numberWord (leftDigits value.toNat)]
  | .string _ value => [quotedWord value.toList]
  | .boolean _ value => [truthWord value]
  | .name _ ident => [ident.word]
  | .addressOf _ ident => [['a', 'd', 'd', 'r'], ident.word]
  | .deref _ value => ['#'] :: wrapped value.words
  | .exec _ ident arguments =>
    ['e', 'x', 'e', 'c'] :: ident.word :: wrapped (Expr.allWords arguments)
  | .rev _ value => ['r', 'e', 'v'] :: wrapped value.words
  | .binary _ op lhs rhs => wrapped lhs.words ++ op.text :: wrapped rhs.words
  | .unknown _ => []

/-- The words of expressions, each between marks. -/
def Expr.allWords : List Expr → List (List Char)
  | [] => []
  | value :: values => wrapped value.words ++ Expr.allWords values

end

/-- The words of the left side of an assignment. -/
def Target.words : Target → List (List Char)
  | name ident => [ident.word]
  | deref _ value => ['#'] :: wrapped value.words
  | unknown _ => []

mutual

/-- The words of a statement. -/
def Stmt.words : Stmt → List (List Char)
  | .expr _ value => wrapped value.words ++ [['$']]
  | .ret _ none => [['r', 'e', 't'], ['$']]
  | .ret _ (some value) => ['r', 'e', 't'] :: (wrapped value.words ++ [['$']])
  | .noOp _ => [['b', 'a', 's', 's'], ['$']]
  | .declare _ written ident => written.words ++ [ident.word, ['$']]
  | .assign _ target value => target.words ++ assWord :: (wrapped value.words ++ [['$']])
  | .branch _ condition _ body rest =>
    ['1', 'f'] :: (wrapped condition.words ++ (braced (Stmt.allWords body) ++ rest.words))
  | .loop _ condition _ body =>
    ['a', 's'] :: (wrapped condition.words ++ braced (Stmt.allWords body))
  | .unknown _ => []

/-- The words of statements. -/
def Stmt.allWords : List Stmt → List (List Char)
  | [] => []
  | action :: actions => action.words ++ Stmt.allWords actions

/-- The words of what follows the first body of a branch. -/
def Else.words : Else → List (List Char)
  | .none => []
  | .elseIf _ condition _ body rest =>
    ['e', '1', 's', 'e', '1', 'f'] ::
      (wrapped condition.words ++ (braced (Stmt.allWords body) ++ rest.words))
  | .otherwise _ body => ['e', '1', 's', 'e'] :: braced (Stmt.allWords body)

end

/-- The words of a function. -/
def Function.words (function : Function) : List (List Char) :=
  ['d', 'e', 'f'] :: (function.type.words ++ function.ident.word ::
    (function.params.flatMap Param.words ++ braced (Stmt.allWords function.body.statements)))

/-- The text of a program. -/
def Program.render (program : Program) : List Char :=
  spaced (program.functions.flatMap Function.words)

mutual

/-- An expression can be written down. -/
def Expr.Writable : Expr → Prop
  | .decimal _ value => 0 ≤ value ∧ value ≤ maxInteger
  | .string _ value => Quotable value.toList
  | .boolean _ _ => True
  | .name _ ident => IsName ident.word
  | .addressOf _ ident => IsName ident.word
  | .deref _ value => value.Writable
  | .exec _ ident arguments => IsName ident.word ∧ Expr.AllWritable arguments
  | .rev _ value => value.Writable
  | .binary _ _ lhs rhs => lhs.Writable ∧ rhs.Writable
  | .unknown _ => False

/-- Expressions can be written down. -/
def Expr.AllWritable : List Expr → Prop
  | [] => True
  | value :: values => value.Writable ∧ Expr.AllWritable values

end

/-- The left side of an assignment can be written down. -/
def Target.Writable : Target → Prop
  | name ident => IsName ident.word
  | deref _ value => value.Writable
  | unknown _ => False

mutual

/-- A statement can be written down. -/
def Stmt.Writable : Stmt → Prop
  | .expr _ value => value.Writable
  | .ret _ none => True
  | .ret _ (some value) => value.Writable
  | .noOp _ => True
  | .declare _ written ident => written.isKnown = true ∧ written.isVoid = false ∧ IsName ident.word
  | .assign _ target value => target.Writable ∧ value.Writable
  | .branch _ condition _ body rest => condition.Writable ∧ Stmt.AllWritable body ∧ rest.Writable
  | .loop _ condition _ body => condition.Writable ∧ Stmt.AllWritable body
  | .unknown _ => False

/-- Statements can be written down. -/
def Stmt.AllWritable : List Stmt → Prop
  | [] => True
  | action :: actions => action.Writable ∧ Stmt.AllWritable actions

/-- What follows the first body of a branch can be written down. -/
def Else.Writable : Else → Prop
  | .none => True
  | .elseIf _ condition _ body rest => condition.Writable ∧ Stmt.AllWritable body ∧ rest.Writable
  | .otherwise _ body => Stmt.AllWritable body

end

/-- A function can be written down. -/
structure Function.Writable (function : Function) : Prop where
  isKnown : function.type.isKnown = true
  isName : IsName function.ident.word
  params : ∀ param ∈ function.params, param.Writable
  body : Stmt.AllWritable function.body.statements

/-- A program can be written down: it has a function, and all its functions can be written down. -/
structure Program.Writable (program : Program) : Prop where
  filled : program.functions ≠ []
  functions : ∀ function ∈ program.functions, function.Writable

section Digits

theorem leftDigits_facts (number : Nat) : leftDigits number ≠ [] ∧
    (leftDigits number).all isNumeral = true ∧ leftNumber (leftDigits number) = number :=
  ⟨by simp [leftDigits], all_isNumeral_map (isDigit_toDigits number),
    (leftNumber_map (isDigit_toDigits number)).trans Nat.ofDigitChars_ten_toDigits⟩

/-- The literal of a number. -/
def Numeral.ofInt (value : Int) (filled : 0 ≤ value) (small : value ≤ maxInteger) : Numeral where
  digits := leftDigits value.toNat
  filled := (leftDigits_facts _).1
  digital := (leftDigits_facts _).2.1
  short := by
    have bound : value.toNat < 10 ^ 19 := by
      simp only [maxInteger] at small
      omega
    rw [leftDigits, length_map]
    exact Nat.le_trans (Nat.toDigits_length 10 _ 19 (by decide) bound) (by decide)
  small := by
    rw [(leftDigits_facts _).2.2, Int.toNat_of_nonneg filled]
    exact small

theorem Numeral.value_ofInt {value : Int} (filled : 0 ≤ value) (small : value ≤ maxInteger) :
    (Numeral.ofInt value filled small).value = value := by
  rw [Numeral.value, Numeral.ofInt, (leftDigits_facts _).2.2, Int.toNat_of_nonneg filled]

end Digits

section Solid

theorem Ty.allSolid {written : Ty} (known : written.isKnown = true) : AllSolid written.words := by
  obtain ⟨_, word, _, count, isBase, words, _⟩ := Ty.exists_base known
  rw [words]
  refine .cons ?_ (fun mark inside => ?_)
  · cases isBase <;> exact isSolid_of_typed (by decide)
  · rw [eq_of_mem_replicate inside]
    exact isSolid_of_typed (by decide)

mutual

theorem Expr.allSolid (value : Expr) (writable : value.Writable) : AllSolid value.words := by
  cases value with
  | decimal pos value =>
    refine .cons ?_ allSolid_nil
    exact isSolid_of_take? (Numeral.ofInt value writable.1 writable.2).take?_word
  | string pos value =>
    exact .cons (isSolid_of_take? writable.take?_quotedWord) allSolid_nil
  | boolean pos value =>
    exact .cons (isSolid_of_take? (take?_truthWord value)) allSolid_nil
  | name pos ident =>
    exact .cons writable.isSolid allSolid_nil
  | addressOf pos ident =>
    exact .typed (by decide) (.cons writable.isSolid allSolid_nil)
  | deref pos value =>
    exact .typed (by decide) (Expr.allSolid value writable).wrapped
  | exec pos ident arguments =>
    exact .typed (by decide)
      (.cons writable.1.isSolid (Expr.allSolid_all arguments writable.2).wrapped)
  | rev pos value =>
    exact .typed (by decide) (Expr.allSolid value writable).wrapped
  | binary pos op lhs rhs =>
    exact .append (Expr.allSolid lhs writable.1).wrapped
      (.cons (isSolid_of_take? op.take?_text) (Expr.allSolid rhs writable.2).wrapped)
  | unknown node => exact allSolid_nil

theorem Expr.allSolid_all (values : List Expr) (writable : Expr.AllWritable values) :
    AllSolid (Expr.allWords values) := by
  cases values with
  | nil => exact allSolid_nil
  | cons value values =>
    exact .append (Expr.allSolid value writable.1).wrapped
      (Expr.allSolid_all values writable.2)

end

theorem Target.allSolid {target : Target} (writable : target.Writable) : AllSolid target.words := by
  cases target with
  | name ident => exact .cons (IsName.isSolid writable) allSolid_nil
  | deref pos value =>
    exact .typed (by decide) (Expr.allSolid value writable).wrapped
  | unknown node => exact allSolid_nil

mutual

theorem Stmt.allSolid (action : Stmt) (writable : action.Writable) : AllSolid action.words := by
  cases action with
  | expr pos value =>
    exact .append (value.allSolid writable).wrapped allSolid_lineEnd
  | ret pos value =>
    cases value with
    | none => exact .typed (by decide) allSolid_lineEnd
    | some value =>
      exact .typed (by decide) (.append (value.allSolid writable).wrapped allSolid_lineEnd)
  | noOp pos => exact .typed (by decide) allSolid_lineEnd
  | declare pos written ident =>
    exact .append (Ty.allSolid writable.1) (.cons writable.2.2.isSolid allSolid_lineEnd)
  | assign pos target value =>
    exact .append (Target.allSolid writable.1) (.typed (by decide)
      (.append (value.allSolid writable.2).wrapped allSolid_lineEnd))
  | branch pos condition bodyPos body rest =>
    exact .typed (by decide) (.append (condition.allSolid writable.1).wrapped
      (.append (Stmt.allSolid_all body writable.2.1).braced (Else.allSolid rest writable.2.2)))
  | loop pos condition bodyPos body =>
    exact .typed (by decide) (.append (condition.allSolid writable.1).wrapped
      (Stmt.allSolid_all body writable.2).braced)
  | unknown node => exact allSolid_nil

theorem Stmt.allSolid_all (actions : List Stmt) (writable : Stmt.AllWritable actions) :
    AllSolid (Stmt.allWords actions) := by
  cases actions with
  | nil => exact allSolid_nil
  | cons action actions =>
    exact .append (Stmt.allSolid action writable.1) (Stmt.allSolid_all actions writable.2)

theorem Else.allSolid (rest : Else) (writable : rest.Writable) : AllSolid rest.words := by
  cases rest with
  | none => exact allSolid_nil
  | elseIf pos condition bodyPos body rest =>
    exact .typed (by decide) (.append (condition.allSolid writable.1).wrapped
      (.append (Stmt.allSolid_all body writable.2.1).braced (Else.allSolid rest writable.2.2)))
  | otherwise bodyPos body =>
    exact .typed (by decide) (Stmt.allSolid_all body writable).braced

end

theorem Function.allSolid {function : Function} (writable : function.Writable) :
    AllSolid function.words := by
  refine .typed (by decide) (.append (Ty.allSolid writable.isKnown) (.cons writable.isName.isSolid
    (.append ?_ (Stmt.allSolid_all _ writable.body).braced)))
  intro word inside
  obtain ⟨param, member, among⟩ := mem_flatMap.mp inside
  have declared := writable.params param member
  exact AllSolid.append (Ty.allSolid declared.isKnown)
    (.cons declared.isName.isSolid allSolid_nil) word among

end Solid

end LeftHand
