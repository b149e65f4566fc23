import LeftHand.Ast.Literal
import LeftHand.Proofs.Grammar.Terminal

/-!
Numbers as programs write them: the digits `1` to `5` stand for themselves, and `@` and `a` to `d`
for zero and six to nine. A number within the limit on digits is read as the value of its digits.
-/

namespace LeftHand

open List

/-- The value of a digit. -/
def leftDigit : Char → Nat
  | '@' => 0
  | 'a' => 6
  | 'b' => 7
  | 'c' => 8
  | 'd' => 9
  | c => c.toNat - 48

/-- The number that digits denote. -/
def leftNumber (digits : List Char) : Nat :=
  digits.foldl (fun value digit => 10 * value + leftDigit digit) 0

/-- The character that is written for a decimal digit. -/
def handDigit : Char → Char
  | '0' => '@'
  | '6' => 'a'
  | '7' => 'b'
  | '8' => 'c'
  | '9' => 'd'
  | c => c

/-- A text with one character in place of another. -/
def replaceChar (old new : Char) (text : List Char) : List Char :=
  text.map fun c => if c = old then new else c

section Digits

variable {c : Char} {digits : List Char}

theorem mem_of_toNat_mem {chars : List Char} (inside : c.toNat ∈ chars.map Char.toNat) : c ∈ chars := by
  obtain ⟨other, member, same⟩ := mem_map.mp inside
  rwa [← Char.toNat_inj.mp same]

theorem mem_of_isNumeral (digit : isNumeral c = true) :
    c ∈ ['1', '2', '3', '4', '5', 'a', 'b', 'c', 'd', '@'] := by
  refine mem_of_toNat_mem ?_
  rw [isNumeral_iff] at digit
  simp
  omega

theorem plainDigit_facts (digit : isNumeral c = true) :
    digitValue? (plainDigit c) = some (leftDigit c) ∧ plainDigit c ≠ '_' ∧
      isNumeralBlank (plainDigit c) = false ∧ plainDigit c ≠ '+' ∧ plainDigit c ≠ '-' := by
  have known : ['1', '2', '3', '4', '5', 'a', 'b', 'c', 'd', '@'].all (fun c =>
      digitValue? (plainDigit c) = some (leftDigit c) ∧ plainDigit c ≠ '_' ∧
        isNumeralBlank (plainDigit c) = false ∧ plainDigit c ≠ '+' ∧ plainDigit c ≠ '-') = true := by
    decide
  exact of_decide_eq_true (all_eq_true.mp known c (mem_of_isNumeral digit))

theorem isSeparated_of_forall (filled : digits ≠ []) (plain : ∀ c ∈ digits, c ≠ '_') :
    isSeparated digits = true := by
  fun_induction isSeparated digits with
  | case1 => exact absurd rfl filled
  | case2 => exact absurd rfl (plain '_' mem_cons_self)
  | case3 => rfl
  | case4 => exact absurd rfl (plain '_' (by simp))
  | case5 _ rest _ more _ ih =>
    exact ih (fun none => more none) fun c inside => plain c (mem_cons_of_mem _ inside)

theorem digitsValue_plainDigit (digital : digits.all isNumeral = true) :
    digitsValue (digits.map plainDigit) = leftNumber digits := by
  -- Both go through the digits with the value so far.
  have step : ∀ (digits : List Char) (value : Nat), digits.all isNumeral = true →
      (digits.map plainDigit).foldl (fun value c => value * 10 + (digitValue? c).getD 0) value =
        digits.foldl (fun value digit => 10 * value + leftDigit digit) value := by
    intro digits
    induction digits with
    | nil => exact fun _ _ => rfl
    | cons c digits ih =>
      intro value digital
      rw [all_cons, Bool.and_eq_true] at digital
      rw [map_cons, foldl_cons, foldl_cons, (plainDigit_facts digital.1).1,
        Option.getD_some, Nat.mul_comm, ih _ digital.2]
  exact step digits 0 digital

/-- A number with few enough digits is read as what its digits denote. -/
theorem readNumeral_plainDigit (filled : digits ≠ []) (digital : digits.all isNumeral = true)
    (short : digits.length ≤ maxDigits) :
    readNumeral (digits.map plainDigit) = .ok (leftNumber digits) := by
  have facts : ∀ c ∈ digits.map plainDigit, (digitValue? c).isSome = true ∧ c ≠ '_' ∧
      isNumeralBlank c = false ∧ c ≠ '+' ∧ c ≠ '-' := by
    intro c inside
    obtain ⟨digit, member, rfl⟩ := mem_map.mp inside
    obtain ⟨value, rest⟩ := plainDigit_facts (all_eq_true.mp digital digit member)
    exact ⟨by rw [value]; rfl, rest⟩
  have nonempty : digits.map plainDigit ≠ [] := by simpa using filled
  -- Nothing but digits stands in the text, so all of it is one run.
  obtain ⟨run, stop⟩ := takeWhile_eq_and_dropWhile_eq.mpr
    ⟨(List.append_nil (digits.map plainDigit)).symm,
      all_eq_true.mpr fun c inside => by simp [(facts c inside).1],
      show ([] : List Char).head?.any (fun c => (digitValue? c).isSome || c == '_') = false from rfl⟩
  have unseparated : (digits.map plainDigit).filter (· != '_') = digits.map plainDigit :=
    filter_eq_self.mpr fun c inside => by simp [(facts c inside).2.1]
  have read : readDigits (digits.map plainDigit) (digits.map plainDigit) =
      .ok (leftNumber digits) := by
    simp only [readDigits]
    rw [run, stop, unseparated, isSeparated_of_forall nonempty fun c inside => (facts c inside).2.1,
      if_neg (by simp), if_neg (by simp; omega), if_neg (by simp), digitsValue_plainDigit digital]
  have start : (digits.map plainDigit).dropWhile isNumeralBlank = digits.map plainDigit := by
    suffices visible : (digits.map plainDigit).head?.any isNumeralBlank = false from
      (takeWhile_eq_and_dropWhile_eq.mpr ⟨(nil_append _).symm, rfl, visible⟩).2
    cases first : digits.map plainDigit with
    | nil => rfl
    | cons c rest =>
      rw [head?_cons, Option.any_some]
      exact (facts c (by rw [first]; exact mem_cons_self)).2.2.1
  rw [readNumeral, start]
  split
  · rename_i rest same
    exact absurd rfl (facts '+' (by rw [same]; exact mem_cons_self)).2.2.2.1
  · rename_i rest same
    exact absurd rfl (facts '-' (by rw [same]; exact mem_cons_self)).2.2.2.2
  · rw [read]
    rfl

/-- The digits are replaced one after the other: none that comes in is replaced again. -/
theorem integerValue_eq_replaced (text : List Char) : integerValue text =
    readNumeral (replaceChar 'd' '9' (replaceChar 'c' '8' (replaceChar 'b' '7'
      (replaceChar 'a' '6' (replaceChar '@' '0' (withoutEnds 2 text)))))) := by
  simp only [integerValue, replaceChar, map_map]
  refine congrArg readNumeral (map_congr_left fun c _ => ?_)
  rw [plainDigit.eq_def]
  split <;> simp_all

/-- A number is read as what the digits between its marks denote. -/
theorem integerValue_eq (filled : digits ≠ []) (digital : digits.all isNumeral = true)
    (short : digits.length ≤ maxDigits) :
    integerValue ('%' :: 'd' :: digits ++ ['!', 'd']) = .ok (leftNumber digits) := by
  have inside : withoutEnds 2 ('%' :: 'd' :: digits ++ ['!', 'd']) = digits := by
    simp [withoutEnds]
  rw [integerValue, inside, readNumeral_plainDigit filled digital short]

theorem mem_of_isDigit (digit : c.isDigit = true) :
    c ∈ ['0', '1', '2', '3', '4', '5', '6', '7', '8', '9'] := by
  obtain ⟨low, high⟩ : 48 ≤ c.toNat ∧ c.toNat ≤ 57 := Char.isDigit_iff_toNat.mp digit
  refine mem_of_toNat_mem ?_
  simp
  omega

theorem handDigit_facts (digit : c.isDigit = true) :
    isNumeral (handDigit c) = true ∧ leftDigit (handDigit c) = c.toNat - '0'.toNat := by
  have known : ['0', '1', '2', '3', '4', '5', '6', '7', '8', '9'].all (fun c =>
      isNumeral (handDigit c) = true ∧ leftDigit (handDigit c) = c.toNat - '0'.toNat) = true := by
    decide
  exact of_decide_eq_true (all_eq_true.mp known c (mem_of_isDigit digit))

theorem plainDigit_inverse (digit : isNumeral c = true) :
    (plainDigit c).isDigit = true ∧ handDigit (plainDigit c) = c := by
  have known : ['1', '2', '3', '4', '5', 'a', 'b', 'c', 'd', '@'].all (fun c =>
      (plainDigit c).isDigit = true ∧ handDigit (plainDigit c) = c) = true := by
    decide
  exact of_decide_eq_true (all_eq_true.mp known c (mem_of_isNumeral digit))

theorem all_isNumeral_map (digital : digits.all Char.isDigit = true) :
    (digits.map handDigit).all isNumeral = true := by
  rw [all_map, all_eq_true]
  exact fun c inside => (handDigit_facts (all_eq_true.mp digital c inside)).1

/-- Written otherwise, the digits denote the same number. -/
theorem leftNumber_map (digital : digits.all Char.isDigit = true) :
    leftNumber (digits.map handDigit) = Nat.ofDigitChars 10 digits 0 := by
  -- Both go through the digits with the value so far.
  have step : ∀ (digits : List Char) (value : Nat), digits.all Char.isDigit = true →
      (digits.map handDigit).foldl (fun value digit => 10 * value + leftDigit digit) value =
        Nat.ofDigitChars 10 digits value := by
    intro digits
    induction digits with
    | nil => exact fun _ _ => rfl
    | cons c digits ih =>
      intro value digital
      rw [all_cons, Bool.and_eq_true] at digital
      rw [map_cons, foldl_cons, (handDigit_facts digital.1).2, ih _ digital.2]
      rfl
  exact step digits 0 digital

theorem isDigit_toDigits (number : Nat) : (Nat.toDigits 10 number).all Char.isDigit = true :=
  all_eq_true.mpr fun _ inside => Nat.isDigit_of_mem_toDigits (by decide) (by decide) inside

end Digits

end LeftHand
