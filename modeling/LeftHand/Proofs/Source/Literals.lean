import LeftHand.Proofs.Source.Phrases

/-!
Readings of literals: numbers, strings and truth values are read as operands with their values.
-/

namespace LeftHand

open List

/-- A number as it is written: some digits, not too many to be read, for a number that is not too
large. -/
structure Numeral where
  digits : List Char
  filled : digits ≠ []
  digital : digits.all isNumeral = true
  short : digits.length ≤ maxDigits
  small : (leftNumber digits : Int) ≤ maxInteger

/-- Digits between the marks of a number. -/
def numberWord (digits : List Char) : List Char :=
  '%' :: 'd' :: digits ++ ['!', 'd']

/-- The word of a number. -/
def Numeral.word (numeral : Numeral) : List Char :=
  numberWord numeral.digits

/-- The number that a numeral denotes. -/
def Numeral.value (numeral : Numeral) : Int :=
  leftNumber numeral.digits

/-- The word of a truth value. -/
def truthWord : Bool → List Char
  | true => ['t', 'r', 'v', 'e']
  | false => ['f', 'a', '1', 's', 'e']

/-- A text that can be written as a string: it has no backtick, no line feed, no escape and no
ambiguity mark. -/
structure Quotable (text : List Char) : Prop where
  noBacktick : '`' ∉ text
  noNewline : '\n' ∉ text
  noEscape : '\\' ∉ text
  noMark : containsWord ambiguityMark text = false

instance (text : List Char) : Decidable (Quotable text) :=
  decidable_of_iff ('`' ∉ text ∧ '\n' ∉ text ∧ '\\' ∉ text ∧ containsWord ambiguityMark text = false)
    ⟨fun ⟨noBacktick, noNewline, noEscape, noMark⟩ => ⟨noBacktick, noNewline, noEscape, noMark⟩,
      fun quotable => ⟨quotable.noBacktick, quotable.noNewline, quotable.noEscape, quotable.noMark⟩⟩

/-- The word of a string. -/
def quotedWord (text : List Char) : List Char :=
  '`' :: text ++ ['`']

section Words

variable {text : List Char}

theorem Numeral.take?_word (numeral : Numeral) :
    Terminal.integer.spelling.take? none numeral.word = some (numeral.word, []) :=
  take?_number.mpr ⟨numeral.digits, numeral.filled, numeral.digital, rfl, (List.append_nil _).symm⟩

theorem take?_truthWord (value : Bool) :
    Terminal.booleanLiteral.spelling.take? none (truthWord value) = some (truthWord value, []) := by
  cases value <;> decide

theorem Quotable.take?_quotedWord (quotable : Quotable text) :
    Terminal.string.spelling.take? none (quotedWord text) = some (quotedWord text, []) := by
  refine take?_quoted.mpr ⟨text, all_eq_true.mpr ?_, rfl, (List.append_nil _).symm⟩
  intro c inside
  have noBacktick : c ≠ '`' := fun same => quotable.noBacktick (same ▸ inside)
  have noNewline : c ≠ '\n' := fun same => quotable.noNewline (same ▸ inside)
  simp [isInside, noBacktick, noNewline]

theorem Numeral.onlyFor (numeral : Numeral) : OnlyFor [.integer] numeral.word := by
  intro kind foreign
  cases kind with
  | integer => exact absurd mem_cons_self foreign
  | _ => rfl

theorem onlyFor_truthWord (value : Bool) : OnlyFor [.booleanLiteral] (truthWord value) := by
  intro kind foreign
  cases kind with
  | booleanLiteral => exact absurd mem_cons_self foreign
  | _ => cases value <;> rfl

theorem onlyFor_quotedWord (text : List Char) : OnlyFor [.string] (quotedWord text) := by
  intro kind foreign
  cases kind with
  | string => exact absurd mem_cons_self foreign
  | _ => rfl

theorem afterWord?_append {word : List Char} (clean : '`' ∉ word) :
    (afterWord? word (text ++ ['`'])).isSome = (afterWord? word text).isSome := by
  induction word generalizing text with
  | nil => rfl
  | cons w word ih =>
    have differs : ¬ w = '`' := fun same => clean (same ▸ mem_cons_self)
    cases text with
    | nil =>
      rw [nil_append]
      simp only [afterWord?]
      rw [if_neg differs]
    | cons c text =>
      rw [cons_append, afterWord?, afterWord?]
      split
      · exact ih fun inside => clean (mem_cons_of_mem _ inside)
      · rfl

/-- The backticks around a text are no part of an ambiguity mark. -/
theorem containsWord_quotedWord (text : List Char) :
    containsWord ambiguityMark (quotedWord text) = containsWord ambiguityMark text := by
  have closed : ∀ text, containsWord ambiguityMark (text ++ ['`']) = containsWord ambiguityMark text := by
    intro text
    induction text with
    | nil => rfl
    | cons c text ih =>
      rw [cons_append, containsWord, containsWord, ih, ← cons_append,
        afterWord?_append (by decide)]
  change containsWord ambiguityMark ('`' :: (text ++ ['`'])) = containsWord ambiguityMark text
  rw [containsWord, closed]
  rfl

theorem Quotable.containsWord_quotedWord (quotable : Quotable text) :
    containsWord ambiguityMark (quotedWord text) = false :=
  (LeftHand.containsWord_quotedWord text).trans quotable.noMark

theorem replacePair_of_not_mem {second replacement : Char} (clean : '\\' ∉ text) :
    replacePair '\\' second replacement text = text := by
  fun_induction replacePair '\\' second replacement text with
  | case1 _ _ _ both => exact absurd (both.1 ▸ mem_cons_self) clean
  | case2 _ _ _ _ ih => rw [ih fun inside => clean (mem_cons_of_mem _ inside)]
  | case3 => rfl

theorem Quotable.stringValue_quotedWord (quotable : Quotable text) :
    stringValue (quotedWord text) = text := by
  have inside : withoutEnds 1 (quotedWord text) = text := by
    simp [withoutEnds, quotedWord]
  rw [stringValue, inside, decodeEscapes, replacePair_of_not_mem quotable.noEscape,
    replacePair_of_not_mem quotable.noEscape, replacePair_of_not_mem quotable.noEscape]

end Words

section Readings

variable {stop : Cursor → Prop} {keep : Bool} {rest : List (List Char)}

/-- What only the terminal of a literal takes is read as an operand. -/
theorem Reads.literal {kind : Terminal} {word : List Char} {value : Expr}
    (isLiteral : kind ∈ [.integer, .string, .booleanLiteral]) (only : OnlyFor [kind] word)
    (whole : kind.spelling.take? none word = some (word, []))
    (clean : containsWord ambiguityMark word = false)
    (built : kind.construct (Token.word ⟨kind, word, 0⟩) = .ok (.expr value)) :
    Reads stop keep (.phrase .factor) (word :: rest) [.expr value] rest := by
  have facts : ∀ kind ∈ [.integer, .string, .booleanLiteral], kind.isShown = true ∧
      ([Form.phrase .literal, .phrase .nameExpr, .phrase .execExpr, .phrase .revExpr, .phrase .negExpr,
        .phrase .derefExpr, .inOrder [.token .parenStart, .phrase .expr, .token .parenEnd]].erase
          (.phrase .literal)).all (·.avoids [kind]) = true := by
    decide
  obtain ⟨isShown, avoided⟩ := facts kind isLiteral
  have token := @Reads.token stop false rest kind word (.expr value) whole clean built
  rw [Bool.false_or, if_pos isShown] at token
  have literal : Reads stop false (.phrase .literal) (word :: rest) [.expr value] rest :=
    Reads.folded .literal (token.oneToken (by decide) isLiteral only) rfl
  exact Reads.phrase .factor (literal.chooseOnly (by decide) only avoided) rfl nofun

theorem Reads.number (numeral : Numeral) :
    Reads stop keep (.phrase .factor) (numeral.word :: rest) [.expr (.decimal .start numeral.value)]
      rest := by
  refine .literal (by decide) numeral.onlyFor numeral.take?_word
    (containsWord_of_take? numeral.take?_word nofun) ?_
  rw [construct_integer _ numeral.filled numeral.digital numeral.short rfl,
    if_neg (Int.not_lt.mpr numeral.small)]
  rfl

theorem Reads.truth (value : Bool) :
    Reads stop keep (.phrase .factor) (truthWord value :: rest) [.expr (.boolean .start value)]
      rest := by
  refine .literal (by decide) (onlyFor_truthWord value) (take?_truthWord value)
    (containsWord_of_take? (take?_truthWord value) nofun) ?_
  cases value <;> rfl

theorem Reads.quoted {text : List Char} (quotable : Quotable text) :
    Reads stop keep (.phrase .factor) (quotedWord text :: rest) [.expr (.string .start (.ofList text))]
      rest := by
  refine .literal (by decide) (onlyFor_quotedWord text) quotable.take?_quotedWord
    quotable.containsWord_quotedWord ?_
  change Except.ok (Item.expr (.string .start
    (.ofList (stringValue (String.ofList (quotedWord text)).toList)))) = _
  rw [String.toList_ofList, quotable.stringValue_quotedWord]

end Readings

end LeftHand
