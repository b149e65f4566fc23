import LeftHand.Proofs.Source.Literals
import LeftHand.Proofs.Source.Nodes

/-! Numbers denote what they spell. -/

namespace LeftHand

open List

/-- Decimal digits that spell a number, with any zeros before it. -/
structure Spells (digits : List Char) (number : Nat) : Prop where
  filled : digits ≠ []
  digital : digits.all Char.isDigit = true
  value : Nat.ofDigitChars 10 digits 0 = number

/-- The number of a node is neither negative nor too large. -/
def IsInRange (kind : NodeKind) (_ : Pos) (values : List Datum) : Prop :=
  kind = .decimal → ∃ value : Int, values = [.int value] ∧ 0 ≤ value ∧ value ≤ 2 ^ 63 - 1

section Digits

variable {c : Char} {digits : List Char} {number : Nat}

/-- Every number has a spelling. -/
theorem spells_toDigits (number : Nat) : Spells (Nat.toDigits 10 number) number where
  filled := Nat.toDigits_ne_nil
  digital := isDigit_toDigits number
  value := Nat.ofDigitChars_ten_toDigits

theorem exists_spells (filled : digits ≠ []) (digital : digits.all isNumeral = true) :
    ∃ number spelled, Spells spelled number ∧ digits = spelled.map handDigit := by
  refine ⟨_, digits.map plainDigit, ⟨by simpa using filled, ?_, rfl⟩, ?_⟩
  · rw [all_map, all_eq_true]
    exact fun c inside => (plainDigit_inverse (all_eq_true.mp digital c inside)).1
  · calc digits
      _ = digits.map id := (map_id digits).symm
      _ = digits.map (handDigit ∘ plainDigit) := map_congr_left fun c inside =>
        (plainDigit_inverse (all_eq_true.mp digital c inside)).2.symm
      _ = (digits.map plainDigit).map handDigit := map_map.symm

end Digits

section Range

variable {token : Token} {item : Item} {text : List Char} {value : Int}

theorem isAboutNumbers_isInRange : IsAboutNumbers IsInRange where
  other _ _ _ other isNumber := absurd isNumber other
  zero _ _ := ⟨0, rfl, by decide, by decide⟩

theorem nonneg_of_readNumeral (unsigned : '-' ∉ text) (read : readNumeral text = .ok value) :
    0 ≤ value := by
  have suffix {rest : List Char} (left : text.dropWhile isNumeralBlank = '-' :: rest) : '-' ∈ text :=
    (dropWhile_sublist isNumeralBlank).subset (left ▸ mem_cons_self)
  -- Only behind a minus sign the value is made negative.
  rw [readNumeral] at read
  split at read
  · obtain ⟨number, _, rfl⟩ := map_eq_ok.mp read
    exact Int.natCast_nonneg number
  · rename_i left
    exact absurd (suffix left) unsigned
  · obtain ⟨number, _, rfl⟩ := map_eq_ok.mp read
    exact Int.natCast_nonneg number

/-- What a token makes has no numbers out of range. -/
theorem inRange_of_construct (spelled : token.IsSpelled)
    (made : token.kind.construct token.word = .ok item) (kind : NodeKind) (pos : Pos) (values : List Datum)
    (member : .node kind pos values ∈ item.nodes) : IsInRange kind pos values := by
  unfold Terminal.construct at made
  split at made
  · -- A number has no sign between its marks.
    rename_i isNumber
    obtain ⟨before, text, rest, taken⟩ := spelled
    rw [isNumber] at taken
    obtain ⟨digits, _, digital, piece, _⟩ := take?_number.mp taken
    have unsigned : '-' ∉ digits.map plainDigit := by
      intro inside
      obtain ⟨c, member, same⟩ := mem_map.mp inside
      exact (plainDigit_facts (all_eq_true.mp digital c member)).2.2.2.2 same
    have text : token.word.text.toList = '%' :: 'd' :: digits ++ ['!', 'd'] := by
      rw [← piece]
      exact String.toList_ofList
    obtain ⟨value, read, made⟩ := bind_eq_ok.mp made
    obtain ⟨_, demanded, made⟩ := bind_eq_ok.mp made
    cases made
    rw [text, integerValue, withoutEnds_number] at read
    have nonneg := nonneg_of_readNumeral unsigned (mapError_eq_ok.mp read)
    -- The upper bound is demanded.
    obtain ⟨-, small⟩ : minInteger ≤ value ∧ value ≤ maxInteger := by simpa [demand] using demanded
    obtain ⟨rfl, rfl, rfl⟩ : kind = .decimal ∧ pos = token.word.pos ∧ values = [.int value] := by
      simpa [Item.nodes, Item.toDatum, Expr.toDatum, Datum.nodes] using member
    exact fun _ => ⟨value, rfl, nonneg, small⟩
  all_goals
    cases made
    rintro rfl
    simp [Item.nodes, Item.toDatum, Expr.toDatum, Ident.toDatum, Datum.nodes] at member

end Range

section Main

/-- Numbers denote what they spell. Every spelling of a number that has not too many digits is
written as a number of a program, which is read as this number and refused if it is too large;
numbers are written in no other way; and no number of a program is negative or too large. -/
theorem integers_denote_spelling :
    (∀ number, ∃ digits, Spells digits number) ∧
    (∀ number digits, Spells digits number → digits.length ≤ maxDigits →
      let text := numberWord (digits.map handDigit)
      (∀ before rest, Terminal.integer.spelling.take? before (text ++ rest) = some (text, rest)) ∧
        integerValue text = .ok number ∧
          ∀ word : Word, word.text = .ofList text → Terminal.integer.construct word =
            if number ≤ 2 ^ 63 - 1 then .ok (.expr (.decimal word.pos number))
            else .error .mismatch) ∧
    (∀ before text piece rest, Terminal.integer.spelling.take? before text = some (piece, rest) →
      ∃ number digits, Spells digits number ∧ piece = numberWord (digits.map handDigit)) ∧
    ∀ text program, readProgram text = .ok program → ∀ pos values,
      (Datum.node .decimal pos values).Within program.toDatum →
        ∃ value : Int, values = [.int value] ∧ 0 ≤ value ∧ value ≤ 2 ^ 63 - 1 := by
  refine ⟨fun number => ⟨_, spells_toDigits number⟩, ?_, ?_, ?_⟩
  · intro number digits spells short text
    have filled : digits.map handDigit ≠ [] := by simpa using spells.filled
    have digital := all_isNumeral_map spells.digital
    -- The digits are read as they are written, and that is as they were spelled.
    have value : leftNumber (digits.map handDigit) = number :=
      (leftNumber_map spells.digital).trans spells.value
    rw [← length_map handDigit] at short
    refine ⟨fun before rest => ?_, ?_, fun word spelled => ?_⟩
    · exact take?_number.mpr ⟨_, filled, digital, rfl, rfl⟩
    · rw [← value]
      exact integerValue_eq filled digital short
    · rw [construct_integer word filled digital short spelled, value]
      have large : maxInteger < (number : Int) ↔ ¬ number ≤ 2 ^ 63 - 1 := by
        rw [maxInteger]
        omega
      rw [if_congr large rfl rfl, ite_not]
  · intro before text piece rest taken
    obtain ⟨digits, filled, digital, rfl, _⟩ := take?_number.mp taken
    obtain ⟨number, spelled, spells, rfl⟩ := exists_spells filled digital
    exact ⟨number, spelled, spells, rfl⟩
  · intro text program read pos values within
    have all := readProgram_all isAboutNumbers_isInRange (fun _ spelled _ => inRange_of_construct spelled)
      read
    exact all _ _ _ within rfl

/-- Zeros before the largest number do not count, and the number behind it is refused. A number
under a minus sign is subtracted from a zero, and both are in range. -/
theorem integers_denote_spelling_largest :
    let largest := "%d@@d2233b2@3ac54bb5c@b!d".toList
    let larger := "%dd2233b2@3ac54bb5c@c!d".toList
    let text := "def v@1d f %s sf@ %d1@!d$ !s".toList
    (Terminal.integer.spelling.take? none (largest ++ ['d']) = some (largest, ['d']) ∧
      integerValue largest = .ok 9223372036854775807 ∧
        Terminal.integer.construct ⟨"INTEGER", .ofList largest, some 1, some 3⟩ =
          .ok (.expr (.decimal ⟨1, 3⟩ 9223372036854775807))) ∧
      (integerValue larger = .ok 9223372036854775808 ∧
        Terminal.integer.construct ⟨"INTEGER", .ofList larger, none, none⟩ = .error .mismatch) ∧
      ∃ program, readProgram text = .ok program ∧ ∀ pos values,
        (Datum.node .decimal pos values).Within program.toDatum →
          ∃ value : Int, values = [.int value] ∧ 0 ≤ value ∧ value ≤ 2 ^ 63 - 1 := by
  intro largest larger text
  obtain ⟨_, denotes, _, inRange⟩ := integers_denote_spelling
  have spells : Spells "009223372036854775807".toList 9223372036854775807 :=
    ⟨by decide, by decide, by decide⟩
  have spellsMore : Spells "9223372036854775808".toList 9223372036854775808 :=
    ⟨by decide, by decide, by decide⟩
  obtain ⟨taken, value, construct⟩ := denotes _ _ spells (by decide)
  obtain ⟨_, more, refused⟩ := denotes _ _ spellsMore (by decide)
  have same : numberWord ("009223372036854775807".toList.map handDigit) = largest := by decide
  have sameMore : numberWord ("9223372036854775808".toList.map handDigit) = larger := by decide
  rw [same] at taken value construct
  rw [sameMore] at more refused
  obtain ⟨program, read, _⟩ : ∃ program, readProgram text = .ok program ∧ True :=
    exists_ok_of_any (by decide +kernel)
  exact ⟨⟨taken none ['d'], value, construct _ rfl⟩, ⟨more, refused _ rfl⟩, program, read,
    inRange text program read⟩

end Main

end LeftHand
