import LeftHand.Proofs.Grammar.Terminal

/-!
How far a terminal looks: what it takes depends on the piece that it takes, on whether the character
before it joins, and on the class of the character behind it.
-/

namespace LeftHand

open List

variable {other piece out text : List Char}

/-- Two texts start with characters of the same class, as far as terminals look. -/
structure LooksAlike (one other : List Char) : Prop where
  isJoining : one.head?.any isJoining = other.head?.any isJoining
  isNameChar : one.head?.any isNameChar = other.head?.any isNameChar
  isWordChar : one.head?.any isWordChar = other.head?.any isWordChar

theorem LooksAlike.symm {one : List Char} (alike : LooksAlike one other) : LooksAlike other one :=
  ⟨alike.isJoining.symm, alike.isNameChar.symm, alike.isWordChar.symm⟩

theorem append_eq_append_of_head {word rest : List Char}
    (foreign : ∀ c, rest.head? = some c → c ∉ piece) :
    word ++ rest = piece ++ out ↔ ∃ left, word = piece ++ left ∧ out = left ++ rest := by
  constructor
  · intro same
    rcases append_eq_append_iff.mp same with ⟨beyond, rfl, behind⟩ | ⟨left, rfl, rfl⟩
    · cases beyond with
      | nil => exact ⟨[], by simp, by simpa using behind.symm⟩
      | cons c beyond =>
        -- The piece would go on into the rest.
        refine absurd ?_ (foreign c (by rw [behind]; rfl))
        exact mem_append_right _ mem_cons_self
    · exact ⟨left, rfl, rfl⟩
  · rintro ⟨left, rfl, rfl⟩
    exact append_assoc ..

theorem named_of_reserved : ∀ word ∈ reservedWords, word.all isNameChar = true := by
  decide

theorem startsReserved_iff : startsReserved text = true ↔
    ∃ word ∈ reservedWords, ∃ out, text = word ++ out ∧
      isWordBoundary word.getLast? out.head? = true := by
  rw [startsReserved, any_eq_true]
  constructor
  · rintro ⟨word, reserved, found⟩
    cases cut : afterWord? word text with
    | none =>
      rw [cut] at found
      cases found
    | some out =>
      rw [cut] at found
      exact ⟨word, reserved, out, afterWord?_eq_some.mp cut, found⟩
  · rintro ⟨word, reserved, out, cut, boundary⟩
    refine ⟨word, reserved, ?_⟩
    rw [afterWord?_eq_some.mpr cut]
    exact boundary

/-- Whether a name starts with a reserved word depends on what follows the name by its class
alone. -/
theorem startsReserved_of_looksAlike (alike : LooksAlike out other)
    (ends : out.head?.any isNameChar = false) (reserved : startsReserved (piece ++ out) = true) :
    startsReserved (piece ++ other) = true := by
  obtain ⟨word, member, left, cut, boundary⟩ := startsReserved_iff.mp reserved
  have foreign : ∀ c, out.head? = some c → c ∉ word := by
    intro c starts inside
    rw [starts, Option.any_some, all_eq_true.mp (named_of_reserved word member) c inside] at ends
    cases ends
  obtain ⟨behind, rfl, rfl⟩ := (append_eq_append_of_head foreign).mp cut
  refine startsReserved_iff.mpr ⟨word, member, behind ++ other, append_assoc .., ?_⟩
  cases behind with
  | cons c behind => exact boundary
  | nil =>
    rw [isWordBoundary] at boundary ⊢
    rwa [nil_append, ← alike.isWordChar]

/-- Of what stands before a piece it matters only whether it joins. -/
theorem take?_before {spelling : Spelling} {before other : Option Char}
    (same : before.any isJoining = other.any isJoining) :
    spelling.take? before text = spelling.take? other text := by
  cases spelling with
  | apart words => rw [Spelling.take?, Spelling.take?, same]
  | _ => rfl

theorem Terminal.clear_words {kind : Terminal} {words : List (List Char)}
    (spelled : kind.spelling = .apart words) :
    ∀ one ∈ words, ∀ other ∈ words, one <+: other → one = other := by
  cases kind <;> cases spelled <;> decide

/-- What a terminal takes depends on what follows by its class alone. -/
theorem take?_of_looksAlike {kind : Terminal} {before : Option Char}
    (taken : kind.spelling.take? before (piece ++ out) = some (piece, out))
    (alike : LooksAlike out other) :
    kind.spelling.take? before (piece ++ other) = some (piece, other) := by
  generalize spelled : kind.spelling = spelling at taken ⊢
  cases spelling with
  | plain word =>
    obtain ⟨rfl, _⟩ := take?_plain.mp taken
    exact take?_plain.mpr ⟨rfl, rfl⟩
  | apart words =>
    have clear := kind.clear_words spelled
    obtain ⟨isApart, member, _, ends⟩ := (take?_apart clear).mp taken
    exact (take?_apart clear).mpr ⟨isApart, member, rfl, alike.isJoining ▸ ends⟩
  | number =>
    obtain ⟨digits, filled, digital, rfl, _⟩ := take?_number.mp taken
    exact take?_number.mpr ⟨digits, filled, digital, rfl, rfl⟩
  | quoted =>
    obtain ⟨body, inside, rfl, _⟩ := take?_quoted.mp taken
    exact take?_quoted.mpr ⟨body, inside, rfl, rfl⟩
  | name =>
    obtain ⟨shape, _, ends, free⟩ := take?_name.mp taken
    have stops : other.head?.any isNameChar = false := alike.isNameChar ▸ ends
    refine take?_name.mpr ⟨shape, rfl, stops, ?_⟩
    rw [← Bool.not_eq_true] at free ⊢
    exact fun reserved => free (startsReserved_of_looksAlike alike.symm stops reserved)

end LeftHand
