import LeftHand.Grammar.Cursor

/-! What each spelling takes from a text, as one equivalence per spelling. -/

namespace LeftHand

variable {text piece rest : List Char}

open List

section Characters

variable {c : Char}

theorem isJoining_iff : isJoining c = true ↔
    (65 ≤ c.toNat ∧ c.toNat ≤ 90) ∨ (97 ≤ c.toNat ∧ c.toNat ≤ 122) ∨
      (48 ≤ c.toNat ∧ c.toNat ≤ 57) ∨ c.toNat = 64 := by
  -- The letters and digits as ranges of code points.
  have ranges : isJoining c = (decide (c.val ≥ 65 ∧ c.val ≤ 90) || (c.val ≥ 97 && c.val ≤ 122) ||
      (c.val ≥ 48 && c.val ≤ 57) || c == '@') := rfl
  rw [ranges]
  simp [UInt32.le_iff_toNat_le, ← Char.toNat_inj, or_assoc]

theorem isLeftLetter_iff : isLeftLetter c = true ↔
    (65 ≤ c.toNat ∧ c.toNat ≤ 71) ∨ (81 ≤ c.toNat ∧ c.toNat ≤ 84) ∨
      (86 ≤ c.toNat ∧ c.toNat ≤ 88) ∨ c.toNat = 90 ∨ (97 ≤ c.toNat ∧ c.toNat ≤ 103) ∨
        (113 ≤ c.toNat ∧ c.toNat ≤ 116) ∨ (118 ≤ c.toNat ∧ c.toNat ≤ 120) ∨ c.toNat = 122 := by
  simp [isLeftLetter, Char.le_def, UInt32.le_iff_toNat_le, ← Char.toNat_inj, or_assoc]

theorem isNameChar_iff : isNameChar c = true ↔
    isLeftLetter c = true ∨ c.toNat = 64 ∨ (49 ≤ c.toNat ∧ c.toNat ≤ 52) := by
  simp [isNameChar, Char.le_def, UInt32.le_iff_toNat_le, ← Char.toNat_inj, or_assoc]

theorem isNumeral_iff : isNumeral c = true ↔
    (49 ≤ c.toNat ∧ c.toNat ≤ 53) ∨ (97 ≤ c.toNat ∧ c.toNat ≤ 100) ∨ c.toNat = 64 := by
  simp [isNumeral, Char.le_def, UInt32.le_iff_toNat_le, ← Char.toNat_inj, or_assoc]

theorem isGap_iff : Cursor.isGap c = true ↔ c.toNat = 32 ∨ c.toNat = 9 := by
  simp [Cursor.isGap, ← Char.toNat_inj]

theorem isWordChar_iff (ascii : c.toNat < 128) : isWordChar c = true ↔
    (48 ≤ c.toNat ∧ c.toNat ≤ 57) ∨ (65 ≤ c.toNat ∧ c.toNat ≤ 90) ∨ c.toNat = 95 ∨
      (97 ≤ c.toNat ∧ c.toNat ≤ 122) := by
  -- The ranges increase, so the ones that start above stay out of sight.
  obtain ⟨tail, steps⟩ : ∃ tail,
      wordSteps = 48 :: 9 :: 8 :: 25 :: 5 :: 0 :: 2 :: 25 :: 48 :: 0 :: tail := ⟨_, rfl⟩
  rw [isWordChar, steps]
  simp only [inSteps]
  split <;> simp <;> omega

theorem isNameChar_of_isLeftLetter (letter : isLeftLetter c = true) : isNameChar c = true :=
  isNameChar_iff.mpr (.inl letter)

theorem isJoining_of_isNameChar (inside : isNameChar c = true) : isJoining c = true := by
  rw [isNameChar_iff, isLeftLetter_iff] at inside
  rw [isJoining_iff]
  omega

end Characters

section Pieces

variable {word text piece rest : List Char} {before : Option Char} {words : List (List Char)}

/-- A text is cut behind the longest run of characters of a kind. -/
theorem takeWhile_eq_and_dropWhile_eq {p : Char → Bool} :
    text.takeWhile p = piece ∧ text.dropWhile p = rest ↔
      text = piece ++ rest ∧ piece.all p = true ∧ rest.head?.any p = false := by
  constructor
  · rintro ⟨rfl, rfl⟩
    refine ⟨takeWhile_append_dropWhile.symm, all_takeWhile, ?_⟩
    -- The first character behind the run is not of the kind.
    cases behind : text.dropWhile p with
    | nil => rfl
    | cons c more =>
      have stops := head?_dropWhile_not p text
      rw [behind] at stops
      simpa using stops
  · rintro ⟨rfl, run, stop⟩
    rw [all_eq_true] at run
    rw [takeWhile_append_of_pos run, dropWhile_append_of_pos run]
    cases rest with
    | nil => simp
    | cons c more =>
      simp only [head?_cons, Option.any_some] at stop
      simp [stop]

/-- A text is cut behind such a run in one way only. -/
theorem cut_unique {p : Char → Bool} {other more : List Char} (run : piece.all p = true)
    (also : other.all p = true) (stop : rest.head?.any p = false) (stopToo : more.head?.any p = false)
    (same : piece ++ rest = other ++ more) : piece = other ∧ rest = more := by
  have one := takeWhile_eq_and_dropWhile_eq.mpr ⟨rfl, run, stop⟩
  have two := takeWhile_eq_and_dropWhile_eq.mpr ⟨same, also, stopToo⟩
  exact ⟨one.1.symm.trans two.1, one.2.symm.trans two.2⟩

theorem afterWord?_eq_some : afterWord? word text = some rest ↔ text = word ++ rest := by
  induction word generalizing text with
  | nil => simp [afterWord?]
  | cons w word ih =>
    cases text with
    | nil => simp [afterWord?]
    | cons c text =>
      by_cases same : w = c
      · simp [afterWord?, same, ih]
      · simp [afterWord?, same, Ne.symm same]

theorem take?_plain : (Spelling.plain word).take? before text = some (piece, rest) ↔
    piece = word ∧ text = word ++ rest := by
  simp only [Spelling.take?, Option.map_eq_some_iff, afterWord?_eq_some, Prod.mk.injEq]
  constructor
  · rintro ⟨_, cut, rfl, rfl⟩
    exact ⟨rfl, cut⟩
  · rintro ⟨rfl, cut⟩
    exact ⟨rest, cut, rfl, rfl⟩

/-- A word that stands apart is the piece, and neither side joins it. -/
theorem of_take?_apart (taken : (Spelling.apart words).take? before text = some (piece, rest)) :
    before.any isJoining = false ∧ piece ∈ words ∧ text = piece ++ rest ∧
      rest.head?.any isJoining = false := by
  simp only [Spelling.take?] at taken
  split at taken
  · cases taken
  · rename_i isApart
    obtain ⟨word, member, found⟩ := exists_of_findSome?_eq_some taken
    split at found
    · rename_i follows
      split at found
      · cases found
      · rename_i ends
        cases found
        exact ⟨by simpa using isApart, member, afterWord?_eq_some.mp follows, by simpa using ends⟩
    · cases found

/-- A word that stands apart is taken exactly where neither side joins it, if none of the other
words starts like it. -/
theorem take?_apart (clear : ∀ one ∈ words, ∀ other ∈ words, one <+: other → one = other) :
    (Spelling.apart words).take? before text = some (piece, rest) ↔
      before.any isJoining = false ∧ piece ∈ words ∧ text = piece ++ rest ∧
        rest.head?.any isJoining = false := by
  refine ⟨of_take?_apart, ?_⟩
  rintro ⟨isApart, member, rfl, ends⟩
  cases taken : (Spelling.apart words).take? before (piece ++ rest) with
  | none =>
    -- The word itself would be found.
    rw [Spelling.take?, if_neg (by rw [isApart]; decide), findSome?_eq_none_iff] at taken
    have absent := taken piece member
    have follows : afterWord? piece (piece ++ rest) = some rest := afterWord?_eq_some.mpr rfl
    simp only [follows, ends] at absent
    cases absent
  | some found =>
    obtain ⟨other, left⟩ := found
    obtain ⟨_, among, cut, _⟩ := of_take?_apart taken
    have same : piece = other := by
      rcases prefix_or_prefix_of_prefix ⟨rest, rfl⟩ ⟨left, cut.symm⟩ with shorter | longer
      · exact clear piece member other among shorter
      · exact (clear other among piece member longer).symm
    subst same
    rw [append_cancel_left cut]

theorem take?_number : Spelling.number.take? before text = some (piece, rest) ↔
    ∃ digits, digits ≠ [] ∧ digits.all isNumeral = true ∧
      piece = '%' :: 'd' :: digits ++ ['!', 'd'] ∧ text = piece ++ rest := by
  constructor
  · intro taken
    simp only [Spelling.take?] at taken
    split at taken
    · rename_i inside
      split at taken
      · rename_i d digits behind run stop
        cases taken
        obtain ⟨cut, all, _⟩ := takeWhile_eq_and_dropWhile_eq.mp ⟨run, stop⟩
        exact ⟨d :: digits, cons_ne_nil _ _, all, rfl, by simp [cut]⟩
      · cases taken
    · cases taken
  · rintro ⟨digits, filled, all, rfl, rfl⟩
    -- The mark behind the digits is none, so the run of digits ends there.
    obtain ⟨run, stop⟩ := takeWhile_eq_and_dropWhile_eq.mpr
      ⟨rfl, all, show ('!' :: 'd' :: rest).head?.any isNumeral = false by simp [isNumeral]⟩
    cases digits with
    | nil => exact absurd rfl filled
    | cons d digits =>
      simp only [cons_append] at run stop
      simp [Spelling.take?, run, stop]

/-- The characters that a string may hold. -/
def isInside (c : Char) : Bool :=
  c != '`' && c != '\n'

theorem take?_quoted : Spelling.quoted.take? before text = some (piece, rest) ↔
    ∃ body, body.all isInside = true ∧ piece = '`' :: body ++ ['`'] ∧ text = piece ++ rest := by
  constructor
  · intro taken
    simp only [Spelling.take?] at taken
    split at taken
    · rename_i opened
      split at taken
      · rename_i after stop
        cases taken
        obtain ⟨cut, all, _⟩ := takeWhile_eq_and_dropWhile_eq.mp ⟨rfl, stop⟩
        exact ⟨_, all, rfl, by simpa using cut⟩
      · cases taken
    · cases taken
  · rintro ⟨body, all, rfl, rfl⟩
    obtain ⟨run, stop⟩ := takeWhile_eq_and_dropWhile_eq.mpr
      ⟨rfl, all, show ('`' :: rest).head?.any isInside = false by simp [isInside]⟩
    have opened : '`' :: body ++ ['`'] ++ rest = '`' :: (body ++ '`' :: rest) := by simp
    have same : isInside = fun c => c != '`' && c != '\n' := rfl
    rw [same] at run stop
    rw [opened, Spelling.take?]
    simp [run, stop]

theorem take?_name : Spelling.name.take? before text = some (piece, rest) ↔
    (∃ first more, piece = first :: more ∧ isLeftLetter first = true ∧
      more.all isNameChar = true) ∧ text = piece ++ rest ∧ rest.head?.any isNameChar = false ∧
        startsReserved text = false := by
  constructor
  · intro taken
    simp only [Spelling.take?] at taken
    split at taken
    · rename_i first behind
      split at taken
      · rename_i starts
        rw [Bool.and_eq_true, Bool.not_eq_true'] at starts
        cases taken
        obtain ⟨cut, all, stop⟩ := takeWhile_eq_and_dropWhile_eq.mp ⟨rfl, rfl⟩
        exact ⟨⟨first, _, rfl, starts.1, all⟩, congrArg (first :: ·) cut, stop, starts.2⟩
      · cases taken
    · cases taken
  · rintro ⟨⟨first, more, rfl, letter, all⟩, rfl, stop, free⟩
    obtain ⟨run, behind⟩ := takeWhile_eq_and_dropWhile_eq.mpr ⟨rfl, all, stop⟩
    rw [cons_append] at free ⊢
    simp [Spelling.take?, letter, free, run, behind]

theorem take?_append {spelling : Spelling} (taken : spelling.take? before text = some (piece, rest)) :
    text = piece ++ rest := by
  cases spelling with
  | plain word =>
    obtain ⟨rfl, cut⟩ := take?_plain.mp taken
    exact cut
  | apart words => exact (of_take?_apart taken).2.2.1
  | number =>
    obtain ⟨_, _, _, _, cut⟩ := take?_number.mp taken
    exact cut
  | quoted =>
    obtain ⟨_, _, _, cut⟩ := take?_quoted.mp taken
    exact cut
  | name => exact (take?_name.mp taken).2.1

end Pieces

/-- The fixed words of a spelling. -/
def Spelling.words : Spelling → List (List Char)
  | plain word => [word]
  | apart words => words
  | number | quoted | name => []

/-- What a terminal of fixed words takes is one of its words. -/
theorem mem_words_of_take? {spelling : Spelling} {before : Option Char}
    (taken : spelling.take? before text = some (piece, rest)) (fixed : spelling.words ≠ []) :
    piece ∈ spelling.words := by
  cases spelling with
  | plain word =>
    obtain ⟨rfl, _⟩ := take?_plain.mp taken
    exact mem_singleton_self _
  | apart words => exact (of_take?_apart taken).2.1
  | number | quoted | name => exact absurd rfl fixed

/-- The characters that programs are made of outside gaps and strings. -/
def isLeftHand (c : Char) : Bool :=
  isLeftLetter c || ('1' ≤ c && c ≤ '5') || c == '@' || c == '#' || c == '$' || c == '%' || c == '!'

theorem isLeftHand_iff {c : Char} : isLeftHand c = true ↔
    isLeftLetter c = true ∨ (49 ≤ c.toNat ∧ c.toNat ≤ 53) ∨ c.toNat = 64 ∨ c.toNat = 35 ∨
      c.toNat = 36 ∨ c.toNat = 37 ∨ c.toNat = 33 := by
  simp [isLeftHand, Char.le_def, UInt32.le_iff_toNat_le, ← Char.toNat_inj, or_assoc]

theorem isLeftHand_of_isNameChar {c : Char} (inside : isNameChar c = true) :
    isLeftHand c = true := by
  rw [isNameChar_iff, isLeftLetter_iff] at inside
  rw [isLeftHand_iff, isLeftLetter_iff]
  omega

theorem isLeftHand_of_isNumeral {c : Char} (digit : isNumeral c = true) : isLeftHand c = true := by
  rw [isNumeral_iff] at digit
  rw [isLeftHand_iff, isLeftLetter_iff]
  omega

theorem Terminal.words_leftHand (kind : Terminal) :
    ∀ word ∈ kind.spelling.words, word ≠ [] ∧ word.all isLeftHand = true := by
  cases kind <;> decide

/-- What a terminal takes is a string or typed with the left hand. -/
theorem Terminal.take?_cases {kind : Terminal} {before : Option Char}
    (taken : kind.spelling.take? before text = some (piece, rest)) :
    (kind = .string ∧ ∃ body, body.all isInside = true ∧ piece = '`' :: body ++ ['`']) ∨
      (piece ≠ [] ∧ piece.all isLeftHand = true) := by
  have solid := kind.words_leftHand
  generalize spelled : kind.spelling = spelling at taken solid
  cases spelling with
  | plain word =>
    obtain ⟨rfl, _⟩ := take?_plain.mp taken
    exact .inr (solid _ mem_cons_self)
  | apart words => exact .inr (solid _ (of_take?_apart taken).2.1)
  | number =>
    obtain ⟨digits, _, all, rfl, _⟩ := take?_number.mp taken
    refine .inr ⟨cons_ne_nil _ _, ?_⟩
    have marked : digits.all isLeftHand = true :=
      all_eq_true.mpr fun c inside =>
        isLeftHand_of_isNumeral (all_eq_true.mp all c inside)
    simp [marked]
    decide
  | quoted =>
    obtain ⟨body, all, rfl, _⟩ := take?_quoted.mp taken
    have isString : kind = .string := by cases kind <;> cases spelled; rfl
    exact .inl ⟨isString, body, all, rfl⟩
  | name =>
    obtain ⟨⟨first, more, rfl, letter, all⟩, _⟩ := take?_name.mp taken
    refine .inr ⟨cons_ne_nil _ _, ?_⟩
    rw [all_cons, isLeftHand_iff.mpr (.inl letter), Bool.true_and]
    exact all_eq_true.mpr fun c inside =>
      isLeftHand_of_isNameChar (all_eq_true.mp all c inside)

end LeftHand
