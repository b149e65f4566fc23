import LeftHand.Proofs.Ast.Unplaced
import LeftHand.Proofs.Grammar.Cursor
import LeftHand.Proofs.Grammar.Lookahead

/-!
Texts that are words with single spaces between them: what a terminal takes at a word depends on
that word alone.
-/

namespace LeftHand

open List

/-- Words, each behind a space. -/
def gapped (words : List (List Char)) : List Char :=
  words.flatMap (' ' :: ·)

/-- Words with one space between neighbours. -/
def spaced : List (List Char) → List Char
  | [] => []
  | word :: words => word ++ gapped words

/-- A word is typed with the left hand, or it is a string. -/
def IsSolid (word : List Char) : Prop :=
  (word ≠ [] ∧ word.all isLeftHand = true) ∨
    ∃ body, body.all isInside = true ∧ word = '`' :: body ++ ['`']

/-- Words are all solid. -/
def AllSolid (words : List (List Char)) : Prop :=
  ∀ word ∈ words, IsSolid word

section Solid

variable {words more : List (List Char)} {word : List Char}

theorem allSolid_nil : AllSolid [] :=
  fun _ inside => absurd inside not_mem_nil

theorem AllSolid.append (first : AllSolid words) (others : AllSolid more) : AllSolid (words ++ more) :=
  forall_mem_append.mpr ⟨first, others⟩

theorem AllSolid.cons (first : IsSolid word) (others : AllSolid words) : AllSolid (word :: words) :=
  forall_mem_cons.mpr ⟨first, others⟩

theorem isSolid_of_typed (typed : (!word.isEmpty && word.all isLeftHand) = true) : IsSolid word := by
  rw [Bool.and_eq_true] at typed
  refine .inl ⟨?_, typed.2⟩
  rintro rfl
  cases typed.1

theorem AllSolid.typed (typed : (!word.isEmpty && word.all isLeftHand) = true) (others : AllSolid words) :
    AllSolid (word :: words) :=
  .cons (isSolid_of_typed typed) others

end Solid

/-- What may follow a word: nothing, or a space and more. -/
def IsTail (rest : List Char) : Prop :=
  rest = [] ∨ ∃ more, rest = ' ' :: more

theorem isTail_gapped (words : List (List Char)) : IsTail (gapped words) := by
  cases words with
  | nil => exact .inl rfl
  | cons word words => exact .inr ⟨word ++ gapped words, rfl⟩

section Local

variable {word rest piece out left : List Char} {before : Option Char}

/-- A space looks like the end of the text. -/
theorem looksAlike_of_isTail (tail : IsTail rest) : LooksAlike (left ++ rest) left := by
  cases left with
  | cons c left => exact ⟨rfl, rfl, rfl⟩
  | nil =>
    rcases tail with rfl | ⟨more, rfl⟩
    · exact ⟨rfl, rfl, rfl⟩
    · have noWord : isWordChar ' ' = false := by
        rw [← Bool.not_eq_true, isWordChar_iff (by decide)]
        decide
      exact ⟨rfl, rfl, noWord⟩

theorem not_mem_of_isLeftHand (typed : piece.all isLeftHand = true) : ' ' ∉ piece := by
  intro inside
  have space := all_eq_true.mp typed ' ' inside
  rw [isLeftHand_iff, isLeftLetter_iff] at space
  simp at space

theorem body_unique {body other more out : List Char} (inside : body.all isInside = true)
    (also : other.all isInside = true) (same : body ++ '`' :: more = other ++ '`' :: out) :
    body = other ∧ more = out := by
  have one := takeWhile_eq_and_dropWhile_eq.mpr
    ⟨rfl, inside, show ('`' :: more).head?.any isInside = false from rfl⟩
  have two := takeWhile_eq_and_dropWhile_eq.mpr
    ⟨same, also, show ('`' :: out).head?.any isInside = false from rfl⟩
  exact ⟨one.1.symm.trans two.1, (List.cons.inj (one.2.symm.trans two.2)).2⟩

/-- What a terminal takes at a word does not reach beyond the word. -/
theorem exists_left_of_take? {kind : Terminal} (solid : IsSolid word) (tail : IsTail rest)
    (taken : kind.spelling.take? before (word ++ rest) = some (piece, out)) :
    ∃ left, word = piece ++ left ∧ out = left ++ rest := by
  have cut := take?_append taken
  rcases Terminal.take?_cases taken with ⟨_, body, inside, rfl⟩ | ⟨_, typed⟩
  · rcases solid with ⟨filled, typed⟩ | ⟨whole, all, rfl⟩
    · -- A word that is typed with the left hand does not start with a backtick.
      cases word with
      | nil => exact absurd rfl filled
      | cons c word =>
        obtain ⟨rfl, _⟩ := List.cons.inj cut
        cases (all_eq_true.mp typed '`' mem_cons_self)
    · obtain ⟨rfl, rfl⟩ := body_unique all inside
        (show whole ++ '`' :: rest = body ++ '`' :: out by simpa using cut)
      exact ⟨[], by simp, rfl⟩
  · -- Other pieces have no spaces.
    refine (append_eq_append_of_head ?_).mp cut
    rintro c starts inside
    rcases tail with rfl | ⟨more, rfl⟩
    · cases starts
    · cases starts
      exact not_mem_of_isLeftHand typed inside

/-- What a terminal takes at a word depends on the word alone. -/
theorem take?_append_iff (kind : Terminal) (solid : IsSolid word) (tail : IsTail rest) :
    kind.spelling.take? before (word ++ rest) = some (piece, out) ↔
      ∃ left, kind.spelling.take? before word = some (piece, left) ∧ out = left ++ rest := by
  constructor
  · intro taken
    obtain ⟨left, rfl, rfl⟩ := exists_left_of_take? solid tail taken
    rw [append_assoc] at taken
    exact ⟨left, take?_of_looksAlike taken (looksAlike_of_isTail tail), rfl⟩
  · rintro ⟨left, taken, rfl⟩
    obtain rfl := take?_append taken
    rw [append_assoc]
    exact take?_of_looksAlike taken (looksAlike_of_isTail tail).symm

theorem take?_nil (kind : Terminal) : kind.spelling.take? before [] = none := by
  cases taken : kind.spelling.take? before [] with
  | none => rfl
  | some found =>
    obtain ⟨piece, out⟩ := found
    obtain ⟨last, ends, _⟩ := Cursor.exists_last taken
    have empty := (append_eq_nil_iff.mp (take?_append taken).symm).1
    rw [empty] at ends
    cases ends

end Local

theorem IsSolid.head?_isGap {word : List Char} (solid : IsSolid word) (rest : List Char) :
    (word ++ rest).head?.any Cursor.isGap = false := by
  rcases solid with ⟨filled, typed⟩ | ⟨body, _, rfl⟩
  · cases word with
    | nil => exact absurd rfl filled
    | cons c word =>
      have first := all_eq_true.mp typed c mem_cons_self
      rw [isLeftHand_iff, isLeftLetter_iff] at first
      rw [cons_append, head?_cons, Option.any_some, ← Bool.not_eq_true, isGap_iff]
      omega
  · rfl

namespace Cursor

/-- Behind the gap at a place there are some words, the first of them apart from what stands
before. -/
structure Faces (here : Cursor) (words : List (List Char)) : Prop where
  solid : AllSolid words
  rest : here.skipGap.rest = spaced words
  isApart : words ≠ [] → here.skipGap.before.any isJoining = false

variable {here there : Cursor} {word : List Char} {words : List (List Char)} {kind : Terminal}

theorem skipGap_of_head? (solid : here.rest.head?.any isGap = false) : here.skipGap = here := by
  obtain ⟨none, all⟩ := takeWhile_eq_and_dropWhile_eq.mpr
    ⟨(nil_append here.rest).symm, rfl, solid⟩
  rw [skipGap, none, all, after_nil]

theorem faces_start (solid : AllSolid words) : (start (spaced words)).Faces words := by
  have still : (start (spaced words)).skipGap = start (spaced words) := by
    refine skipGap_of_head? ?_
    cases words with
    | nil => rfl
    | cons word words => exact (solid word mem_cons_self).head?_isGap _
  refine ⟨solid, ?_, ?_⟩
  · rw [still]
    rfl
  · intro _
    rw [still]
    rfl

theorem faces_after (solid : AllSolid words) : (here.after word (gapped words)).Faces words := by
  cases words with
  | nil => exact ⟨solid, rfl, fun filled => absurd rfl filled⟩
  | cons next words =>
    obtain ⟨gap, behind⟩ := takeWhile_eq_and_dropWhile_eq.mpr
      ⟨show gapped (next :: words) = [' '] ++ (next ++ gapped words) from rfl, rfl,
        (solid next mem_cons_self).head?_isGap _⟩
    refine ⟨solid, behind, ?_⟩
    intro _
    change ((List.takeWhile isGap (gapped (next :: words))).getLast?.or
      (here.after word (gapped (next :: words))).before).any isJoining = false
    rw [gap]
    rfl

theorem Faces.take?_iff (faces : here.Faces (word :: words)) {token : Token} :
    here.take? kind = some (token, there) ↔
      ∃ piece left, kind.spelling.take? none word = some (piece, left) ∧
        token = ⟨kind, piece, here.skipGap.place⟩ ∧
          there = here.skipGap.after piece (left ++ gapped words) := by
  have lone : here.skipGap.before.any isJoining = Option.any isJoining none :=
    faces.isApart (cons_ne_nil _ _)
  rw [take?_eq_some, take?_before lone, faces.rest]
  have solid := faces.solid word mem_cons_self
  constructor
  · rintro ⟨piece, out, taken, rfl, rfl⟩
    obtain ⟨left, found, rfl⟩ := (take?_append_iff kind solid (isTail_gapped words)).mp taken
    exact ⟨piece, left, found, rfl, rfl⟩
  · rintro ⟨piece, left, found, rfl, rfl⟩
    exact ⟨piece, _, (take?_append_iff kind solid (isTail_gapped words)).mpr ⟨left, found, rfl⟩,
      rfl, rfl⟩

theorem Faces.take?_nil (faces : here.Faces []) : here.take? kind = none := by
  rw [take?, faces.rest, spaced, LeftHand.take?_nil]
  rfl

theorem Faces.take?_eq_none (faces : here.Faces (word :: words))
    (refused : kind.spelling.take? none word = none) : here.take? kind = none := by
  cases taken : here.take? kind with
  | none => rfl
  | some found =>
    obtain ⟨_, _, some, _⟩ := faces.take?_iff.mp taken
    rw [refused] at some
    cases some

theorem Faces.exists_take? (faces : here.Faces (word :: words))
    (whole : kind.spelling.take? none word = some (word, [])) :
    ∃ token there, here.take? kind = some (token, there) ∧ token.unplaced = ⟨kind, word, 0⟩ ∧
      there.Faces words :=
  ⟨_, _, faces.take?_iff.mpr ⟨word, [], whole, rfl, rfl⟩, rfl,
    faces_after fun word inside => faces.solid word (mem_cons_of_mem _ inside)⟩

end Cursor

end LeftHand
