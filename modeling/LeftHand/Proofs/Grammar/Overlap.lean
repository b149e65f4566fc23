import LeftHand.Proofs.Grammar.Tokens
import LeftHand.Proofs.Format.Chunks
import LeftHand.Proofs.Source.Chain

/-! Where two terminals of expressions can take a token at one place. -/

namespace LeftHand

open List

variable {c : Char} {here next last : Cursor}

/-- The next character is part of a word only if it joins what stands before it. -/
def IsTame (text : List Char) : Prop :=
  ∀ c, text.head? = some c → isWordChar c = true → isJoining c = true

theorem isJoining_of_isLeftHand (typed : isLeftHand c = true) (word : isWordChar c = true) :
    isJoining c = true := by
  rw [isLeftHand_iff, isLeftLetter_iff] at typed
  have ascii : c.toNat < 128 := by omega
  rw [isWordChar_iff ascii] at word
  rw [isJoining_iff]
  omega

theorem Cursor.isTame_of_take? {there : Cursor} {kind : Terminal} {token : Token}
    (taken : here.take? kind = some (token, there)) : IsTame here.rest := by
  obtain ⟨gap, piece, rest, isGap, cut, found, _, _⟩ := take?_iff.mp taken
  intro c starts word
  rw [cut] at starts
  cases gap with
  | cons g gap =>
    obtain rfl := Option.some.inj starts
    have break_ := isBreak_of_isGap (all_eq_true.mp isGap g mem_cons_self)
    rw [(isBreak_facts break_).2.2] at word
    cases word
  | nil =>
    rcases Terminal.take?_cases found with ⟨_, body, _, rfl⟩ | ⟨filled, typed⟩
    · obtain rfl := Option.some.inj starts
      rw [(isBreak_facts (show isBreak '`' = true by decide)).2.2] at word
      cases word
    · cases piece with
      | nil => exact absurd rfl filled
      | cons d piece =>
        obtain rfl := Option.some.inj starts
        exact isJoining_of_isLeftHand (all_eq_true.mp typed d mem_cons_self) word

/-- The terminals that expressions are made of, closing brackets apart. -/
def expressionKinds : List Terminal :=
  Rule.factor.first ++ operatorKinds

/-- The words of expressions that need not stand apart. -/
def clingingKinds : List Terminal :=
  [.execWord, .negWord]

/-- The terminal that takes a mark. -/
def markKind : List Char → Terminal
  | '`' :: _ => .string
  | '$' :: _ => .lineEnd
  | '#' :: _ => .pointerMark
  | '%' :: 's' :: _ => .scopeStart
  | '%' :: 'e' :: _ => .parenStart
  | '%' :: 'd' :: _ => .integer
  | '%' :: _ => .modWord
  | '!' :: 's' :: _ => .scopeEnd
  | _ => .parenEnd

section Pieces

variable {kind other : Terminal} {before : Option Char} {text piece longer rest behind : List Char}

theorem markKind_eq (taken : kind.spelling.take? before text = some (piece, rest))
    (isMark : IsMark piece) : markKind piece = kind := by
  have words : ∀ word ∈ kind.spelling.words,
      (word ≠ [] ∧ word.all isNameChar = true) ∨ markKind word = kind := by
    cases kind <;> decide
  have of_word (member : piece ∈ kind.spelling.words) : markKind piece = kind :=
    (words piece member).resolve_left fun isRun => IsRun.not_isMark isRun isMark
  cases spelled : kind.spelling with
  | plain word => exact of_word (mem_words_of_take? taken (by rw [spelled]; exact cons_ne_nil _ _))
  | apart words =>
    refine of_word ?_
    rw [spelled] at taken ⊢
    exact (of_take?_apart taken).2.1
  | number =>
    rw [spelled] at taken
    obtain ⟨digits, _, _, rfl, _⟩ := take?_number.mp taken
    cases kind <;> cases spelled
    rfl
  | quoted =>
    rw [spelled] at taken
    obtain ⟨body, _, rfl, _⟩ := take?_quoted.mp taken
    cases kind <;> cases spelled
    rfl
  | name =>
    rw [spelled] at taken
    obtain ⟨⟨first, more, rfl, letter, named⟩, _⟩ := take?_name.mp taken
    exact absurd isMark (isRun_of_name letter named).not_isMark

theorem eq_of_isMark (first : kind.spelling.take? before text = some (piece, rest))
    (second : other.spelling.take? before text = some (longer, behind)) (isMark : IsMark piece) :
    kind = other := by
  have same := (take?_append first).symm.trans (take?_append second)
  rcases isRun_or_isMark_of_take? second with isRun | also
  · exact absurd same.symm (isRun.append_ne isMark)
  · obtain ⟨rfl, _⟩ := isMark.unique also same
    exact (markKind_eq first isMark).symm.trans (markKind_eq second isMark)

theorem mem_words_of_isRun (taken : kind.spelling.take? before text = some (piece, rest))
    (isRun : IsRun piece) (noName : kind ≠ .identifier) : piece ∈ kind.spelling.words := by
  generalize spelled : kind.spelling = spelling at taken ⊢
  cases spelling with
  | plain word => exact mem_words_of_take? taken (cons_ne_nil _ _)
  | apart words => exact (of_take?_apart taken).2.1
  | number =>
    obtain ⟨digits, filled, digital, rfl, _⟩ := take?_number.mp taken
    exact absurd (.number filled digital) isRun.not_isMark
  | quoted =>
    obtain ⟨body, inside, rfl, _⟩ := take?_quoted.mp taken
    exact absurd (.quoted inside) isRun.not_isMark
  | name =>
    have isName : kind = .identifier := by cases kind <;> cases spelled; rfl
    exact absurd isName noName

theorem joining_of_isRun (taken : kind.spelling.take? before text = some (piece, rest))
    (isRun : IsRun piece) (member : kind ∈ expressionKinds) (free : kind ∉ clingingKinds)
    (noName : kind ≠ .identifier) : rest.head?.any isJoining = false := by
  have isWord := mem_words_of_isRun taken isRun noName
  cases spelled : kind.spelling with
  | plain word =>
    have known : ∀ word ∈ kind.spelling.words, word.all isNameChar = true → False := by
      revert member free
      cases kind <;> cases spelled <;> decide
    exact (known piece isWord isRun.2).elim
  | apart words =>
    rw [spelled] at taken
    exact (of_take?_apart taken).2.2.2
  | _ =>
    rw [spelled] at isWord
    cases isWord

theorem isWordChar_of_isLeftLetter (letter : isLeftLetter c = true) : isWordChar c = true := by
  rw [isLeftLetter_iff] at letter
  rw [isWordChar_iff (by omega)]
  omega

/-- The words of expressions that stand apart are reserved, if they start like names, and they end
with letters. -/
theorem reserved_of_apart (member : kind ∈ expressionKinds) (free : kind ∉ clingingKinds) :
    ∀ word ∈ kind.spelling.words, word.head?.any isLeftLetter = true →
      word ∈ reservedWords ∧ word.getLast?.any isLeftLetter = true := by
  revert member free
  cases kind <;> decide

theorem not_name_of_apart (named : Spelling.name.take? before text = some (piece, rest))
    (taken : kind.spelling.take? before text = some (piece, rest)) (member : kind ∈ expressionKinds)
    (free : kind ∉ clingingKinds) (noName : kind ≠ .identifier) (tame : IsTame rest) : False := by
  obtain ⟨⟨first, more, same, letter, nameLike⟩, cut, _, clear⟩ := take?_name.mp named
  have isRun : IsRun piece := same ▸ isRun_of_name letter nameLike
  have starts : piece.head?.any isLeftLetter = true := by
    rw [same]
    exact letter
  obtain ⟨reserved, ends⟩ :=
    reserved_of_apart member free piece (mem_words_of_isRun taken isRun noName) starts
  have alone := joining_of_isRun taken isRun member free noName
  -- The word ends at a boundary, since what follows does not join it.
  have noWord : rest.head?.any isWordChar = false := by
    cases next : rest.head? with
    | none => rfl
    | some c =>
      rw [next, Option.any_some] at alone
      rw [Option.any_some, ← Bool.not_eq_true]
      intro word
      rw [tame c next word] at alone
      cases alone
  have boundary : isWordBoundary piece.getLast? rest.head? = true := by
    obtain ⟨last, found, isLetter⟩ := (Option.any_eq_true _ _).mp ends
    rw [isWordBoundary, found, noWord, Option.any_some, isWordChar_of_isLeftLetter isLetter]
    rfl
  rw [startsReserved_iff.mpr ⟨piece, reserved, rest, cut, boundary⟩] at clear
  cases clear

/-- A run is followed by no more of it, unless it is a word that clings. -/
theorem nameChar_of_isRun (taken : kind.spelling.take? before text = some (piece, rest))
    (isRun : IsRun piece) (member : kind ∈ expressionKinds) (free : kind ∉ clingingKinds) :
    rest.head?.any isNameChar = false := by
  by_cases isName : kind = .identifier
  · subst isName
    exact (take?_name.mp taken).2.2.1
  · have alone := joining_of_isRun taken isRun member free isName
    cases next : rest.head? with
    | none => rfl
    | some c =>
      rw [next, Option.any_some] at alone
      rw [Option.any_some, ← Bool.not_eq_true]
      intro named
      rw [isJoining_of_isNameChar named] at alone
      cases alone

theorem words_of_expressions : ∀ kind ∈ expressionKinds, ∀ other ∈ expressionKinds,
    ∀ word ∈ kind.spelling.words, ∀ longer ∈ other.spelling.words,
      word = longer ∨ (kind ∈ clingingKinds ∧ word <+: longer) → kind = other := by
  decide +kernel

/-- Two terminals overlap if one of them is a word that clings and the other one takes a name. -/
def Terminal.Overlaps (kind other : Terminal) : Prop :=
  kind ∈ clingingKinds ∧ other = .identifier

theorem overlaps_of_part (first : kind.spelling.take? before text = some (piece, rest))
    (second : other.spelling.take? before text = some (longer, behind))
    (member : kind ∈ expressionKinds) (among : other ∈ expressionKinds)
    (tame : rest = behind → IsTame rest) (part : piece <+: longer) :
    kind = other ∨ kind.Overlaps other ∨ other.Overlaps kind := by
  rcases isRun_or_isMark_of_take? first with isRun | isMark
  swap
  · exact .inl (eq_of_isMark first second isMark)
  rcases isRun_or_isMark_of_take? second with alsoRun | isMark
  swap
  · exact .inl (eq_of_isMark second first isMark).symm
  by_cases clings : kind ∈ clingingKinds
  · by_cases isName : other = .identifier
    · exact .inr (.inl ⟨clings, isName⟩)
    · have noName : kind ≠ .identifier := by
        rintro rfl
        exact absurd clings (by decide)
      exact .inl (words_of_expressions kind member other among piece
        (mem_words_of_isRun first isRun noName) longer (mem_words_of_isRun second alsoRun isName)
        (.inr ⟨clings, part⟩))
  · -- The shorter piece is followed by no more of its run, so both are the same.
    obtain ⟨more, rfl⟩ := part
    obtain rfl : rest = more ++ behind := by
      have same := (take?_append first).symm.trans (take?_append second)
      rw [append_assoc] at same
      exact append_cancel_left same
    have stops := nameChar_of_isRun first isRun member clings
    cases more with
    | cons c more =>
      have named := all_eq_true.mp alsoRun.2 c (by simp)
      rw [cons_append, head?_cons, Option.any_some, named] at stops
      cases stops
    | nil =>
      rw [List.append_nil] at second
      rw [nil_append] at first
      have tame := tame rfl
      by_cases isName : kind = .identifier
      · subst isName
        by_cases same : other = .identifier
        · exact .inl same.symm
        · by_cases clingsToo : other ∈ clingingKinds
          · exact .inr (.inr ⟨clingsToo, rfl⟩)
          · exact (not_name_of_apart first second among clingsToo same tame).elim
      · by_cases same : other = .identifier
        · subst same
          exact (not_name_of_apart second first member clings isName tame).elim
        · rw [List.append_nil] at alsoRun
          exact .inl (words_of_expressions kind member other among piece
            (mem_words_of_isRun first isRun isName) piece (mem_words_of_isRun second alsoRun same)
            (.inl rfl))

end Pieces

/-- At one place two terminals of expressions take tokens only if they overlap, or if the text goes
on with a character that no token starts with. -/
theorem Cursor.overlaps {kind other : Terminal} {token found : Token}
    (first : here.take? kind = some (token, next)) (second : here.take? other = some (found, last))
    (member : kind ∈ expressionKinds) (among : other ∈ expressionKinds) (tame : IsTame next.rest) :
    kind = other ∨ kind.Overlaps other ∨ other.Overlaps kind := by
  obtain ⟨piece, rest, taken, _, rfl⟩ := take?_eq_some.mp first
  obtain ⟨longer, behind, also, _, rfl⟩ := take?_eq_some.mp second
  rcases prefix_or_prefix_of_prefix ⟨rest, (take?_append taken).symm⟩
    ⟨behind, (take?_append also).symm⟩ with part | part
  · exact overlaps_of_part taken also member among (fun _ => tame) part
  · rcases overlaps_of_part also taken among member (fun same => same ▸ tame) part with same | one | two
    · exact .inl same.symm
    · exact .inr (.inr one)
    · exact .inr (.inl two)

theorem Cursor.kind_eq_of_opens {kind : Terminal} {opened token : Token}
    (opens : here.take? .parenStart = some (opened, next))
    (taken : here.take? kind = some (token, last)) : kind = .parenStart := by
  obtain ⟨piece, rest, found, _, _⟩ := take?_eq_some.mp opens
  obtain ⟨other, behind, also, _, _⟩ := take?_eq_some.mp taken
  have isMark : IsMark piece := by
    obtain ⟨rfl, _⟩ := take?_plain.mp found
    exact .fixed (by decide)
  exact (eq_of_isMark found also isMark).symm

section Clinging

variable {here next last behind : Cursor} {kind : Terminal} {sign word name inner token : Token}

theorem Cursor.stop_of_take? (taken : here.take? kind = some (token, next)) :
    token.stop = next.place := by
  obtain ⟨gap, piece, rest, _, _, _, rfl, rfl⟩ := take?_iff.mp taken
  rfl

theorem Cursor.isLeftLetter_of_starts (starts : here.Starts Rule.factor.first)
    (first : here.rest.head? = some c) (named : isNameChar c = true) : isLeftLetter c = true := by
  obtain ⟨kind, member, ⟨token, next⟩, taken⟩ := starts
  obtain ⟨gap, piece, rest, isGap, cut, found, _, _⟩ := take?_iff.mp taken
  rw [cut] at first
  cases gap with
  | cons g gap =>
    obtain rfl := Option.some.inj first
    have break_ := isBreak_of_isGap (all_eq_true.mp isGap g mem_cons_self)
    rw [(isBreak_facts break_).2.1] at named
    cases named
  | nil =>
    rcases isRun_or_isMark_of_take? found with isRun | isMark
    · by_cases isName : kind = .identifier
      · subst isName
        obtain ⟨⟨d, more, rfl, letter, _⟩, _⟩ := take?_name.mp found
        obtain rfl := Option.some.inj first
        exact letter
      · have known : ∀ kind ∈ Rule.factor.first, ∀ word ∈ kind.spelling.words,
            word.all isNameChar = true → word.head?.all isLeftLetter = true := by
          decide
        have letter := known kind member piece (mem_words_of_isRun found isRun isName) isRun.2
        obtain ⟨d, more, rfl, _⟩ := isRun.head?
        obtain rfl := Option.some.inj first
        exact letter
    · obtain ⟨d, more, rfl, break_⟩ := isMark.head?
      obtain rfl := Option.some.inj first
      rw [(isBreak_facts break_).2.1] at named
      cases named

theorem exists_more_of_name {before : Option Char} {word rest piece out : List Char}
    (named : word.all isNameChar = true)
    (taken : Spelling.name.take? before (word ++ rest) = some (piece, out)) :
    ∃ more, piece = word ++ more ∧ rest = more ++ out ∧ more.all isNameChar = true := by
  obtain ⟨⟨first, others, shape, letter, nameLike⟩, cut, stops, _⟩ := take?_name.mp taken
  have foreign : ∀ c, out.head? = some c → c ∉ word := by
    intro c starts inside
    rw [starts, Option.any_some, all_eq_true.mp named c inside] at stops
    cases stops
  obtain ⟨more, rfl, rfl⟩ := (append_eq_append_of_head foreign).mp cut.symm
  have isRun : IsRun (word ++ more) := shape ▸ isRun_of_name letter nameLike
  have all := isRun.2
  rw [all_append, Bool.and_eq_true] at all
  exact ⟨more, rfl, rfl, all.2⟩

theorem isWordChar_at : isWordChar '@' = false := by
  rw [← Bool.not_eq_true, isWordChar_iff (by decide)]
  decide

/-- A reserved word at the start of a text begins as the text does. -/
theorem exists_reserved {front rest : List Char} (starts : startsReserved (front ++ rest) = true) :
    ∃ word ∈ reservedWords, word.take front.length <+: front ∧
      ∃ behind, front ++ rest = word ++ behind ∧
        isWordBoundary word.getLast? behind.head? = true := by
  obtain ⟨word, member, behind, cut, boundary⟩ := startsReserved_iff.mp starts
  have inside : word.take front.length <+: front ++ rest :=
    cut ▸ ( take_prefix _ _).trans (prefix_append _ _)
  exact ⟨word, member, prefix_of_prefix_length_le inside (prefix_append _ _)
    (length_take_le _ _), behind, cut, boundary⟩

theorem not_startsReserved_sign {rest : List Char} (loose : rest.head?.any isWordChar = false) :
    startsReserved (['s', 'f', '@'] ++ rest) = false := by
  have known : ∀ word ∈ reservedWords, word.take 3 <+: ['s', 'f', '@'] →
      word = ['s'] ∨ word = ['s', 'f', '@'] := by
    decide
  rw [← Bool.not_eq_true]
  intro starts
  obtain ⟨word, member, front, behind, cut, boundary⟩ := exists_reserved starts
  rcases known word member front with rfl | rfl
  · obtain rfl := (List.cons.inj cut).2
    change isWordBoundary (some 's') (some 'f') = true at boundary
    rw [isWordBoundary, Option.any_some, Option.any_some, isWordChar_of_isLeftLetter (by decide),
      isWordChar_of_isLeftLetter (by decide)] at boundary
    cases boundary
  · obtain rfl := append_cancel_left cut
    change isWordBoundary (some '@') rest.head? = true at boundary
    rw [isWordBoundary, Option.any_some, isWordChar_at, loose] at boundary
    cases boundary

theorem not_startsReserved_exec (letter : isLeftLetter c = true) (rest : List Char) :
    startsReserved (['e', 'x', 'e', 'c'] ++ c :: rest) = false := by
  have known : ∀ word ∈ reservedWords, word.take 4 <+: ['e', 'x', 'e', 'c'] →
      word = ['e', 'x', 'e', 'c'] := by
    decide
  rw [← Bool.not_eq_true]
  intro starts
  obtain ⟨word, member, front, behind, cut, boundary⟩ := exists_reserved starts
  obtain rfl := known word member front
  obtain rfl := append_cancel_left cut
  change isWordBoundary (some 'c') (some c) = true at boundary
  rw [isWordBoundary, Option.any_some, Option.any_some, isWordChar_of_isLeftLetter (by decide),
    isWordChar_of_isLeftLetter letter] at boundary
  cases boundary

section

variable (signed : here.take? .negWord = some (sign, next))

include signed

theorem Cursor.not_name_of_sign (joined : next.rest.head?.any isWordChar = true) :
    here.take? .identifier ≠ some (name, last) := by
  intro named
  obtain ⟨piece, rest, taken, _, rfl⟩ := take?_eq_some.mp signed
  obtain ⟨_, _, also, _, _⟩ := take?_eq_some.mp named
  obtain ⟨rfl, cut⟩ := take?_plain.mp taken
  obtain ⟨_, _, _, clear⟩ := take?_name.mp also
  have boundary : isWordBoundary (some '@') rest.head? = true := by
    rw [isWordBoundary, Option.any_some, isWordChar_at, show rest.head?.any isWordChar = true from joined]
    rfl
  rw [startsReserved_iff.mpr ⟨['s', 'f', '@'], by decide, rest, cut, boundary⟩] at clear
  cases clear

/-- Where a sign and a name are taken and a factor follows the sign, both end at one place. -/
theorem Cursor.eq_of_sign_of_name (named : here.take? .identifier = some (name, last))
    (starts : next.Starts Rule.factor.first) :
    last = next := by
  have noWord := fun joined => not_name_of_sign signed joined named
  obtain ⟨piece, rest, taken, _, rfl⟩ := take?_eq_some.mp signed
  obtain ⟨longer, out, also, _, rfl⟩ := take?_eq_some.mp named
  obtain ⟨rfl, cut⟩ := take?_plain.mp taken
  rw [cut] at also
  obtain ⟨more, rfl, rfl, nameLike⟩ := exists_more_of_name (by decide) also
  cases more with
  | nil => rfl
  | cons c more =>
    -- The factor would start with a letter, and a word would follow the sign.
    have letter := isLeftLetter_of_starts starts rfl (all_eq_true.mp nameLike c mem_cons_self)
    exact (noWord (isWordChar_of_isLeftLetter letter)).elim

/-- A sign that no word follows at once is a name, too, if a factor follows. -/
theorem Cursor.name_of_sign (starts : next.Starts Rule.factor.first)
    (loose : next.rest.head?.any isWordChar = false) :
    ∃ name, here.take? .identifier = some (name, next) := by
  have letter := fun c => isLeftLetter_of_starts (c := c) starts
  obtain ⟨piece, rest, taken, _, rfl⟩ := take?_eq_some.mp signed
  obtain ⟨rfl, cut⟩ := take?_plain.mp taken
  change rest.head?.any isWordChar = false at loose
  have stops : rest.head?.any isNameChar = false := by
    cases first : rest.head? with
    | none => rfl
    | some c =>
      rw [Option.any_some, ← Bool.not_eq_true]
      intro named
      rw [first, Option.any_some, isWordChar_of_isLeftLetter (letter c first named)] at loose
      cases loose
  have clear : startsReserved here.skipGap.rest = false := by
    rw [cut]
    exact not_startsReserved_sign loose
  exact ⟨_, take?_eq_some.mpr ⟨['s', 'f', '@'], rest,
    take?_name.mpr ⟨⟨'s', ['f', '@'], rfl, by decide, by decide⟩, cut, stops, clear⟩, rfl, rfl⟩⟩

end

theorem Cursor.after_name {word more out : List Char} {first : Char} :
    here.after (word ++ first :: more) out =
      ⟨(here.after word (first :: more ++ out)).place + (first :: more).length,
        (first :: more).getLast?, out⟩ := by
  obtain ⟨last, ends⟩ : ∃ last, (first :: more).getLast? = some last :=
    ⟨_, getLast?_eq_some_getLast (cons_ne_nil _ _)⟩
  simp only [after, getLast?_append, ends, length_append, Nat.add_assoc, Option.some_or]

variable (called : here.take? .execWord = some (word, next))

include called

/-- Where a call and a name are taken, the name is the called one with the word before it. -/
theorem Cursor.eq_of_exec_of_name (named : here.take? .identifier = some (name, last))
    (callee : next.take? .identifier = some (inner, behind)) :
    last = behind ∧ word.stop = inner.place := by
  have stop := stop_of_take? called
  obtain ⟨piece, rest, taken, _, rfl⟩ := take?_eq_some.mp called
  obtain ⟨longer, out, also, _, rfl⟩ := take?_eq_some.mp named
  obtain ⟨rfl, cut⟩ := take?_plain.mp taken
  obtain ⟨_, _, _, clear⟩ := take?_name.mp also
  rw [cut] at also clear
  obtain ⟨more, rfl, rfl, nameLike⟩ := exists_more_of_name (by decide) also
  obtain ⟨gap, piece, left, isGap, follows, found, rfl, rfl⟩ := take?_iff.mp callee
  change more ++ out = gap ++ (piece ++ left) at follows
  cases gap with
  | cons g gap =>
    have break_ := isBreak_facts (isBreak_of_isGap (all_eq_true.mp isGap g mem_cons_self))
    cases more with
    | nil =>
      -- The word ends at the gap, so it is reserved.
      obtain rfl : out = g :: gap ++ (piece ++ left) := follows
      have boundary : isWordBoundary (some 'c') (some g) = true := by
        rw [isWordBoundary, Option.any_some, Option.any_some, break_.2.2,
          isWordChar_of_isLeftLetter (by decide)]
        rfl
      have reserved : startsReserved (['e', 'x', 'e', 'c'] ++ g :: (gap ++ (piece ++ left))) = true :=
        startsReserved_iff.mpr ⟨['e', 'x', 'e', 'c'], by decide, _, rfl, boundary⟩
      rw [show startsReserved (['e', 'x', 'e', 'c'] ++ g :: (gap ++ (piece ++ left))) = false from clear]
        at reserved
      cases reserved
    | cons c more =>
      obtain ⟨rfl, _⟩ := List.cons.inj follows
      rw [all_cons, break_.2.1] at nameLike
      cases nameLike
  | nil =>
    -- Both names go on as far as they can.
    obtain ⟨_, _, stops, _⟩ := take?_name.mp also
    obtain ⟨⟨first, others, rfl, letter, named⟩, _, ends, _⟩ := take?_name.mp found
    obtain ⟨rfl, rfl⟩ := cut_unique nameLike (isRun_of_name letter named).2 stops ends follows
    exact ⟨after_name, stop⟩

/-- A call that is not apart from the name that it calls is a name, too. -/
theorem Cursor.name_of_exec (callee : next.take? .identifier = some (inner, behind))
    (glued : word.stop = inner.place) :
    ∃ name, here.take? .identifier = some (name, behind) := by
  have stop := stop_of_take? called
  obtain ⟨piece, rest, taken, _, rfl⟩ := take?_eq_some.mp called
  obtain ⟨rfl, cut⟩ := take?_plain.mp taken
  obtain ⟨gap, piece, left, _, follows, found, rfl, rfl⟩ := take?_iff.mp callee
  -- There is no gap between the two.
  obtain rfl : gap = [] := by
    rw [stop] at glued
    exact eq_nil_of_length_eq_zero (by simpa using glued.symm)
  obtain rfl : rest = piece ++ left := follows
  obtain ⟨⟨first, more, rfl, letter, named⟩, _, ends, _⟩ := take?_name.mp found
  have clear : startsReserved here.skipGap.rest = false := by
    rw [cut]
    exact not_startsReserved_exec letter _
  have spelled : Spelling.name.take? here.skipGap.before here.skipGap.rest =
      some (['e', 'x', 'e', 'c'] ++ first :: more, left) := by
    refine take?_name.mpr ⟨⟨'e', _, rfl, by decide, ?_⟩, by simpa using cut, ends, clear⟩
    change (['x', 'e', 'c'] ++ first :: more).all isNameChar = true
    rw [all_append, (isRun_of_name letter named).2]
    decide
  have place : here.skipGap.after (['e', 'x', 'e', 'c'] ++ first :: more) left = _ := after_name
  exact ⟨_, take?_eq_some.mpr ⟨_, left, spelled, rfl, place.symm⟩⟩

end Clinging

end LeftHand
