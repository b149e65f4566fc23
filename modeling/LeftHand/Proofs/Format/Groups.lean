import LeftHand.Proofs.Format.Rows
import LeftHand.Proofs.Grammar.Scopes

/-! The tokens of the statements of a layout. -/

namespace LeftHand

open List

section Pairs

variable {first second sign c : Char} {text more : List Char}

theorem countPair_eq_zero (absent : first ∉ text) : countPair first second text = 0 := by
  fun_induction countPair first second text with
  | case1 a b rest pair _ => exact absurd (pair.1 ▸ mem_cons_self) absent
  | case2 a b rest _ ih => exact ih fun inside => absent (mem_cons_of_mem a inside)
  | case3 => rfl

theorem countPair_eq_zero_of_second (absent : second ∉ text) : countPair first second text = 0 := by
  fun_induction countPair first second text with
  | case1 a b rest pair _ =>
    exact absurd (pair.2 ▸ mem_cons_of_mem a mem_cons_self) absent
  | case2 a b rest _ ih => exact ih fun inside => absent (mem_cons_of_mem a inside)
  | case3 => rfl

theorem countPair_cons (other : c ≠ first ∨ text.head? ≠ some second) :
    countPair first second (c :: text) = countPair first second text := by
  cases text with
  | nil => rfl
  | cons d text =>
    rw [countPair, if_neg]
    rintro ⟨rfl, rfl⟩
    simp at other

/-- Pairs are counted on both sides of a place, unless one stands across it. -/
theorem countPair_append (apart : text.getLast? ≠ some first ∨ more.head? ≠ some second) :
    countPair first second (text ++ more) = countPair first second text + countPair first second more := by
  fun_induction countPair first second text with
  | case1 a b rest pair ih =>
    rw [cons_append, cons_append, countPair, if_pos pair, ih ?_]
    · omega
    · -- Nothing may be left behind the pair, and then it does not end with the first character.
      refine apart.imp (fun other last => other ?_) id
      rw [getLast?_cons, getLast?_cons, last]
      rfl
  | case2 a b rest other ih =>
    rw [getLast?_cons_cons] at apart
    rw [cons_append, cons_append, countPair, if_neg other, ← cons_append, ih apart]
  | case3 text short =>
    rcases text with _ | ⟨c, _ | ⟨d, rest⟩⟩
    · simp
    · rw [singleton_append, countPair_cons (by simpa using apart)]
      simp
    · exact absurd rfl (short c d rest)

end Pairs

section Tokens

variable {sign : Char} {before : Option Char} {kind : Terminal} {token : Token}
  {gap piece rest text : List Char} {here next : Cursor}

theorem endsStatement_of_take? (taken : kind.spelling.take? before text = some (piece, rest))
    (ends : kind.endsStatement = true) : endsStatement piece = true := by
  -- Each of the three terminals has one word.
  have words : kind.endsStatement = true → kind.spelling.words ≠ [] ∧
      ∀ word ∈ kind.spelling.words, endsStatement word = true := by
    cases kind <;> decide
  exact (words ends).2 piece (mem_words_of_take? taken (words ends).1)

theorem sign_not_mem (named : text.all isNameChar = true) (signed : sign = '%' ∨ sign = '!') :
    sign ∉ text := by
  intro inside
  have name := all_eq_true.mp named sign inside
  rcases signed with rfl | rfl
  · exact absurd name (by decide)
  · exact absurd name (by decide)

variable (taken : kind.spelling.take? before text = some (piece, rest))

include taken

/-- Of the tokens other than strings only the marks of scopes are pairs with an `s`. -/
theorem countPair_of_take? (noString : kind ≠ .string) :
    countPair '%' 's' piece = (if kind = .scopeStart then 1 else 0) ∧
      countPair '!' 's' piece = (if kind = .scopeEnd then 1 else 0) := by
  -- Most terminals have fixed words, in which the pairs can be counted.
  have words : ∀ word ∈ kind.spelling.words,
      countPair '%' 's' word = (if kind = .scopeStart then 1 else 0) ∧
        countPair '!' 's' word = (if kind = .scopeEnd then 1 else 0) := by
    cases kind <;> decide
  generalize spelled : kind.spelling = spelling at taken words
  cases spelling with
  | plain word => exact words piece (mem_words_of_take? taken (cons_ne_nil _ _))
  | apart fixed => exact words piece (of_take?_apart taken).2.1
  | number =>
    -- Numbers have two signs, but no `s` behind them.
    obtain ⟨digits, _, digital, rfl, _⟩ := take?_number.mp taken
    have absent : 's' ∉ digits := fun inside =>
      absurd (all_eq_true.mp digital 's' inside) (by decide)
    obtain rfl : kind = .integer := by cases kind <;> first | rfl | cases spelled
    exact ⟨countPair_eq_zero_of_second (by simp [absent]), countPair_eq_zero_of_second (by simp [absent])⟩
  | quoted => exact absurd (by cases kind <;> first | rfl | cases spelled) noString
  | name =>
    -- Names have no signs.
    obtain ⟨⟨first, more, rfl, letter, named⟩, _⟩ := take?_name.mp taken
    obtain rfl : kind = .identifier := by cases kind <;> first | rfl | cases spelled
    have isRun := (isRun_of_name letter named).2
    exact ⟨countPair_eq_zero (sign_not_mem isRun (.inl rfl)),
      countPair_eq_zero (sign_not_mem isRun (.inr rfl))⟩

theorem eq_percent_of_getLast? (signed : sign = '%' ∨ sign = '!')
    (ends : piece.getLast? = some sign) : piece = ['%', '%'] := by
  rcases isRun_or_isMark_of_take? taken with isRun | isMark
  · exact absurd (mem_of_getLast? ends) (sign_not_mem isRun.2 signed)
  · cases isMark with
    | fixed member =>
      have known : ∀ mark ∈ fixedMarks, mark.getLast? = some '%' ∨ mark.getLast? = some '!' →
          mark = ['%', '%'] := by
        decide
      rcases signed with rfl | rfl
      · exact known piece member (.inl ends)
      · exact known piece member (.inr ends)
    | number | quoted =>
      rw [getLast?_append] at ends
      rcases signed with rfl | rfl <;> cases ends

end Tokens

/-- How often a sign stands before an `s` in tokens. -/
def marksIn (sign : Char) (tokens : List Token) : Nat :=
  (tokens.map fun token => countPair sign 's' token.text).sum

/-- The tokens of a statement that starts at a place. -/
structure Holds (start : Nat) (statement : List Char) (group : List Token) : Prop where
  inside : ∀ token ∈ group, start ≤ token.place ∧ token.place < start + statement.length
  counted : ∀ sign, sign = '%' ∨ sign = '!' → countPair sign 's' statement = marksIn sign group
  unended : ∀ token ∈ group.dropLast, token.kind.endsStatement = false

section Groups

variable {here there : Cursor} {tokens : List Token} {part : List Char} {parts : List (List Char)}
  {kind : Terminal}

theorem marksIn_append (sign : Char) (tokens more : List Token) :
    marksIn sign (tokens ++ more) = marksIn sign tokens + marksIn sign more := by
  simp [marksIn]

theorem Lexes.startsApart {before : Option Char} (lexes : Lexes here tokens there)
    (ends : there.isAtEnd = true)
    (taken : kind.spelling.take? before (['%', '%'] ++ here.rest) = some (['%', '%'], here.rest)) :
    StartsApart here.rest := by
  obtain ⟨_, alone⟩ := of_take?_percent taken
  -- The next token stands apart, or the mark would be joined to a run.
  cases lexes.front ends with
  | outside cut _ apart _ =>
    rw [cut]
    exact apart
  | inside cut isRun _ _ _ _ =>
    obtain ⟨c, more, rfl, named⟩ := isRun.head?
    rw [cut, cons_append, head?_cons, Option.any_some, isJoining_of_isNameChar named] at alone
    cases alone

/-- The marks of a token are counted apart from those of the gap before it and of the text
behind. -/
theorem countPair_token {before : Option Char} {sign : Char} {gap piece rest more out : List Char}
    (isGap : gap.all Cursor.isGap = true)
    (taken : kind.spelling.take? before (piece ++ rest) = some (piece, rest))
    (apart : piece = ['%', '%'] → StartsApart rest) (cut : rest = more ++ out)
    (signed : sign = '%' ∨ sign = '!') :
    countPair sign 's' (gap ++ (piece ++ more)) = countPair sign 's' piece + countPair sign 's' more := by
  have absent : sign ∉ gap := by
    intro inside
    have other := all_eq_true.mp isGap sign inside
    rcases signed with rfl | rfl
    · exact absurd other (by decide)
    · exact absurd other (by decide)
  rw [countPair_append (.inl fun last => absent (mem_of_getLast? last)), countPair_eq_zero absent,
    Nat.zero_add]
  -- Behind a sign at the end of a token there is no `s`.
  refine countPair_append (not_and_or.mp fun across => ?_)
  have starts := apart (eq_percent_of_getLast? taken signed across.1) 's' (by
    rw [cut, head?_append, across.2]
    rfl)
  exact absurd starts (by decide)

theorem Holds.nil {start : Nat} : Holds start [] [] :=
  ⟨by simp, fun _ _ => rfl, by simp⟩

theorem Holds.cons {start : Nat} {gap piece more : List Char} {group : List Token}
    (holds : Holds (start + gap.length + piece.length) more group) (filled : piece ≠ [])
    (counted : ∀ sign, sign = '%' ∨ sign = '!' → countPair sign 's' (gap ++ (piece ++ more)) =
      countPair sign 's' piece + countPair sign 's' more)
    (goes : group ≠ [] → kind.endsStatement = false) :
    Holds start (gap ++ (piece ++ more)) (⟨kind, piece, start + gap.length⟩ :: group) := by
  have long := length_pos_iff.mpr filled
  refine ⟨forall_mem_cons.mpr ⟨?_, fun token member => ?_⟩, fun sign signed => ?_, ?_⟩
  · simp only [length_append]
    omega
  · obtain ⟨starts, ends⟩ := holds.inside token member
    simp only [length_append]
    omega
  · rw [counted sign signed, holds.counted sign signed]
    rfl
  · cases group with
    | nil => simp
    | cons other group =>
      rw [dropLast_cons_cons, forall_mem_cons]
      exact ⟨goes (cons_ne_nil _ _), holds.unended⟩

/-- The first statement of a text has tokens of its own, and the others stand behind it. -/
theorem Lexes.exists_group (lexes : Lexes here tokens there) (ends : there.rest = [])
    (split : splitFrom false here.rest = part :: parts) :
    ∃ group more middle, tokens = group ++ more ∧ Lexes middle more there ∧
      middle.place = here.place + part.length ∧ middle.rest = parts.flatten ∧
        Holds here.place part group := by
  induction lexes generalizing part parts with
  | done =>
    -- Without tokens the text is empty, and has no statements.
    rw [ends] at split
    cases split
  | @token here next there kind token tokens taken onward ih =>
    obtain ⟨gap, piece, rest, isGap, cut, found, rfl, rfl⟩ := Cursor.take?_iff.mp taken
    have apart : piece = ['%', '%'] → StartsApart rest := by
      rintro rfl
      exact onward.startsApart (by rw [Cursor.isAtEnd, ends]; rfl) found
    have clear := ((cut_splitFrom false here.rest).clear_of_mem part (split ▸ mem_cons_self)).2
    obtain ⟨more, others, splits, follows⟩ :=
      splitFrom_chunk isGap (isRun_or_isMark_of_take? found) apart
    rw [cut, splits] at split
    obtain ⟨rfl, rfl⟩ := List.cons.inj split
    have whole : rest = more ++ others.flatten := by
      have joined := flatten_splitFrom false (gap ++ (piece ++ rest))
      rw [splits, flatten_cons, append_assoc, append_assoc] at joined
      exact (append_cancel_left (append_cancel_left joined)).symm
    have filled : piece ≠ [] := by
      obtain ⟨last, ends, _⟩ := Cursor.exists_last found
      rintro rfl
      cases ends
    have counted sign := @countPair_token _ _ sign _ _ _ _ _ isGap found apart whole
    -- The statement ends with the token, or goes on with the first one of what is behind.
    have first : (more = [] ∧ others = splitFrom false rest) ∨ splitFrom false rest = more :: others := by
      rcases follows with ended | ⟨rfl, rfl⟩
      · exact .inl ended
      · cases splitFrom false rest with
        | nil => exact .inl ⟨rfl, rfl⟩
        | cons => exact .inr rfl
    rcases first with ⟨rfl, rfl⟩ | goesOn
    · refine ⟨[_], tokens, _, rfl, onward, ?_, (flatten_splitFrom false rest).symm,
        Holds.nil.cons filled counted (absurd rfl)⟩
      simp [Nat.add_assoc]
    · obtain ⟨group, later, middle, rfl, behind, place, joined, holds⟩ := ih ends goesOn
      refine ⟨_ :: group, later, middle, rfl, behind, ?_, joined, holds.cons filled counted fun _ => ?_⟩
      · rw [place]
        simp [Nat.add_assoc]
      · -- Something follows the token in its statement, so it is no end of one.
        rw [← Bool.not_eq_true]
        intro isEnd
        have outside : quotedBehind false gap = false := (isPaired_of_blank (all_eq_true.mpr
          fun c inside => isBlank_of_isGap (all_eq_true.mp isGap c inside))).quotedBehind
        have last := clear gap piece more rfl (endsStatement_of_take? found isEnd) outside
        exact ((cut_splitFrom false rest).clear_of_mem more (goesOn ▸ mem_cons_self)).1 last

end Groups

/-- The tokens of statements that start at places behind an offset, each behind the one before. -/
inductive Grouped : (offset : Nat) → (starts : List Nat) → (statements : List (List Char)) →
    (groups : List (List Token)) → Prop where
  | nil {offset : Nat} : Grouped offset [] [] []
  | cons {offset start : Nat} {starts : List Nat} {statement : List Char} {statements : List (List Char)}
      {group : List Token} {groups : List (List Token)} (behind : offset ≤ start)
      (holds : Holds start statement group)
      (onward : Grouped (start + statement.length) starts statements groups) :
      Grouped offset (start :: starts) (statement :: statements) (group :: groups)

section Spreading

variable {here there : Cursor} {token : Token} {tokens : List Token} {offset : Nat} {starts : List Nat}
  {gap part rest text : List Char} {statements : List (List Char)}

theorem Cursor.skipGap_after (cut : here.rest = gap ++ rest) (gaps : gap.all isGap = true) :
    (here.after gap rest).skipGap = here.skipGap := by
  -- The rest of the gap is skipped from both places.
  rw [skipGap, skipGap, cut, takeWhile_append_of_pos (all_eq_true.mp gaps),
    dropWhile_append_of_pos (all_eq_true.mp gaps)]
  simp [after, Nat.add_assoc, Option.or_assoc]

theorem Lexes.behind_gap (lexes : Lexes here (token :: tokens) there) (cut : here.rest = gap ++ rest)
    (gaps : gap.all Cursor.isGap = true) : Lexes (here.after gap rest) (token :: tokens) there := by
  cases lexes with
  | @token _ next _ kind _ _ taken onward =>
    have same : (here.after gap rest).take? kind = here.take? kind := by
      rw [Cursor.take?, Cursor.take?, Cursor.skipGap_after cut gaps]
    exact .token (same.trans taken) onward

theorem splitFrom_ended (ended : Ended false part) (clear : Clear false part) :
    splitFrom false (part ++ rest) = part :: splitFrom false rest := by
  -- It is cut behind its end, and nowhere else.
  have whole := splitFrom_clear clear ended.ne_nil
  obtain ⟨front, mark, rfl, ends, outside⟩ := ended
  rw [append_assoc, splitFrom_append_end ends outside, whole]
  rfl

theorem Cut.tail (cut : Cut false (part :: statements)) : Cut false statements := by
  cases cut with
  | last => exact .nil
  | more _ _ onward => exact onward

/-- The tokens of a layout are those of its statements. -/
theorem SpreadOut.grouped (spread : SpreadOut offset starts statements text) (cut : Cut false statements)
    (lexes : Lexes here tokens there) (ends : there.rest = []) (place : here.place = offset)
    (rest : here.rest = text) :
    ∃ groups, tokens = groups.flatten ∧ Grouped offset starts statements groups := by
  induction spread generalizing here tokens with
  | nil =>
    cases lexes with
    | done => exact ⟨[], rfl, .nil⟩
    | token taken =>
      -- Nothing is left to be taken.
      have passed := Cursor.leadsTo_of_take? taken
      have onward := Cursor.place_lt_of_take? taken
      have lengths := passed.place_add_length
      rw [rest, length_nil] at lengths
      omega
  | @cons offset count starts statement text statements onward ih =>
    have split : splitFrom false (statement ++ text) = statement :: splitFrom false text := by
      cases cut with
      | last filled clear =>
        cases onward
        rw [List.append_nil, splitFrom_clear clear filled]
        rfl
      | more ended clear _ => exact splitFrom_ended ended clear
    have filled := (cut.clear_of_mem statement mem_cons_self).1
    -- The induction goes on behind the tokens of the first statement.
    cases tokens with
    | nil =>
      -- Without tokens the text would be empty.
      cases lexes
      rw [ends] at rest
      simp [filled] at rest
    | cons token tokens =>
      have gaps : (List.replicate count ' ').all Cursor.isGap = true := by
        simp [all_replicate, Cursor.isGap]
      obtain ⟨group, more, middle, same, behind, reached, joined, holds⟩ :=
        (lexes.behind_gap rest gaps).exists_group ends split
      have start : (here.after (List.replicate count ' ') (statement ++ text)).place =
          offset + count := by
        simp [Cursor.after, place]
      rw [start] at reached holds
      obtain ⟨groups, rfl, grouped⟩ := ih cut.tail behind reached (joined.trans (flatten_splitFrom ..))
      exact ⟨group :: groups, same, .cons (Nat.le_add_right ..) holds grouped⟩

end Spreading

end LeftHand
