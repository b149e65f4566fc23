import LeftHand.Proofs.Format.Chunks
import LeftHand.Proofs.Grammar.Tokens

/-!
The brackets of a text, counted character by character.

Tokens can be cut from a text in more than one way, but all ways agree on its brackets. So a bracket
is closed at one place only, whatever is read between it and its end.
-/

namespace LeftHand

open List

/-- How far the brackets of a text have been counted. -/
structure Scan where
  /-- The number of brackets that are open. -/
  depth : Nat
  /-- Whether a string is open. -/
  isQuoted : Bool
  /-- The last character outside of strings. -/
  last : Option Char
deriving DecidableEq, Repr

namespace Scan

/-- Counts one character more, unless it closes a bracket that is not open. -/
def step (scan : Scan) (c : Char) : Option Scan :=
  if scan.isQuoted then some { scan with isQuoted := c != '`', last := none }
  else if c = '`' then some { scan with isQuoted := true, last := none }
  else if c = 'e' ∧ scan.last = some '%' then some { scan with depth := scan.depth + 1, last := none }
  else if c = 'e' ∧ scan.last = some '!' then
    match scan.depth with
    | 0 => none
    | depth + 1 => some { scan with depth, last := none }
  else some { scan with last := some c }

/-- Counts the characters of a text. -/
def run (scan : Scan) (text : List Char) : Option Scan :=
  text.foldlM step scan

/-- The text does not turn the last character into a bracket. -/
def Parts (last : Option Char) (text : List Char) : Prop :=
  last = some '%' ∨ last = some '!' → text.head? ≠ some 'e'

variable {scan : Scan} {last : Option Char} {c : Char} {text more : List Char}

@[simp] theorem run_nil : scan.run [] = some scan := rfl

@[simp] theorem run_cons : scan.run (c :: text) = (scan.step c).bind (·.run text) := rfl

theorem run_append : scan.run (text ++ more) = (scan.run text).bind (·.run more) :=
  foldlM_append ..

/-- The characters that neither brackets nor strings start with. -/
def isPlain (c : Char) : Bool :=
  c != '`' && c != '%' && c != '!'

theorem isPlain_of_isNameChar (named : isNameChar c = true) : isPlain c = true := by
  have differ : ∀ d ∈ ['`', '%', '!'], c ≠ d := by
    intro d member same
    subst same
    have known : ['`', '%', '!'].all (isNameChar · = false) = true := by decide
    have other := of_decide_eq_true (all_eq_true.mp known c member)
    rw [other] at named
    cases named
  simp [isPlain, differ '`' (by simp), differ '%' (by simp), differ '!' (by simp)]

theorem isPlain_of_isGap (gap : Cursor.isGap c = true) : isPlain c = true := by
  rw [Cursor.isGap, Bool.or_eq_true, beq_iff_eq, beq_iff_eq] at gap
  rcases gap with rfl | rfl <;> decide

theorem isPlain_of_isNumeral (digit : isNumeral c = true) : isPlain c = true := by
  rw [isNumeral_iff] at digit
  have differ : ∀ d : Char, d.toNat < 49 ∨ d.toNat = 96 → c ≠ d := by
    rintro d code rfl
    omega
  simp [isPlain, differ '`' (by decide), differ '%' (by decide), differ '!' (by decide)]

theorem parts_of_isPlain (plain : isPlain c = true) : Parts (some c) text := by
  intro sign
  rcases sign with sign | sign
  · rw [Option.some.inj sign] at plain
    cases plain
  · rw [Option.some.inj sign] at plain
    cases plain

theorem run_plain (depth : Nat) (plain : text.all isPlain = true) (parts : Parts last text) :
    run ⟨depth, false, last⟩ text = some ⟨depth, false, text.getLast?.or last⟩ := by
  induction text generalizing last with
  | nil => rfl
  | cons c text ih =>
    rw [all_cons, Bool.and_eq_true] at plain
    have noQuote : c ≠ '`' := by
      rintro rfl
      exact absurd plain.1 (by decide)
    have noOpen : ¬ (c = 'e' ∧ last = some '%') := by
      rintro ⟨rfl, sign⟩
      exact parts (.inl sign) rfl
    have noClose : ¬ (c = 'e' ∧ last = some '!') := by
      rintro ⟨rfl, sign⟩
      exact parts (.inr sign) rfl
    have stepped : step ⟨depth, false, last⟩ c = some ⟨depth, false, some c⟩ := by
      simp [step, noQuote, noOpen, noClose]
    rw [run_cons, stepped, Option.bind_some, ih plain.2 (parts_of_isPlain plain.1)]
    cases text <;> simp [getLast?_cons]

/-- A string opens and closes no bracket. -/
theorem run_quoted (depth : Nat) (inside : text.all isInside = true) :
    run ⟨depth, false, last⟩ ('`' :: text ++ ['`']) = some ⟨depth, false, none⟩ := by
  have open_ : run ⟨depth, true, none⟩ text = some ⟨depth, true, none⟩ := by
    induction text with
    | nil => rfl
    | cons c text ih =>
      rw [all_cons, Bool.and_eq_true] at inside
      have noQuote : (c != '`') = true := by
        have := inside.1
        rw [isInside, Bool.and_eq_true] at this
        exact this.1
      rw [run_cons, show step ⟨depth, true, none⟩ c = some ⟨depth, true, none⟩ by simp [step, noQuote],
        Option.bind_some, ih inside.2]
  rw [cons_append, run_cons, show step ⟨depth, false, last⟩ '`' = some ⟨depth, true, none⟩ from rfl,
    Option.bind_some, run_append, open_]
  rfl

end Scan

/-- The number of open brackets behind a token. -/
def Terminal.depth? (depth : Nat) : Terminal → Option Nat
  | parenStart => some (depth + 1)
  | parenEnd =>
    match depth with
    | 0 => none
    | depth + 1 => some depth
  | _ => some depth

/-- The number of open brackets behind some tokens. -/
def tokensDepth? (depth : Nat) (tokens : List Token) : Option Nat :=
  tokens.foldlM (fun depth token => token.kind.depth? depth) depth

section Tokens

open Scan

variable {kind : Terminal} {before : Option Char} {depth : Nat} {last : Option Char}
  {piece rest : List Char}

theorem Terminal.depth?_eq (noOpen : kind ≠ .parenStart) (noClose : kind ≠ .parenEnd) :
    kind.depth? depth = some depth := by
  cases kind <;> first | rfl | contradiction

theorem words_plain (noOpen : kind ≠ .parenStart) (noClose : kind ≠ .parenEnd) :
    ∀ word ∈ kind.spelling.words, word.all isPlain = true ∨ word ∈ [['%', 's'], ['!', 's'], ['%', '%']] := by
  cases kind <;> first | contradiction | decide

theorem run_neutral (depth : Nat)
    (taken : kind.spelling.take? before (piece ++ rest) = some (piece, rest))
    (noOpen : kind ≠ .parenStart) (noClose : kind ≠ .parenEnd) (parts : Parts last (piece ++ rest)) :
    ∃ final, run ⟨depth, false, last⟩ piece = some ⟨depth, false, final⟩ ∧ Parts final rest := by
  obtain ⟨ending, ends, _⟩ := Cursor.exists_last taken
  have filled : piece ≠ [] := by
    rintro rfl
    cases ends
  have parts : Parts last piece := by
    intro sign
    have apart := parts sign
    cases piece with
    | nil => exact absurd rfl filled
    | cons c piece => exact apart
  -- Of the pieces without strings and signs it is the last character that is remembered.
  have of_plain (plain : piece.all isPlain = true) :
      ∃ final, run ⟨depth, false, last⟩ piece = some ⟨depth, false, final⟩ ∧ Parts final rest := by
    refine ⟨_, run_plain depth plain parts, ?_⟩
    rw [ends]
    exact parts_of_isPlain (all_eq_true.mp plain ending (mem_of_getLast? ends))
  have of_word (member : piece ∈ kind.spelling.words)
      (apart : piece = ['%', '%'] → rest.head? ≠ some 'e') :
      ∃ final, run ⟨depth, false, last⟩ piece = some ⟨depth, false, final⟩ ∧ Parts final rest := by
    rcases words_plain noOpen noClose piece member with plain | marks
    · exact of_plain plain
    · simp only [mem_cons, not_mem_nil, or_false] at marks
      rcases marks with rfl | rfl | rfl
      · exact ⟨some 's', by simp [step], parts_of_isPlain (by decide)⟩
      · exact ⟨some 's', by simp [step], parts_of_isPlain (by decide)⟩
      · exact ⟨some '%', by simp [step], fun _ => apart rfl⟩
  cases spelled : kind.spelling with
  | plain word =>
    refine of_word (mem_words_of_take? taken (by rw [spelled]; exact cons_ne_nil _ _)) ?_
    rintro rfl
    rw [spelled] at taken
    obtain ⟨rfl, _⟩ := take?_plain.mp taken
    cases kind <;> cases spelled
  | apart words =>
    rw [spelled] at taken
    obtain ⟨_, member, _, alone⟩ := of_take?_apart taken
    -- What follows `%%` does not join it, so it is no `e`.
    refine of_word (by rwa [spelled]) fun _ starts => ?_
    rw [starts] at alone
    cases alone
  | number =>
    rw [spelled] at taken
    obtain ⟨digits, _, digital, rfl, _⟩ := take?_number.mp taken
    have plain : digits.all isPlain = true := all_eq_true.mpr fun c inside =>
      isPlain_of_isNumeral (all_eq_true.mp digital c inside)
    refine ⟨some 'd', ?_, parts_of_isPlain (by decide)⟩
    have opened : run ⟨depth, false, last⟩ ['%', 'd'] = some ⟨depth, false, some 'd'⟩ := by simp [step]
    have digitsRun := run_plain depth plain (parts_of_isPlain (show isPlain 'd' = true by decide))
    have split : '%' :: 'd' :: digits ++ ['!', 'd'] = ['%', 'd'] ++ (digits ++ ['!', 'd']) := by simp
    rw [split, run_append, opened, Option.bind_some, run_append, digitsRun]
    simp [step]
  | quoted =>
    rw [spelled] at taken
    obtain ⟨body, inside, rfl, _⟩ := take?_quoted.mp taken
    exact ⟨none, run_quoted depth inside, fun sign => by simp at sign⟩
  | name =>
    rw [spelled] at taken
    obtain ⟨⟨first, more, rfl, letter, named⟩, _⟩ := take?_name.mp taken
    refine of_plain (all_eq_true.mpr fun c inside => isPlain_of_isNameChar ?_)
    exact all_eq_true.mp (isRun_of_name letter named).2 c inside

theorem run_piece (depth : Nat)
    (taken : kind.spelling.take? before (piece ++ rest) = some (piece, rest))
    (parts : Parts last (piece ++ rest)) :
    ∃ final, run ⟨depth, false, last⟩ piece = (kind.depth? depth).map (⟨·, false, final⟩) ∧
      Parts final rest := by
  by_cases opens : kind = .parenStart
  · subst opens
    obtain ⟨rfl, _⟩ := take?_plain.mp taken
    exact ⟨none, by simp [step, Terminal.depth?], fun sign => by simp at sign⟩
  · by_cases closes : kind = .parenEnd
    · subst closes
      obtain ⟨rfl, _⟩ := take?_plain.mp taken
      refine ⟨none, ?_, fun sign => by simp at sign⟩
      cases depth <;> simp [step, Terminal.depth?]
    · rw [Terminal.depth?_eq opens closes]
      exact run_neutral depth taken opens closes parts

/-- Tokens one after the other change the depth one after the other, and gaps do not matter. -/
theorem Lexes.run {here there : Cursor} {tokens : List Token} (lexes : Lexes here tokens there)
    (depth : Nat) (parts : Parts last here.rest) :
    ∃ text final, here.rest = text ++ there.rest ∧
      Scan.run ⟨depth, false, last⟩ text = (tokensDepth? depth tokens).map (⟨·, false, final⟩) ∧
        (tokensDepth? depth tokens ≠ none → Parts final there.rest) := by
  induction lexes generalizing depth last with
  | done => exact ⟨[], last, rfl, rfl, fun _ => parts⟩
  | @token here next there kind token tokens taken onward ih =>
    obtain ⟨gap, piece, rest, isGap, cut, found, rfl, rfl⟩ := Cursor.take?_iff.mp taken
    -- The gap comes first.
    have plain : gap.all isPlain = true := all_eq_true.mpr fun c inside =>
      isPlain_of_isGap (all_eq_true.mp isGap c inside)
    have partsGap : Parts last gap := by
      intro sign starts
      apply parts sign
      rw [cut, head?_append, starts]
      rfl
    have partsPiece : Parts (gap.getLast?.or last) (piece ++ rest) := by
      cases behind : gap.getLast? with
      | none =>
        obtain rfl := getLast?_eq_none_iff.mp behind
        rw [cut] at parts
        exact parts
      | some c =>
        exact parts_of_isPlain (all_eq_true.mp plain c (mem_of_getLast? behind))
    obtain ⟨middle, stepped, partsRest⟩ := run_piece depth found partsPiece
    have first : Scan.run ⟨depth, false, last⟩ (gap ++ piece) =
        (kind.depth? depth).map (⟨·, false, middle⟩) := by
      rw [run_append, run_plain depth plain partsGap, Option.bind_some, stepped]
    have whole {text : List Char} (behind : rest = text ++ there.rest) :
        here.rest = gap ++ piece ++ text ++ there.rest := by
      rw [cut, behind]
      simp
    cases deeper : kind.depth? depth with
    | none =>
      -- The token closes a bracket that is not open, and nothing more is counted.
      obtain ⟨text, final, behind, _⟩ := ih depth partsRest
      refine ⟨gap ++ piece ++ text, final, whole behind, ?_, ?_⟩
      · rw [run_append, first, deeper]
        simp [tokensDepth?, deeper]
      · simp [tokensDepth?, deeper]
    | some level =>
      obtain ⟨text, final, behind, ran, apart⟩ := ih level partsRest
      refine ⟨gap ++ piece ++ text, final, whole behind, ?_, ?_⟩
      · rw [run_append, first, deeper, Option.map_some, Option.bind_some, ran]
        simp [tokensDepth?, deeper]
      · simpa [tokensDepth?, deeper] using apart

end Tokens

/-- The number of open brackets behind a form, if it is always the same. -/
def Form.depth? (depth : Nat) : Form → Option Nat
  | empty => some depth
  | token kind => kind.depth? depth
  | phrase _ => some depth
  | seq first second => (first.depth? depth).bind (second.depth? ·)
  | alt left right => if left.depth? depth = right.depth? depth then left.depth? depth else none
  | many item => if item.depth? depth = some depth then some depth else none

theorem Rule.depth?_body (rule : Rule) (depth : Nat) : rule.body.depth? depth = some depth := by
  cases rule <;> simp [body, Form.depth?, Form.inOrder, Form.oneOf, Form.optional, Form.chain,
    Form.oneToken, Terminal.depth?]

section Closing

variable {form other : Form} {here there first second : Cursor} {derivation one two : Derivation}
  {depth level : Nat}

theorem tokensDepth?_append (tokens more : List Token) :
    tokensDepth? depth (tokens ++ more) = (tokensDepth? depth tokens).bind (tokensDepth? · more) :=
  foldlM_append ..

theorem Derives.tokensDepth? (derived : Derives form here derivation there)
    (known : form.depth? depth = some level) :
    LeftHand.tokensDepth? depth derivation.tokens = some level := by
  induction derived generalizing depth level with
  | empty => exact known
  | token taken =>
    have isKind := Cursor.kind_of_take? taken
    rw [Form.depth?] at known
    simp [Derivation.tokens, LeftHand.tokensDepth?, isKind, known]
  | @phrase rule _ _ _ _ ih => exact ih ((rule.depth?_body depth).trans known)
  | seq _ _ before behind =>
    rw [Form.depth?, Option.bind_eq_some_iff] at known
    obtain ⟨middle, first, second⟩ := known
    rw [Derivation.tokens, tokensDepth?_append, before first, Option.bind_some, behind second]
  | left _ ih =>
    rw [Form.depth?] at known
    split at known
    · exact ih known
    · cases known
  | right _ ih =>
    rw [Form.depth?] at known
    split at known
    · rename_i same
      exact ih (same ▸ known)
    · cases known
  | none =>
    rw [Form.depth?] at known
    split at known
    · exact known
    · cases known
  | more _ _ before behind =>
    have again := known
    rw [Form.depth?] at known
    split at known
    · rename_i even
      cases known
      rw [Derivation.tokens, tokensDepth?_append, before again, Option.bind_some, behind even]
    · cases known

/-- A bracket is not closed before the end of what stands in it. -/
theorem Derives.not_closes_before {token : Token} {next : Cursor} (derived : Derives form here one first)
    (also : Derives other here two second) (even : form.depth? 0 = some 0)
    (alsoEven : other.depth? 0 = some 0) (closes : first.take? .parenEnd = some (token, next)) :
    ¬ first.place < second.place := by
  intro earlier
  have apart : Scan.Parts Option.none here.rest := fun sign => by simp at sign
  obtain ⟨text, final, cut, ran, partsFirst⟩ := derived.lexes.run 0 apart
  obtain ⟨longer, ending, again, ranLonger, partsSecond⟩ := also.lexes.run 0 apart
  rw [derived.tokensDepth? even] at ran partsFirst
  rw [also.tokensDepth? alsoEven] at ranLonger partsSecond
  -- The longer text goes on where the shorter one ends.
  obtain ⟨between, rest, onward, rfl⟩ :=
    derived.leadsTo.between also.leadsTo (Nat.le_of_lt earlier)
  obtain rfl : longer = text ++ between := by
    have whole := cut.symm.trans again
    rw [onward, ← append_assoc] at whole
    exact (append_cancel_right whole).symm
  rw [Scan.run_append, ran] at ranLonger
  -- The closing bracket stands behind a gap.
  obtain ⟨gap, piece, out, isGap, follows, found, _, _⟩ := Cursor.take?_iff.mp closes
  obtain ⟨rfl, _⟩ := take?_plain.mp found
  have partsGap : Scan.Parts final gap := by
    intro sign starts
    apply partsFirst (by simp) sign
    rw [follows, head?_append, starts]
    rfl
  have skipped := Scan.run_plain 0 (all_eq_true.mpr fun c inside =>
    Scan.isPlain_of_isGap (all_eq_true.mp isGap c inside)) partsGap
  rw [Option.map_some, Option.bind_some] at ranLonger
  have same : between ++ rest = (gap ++ ['!']) ++ ('e' :: out) := by
    rw [← onward, follows]
    simp
  -- The longer text does not end at the first half of the bracket.
  have noHalf : between ≠ gap ++ ['!'] := by
    rintro rfl
    rw [Scan.run_append, skipped] at ranLonger
    obtain rfl : some '!' = ending := by simpa [Scan.step] using ranLonger
    apply partsSecond (by simp) (.inr rfl)
    rw [show rest = 'e' :: out from append_cancel_left same]
    rfl
  rcases append_eq_append_iff.mp same with ⟨left, whole, _⟩ | ⟨left, rfl, behind⟩
  · -- It does not end inside of the gap.
    rcases eq_nil_or_concat left with rfl | ⟨front, c, rfl⟩
    · exact noHalf (whole.trans (List.append_nil _)).symm
    · rw [concat_eq_append, ← append_assoc] at whole
      have part : gap = between ++ front := (append_inj' whole rfl).1
      rcases also.eq_or_before with start | ⟨last, ends, solid⟩
      · have back := derived.leadsTo.place_le
        rw [← start] at back
        omega
      · have filled : between ≠ [] := by
          rintro rfl
          simp [Cursor.after] at earlier
        have isLast : between.getLast? = some last := by
          simpa [Cursor.after, getLast?_eq_some_getLast filled] using ends
        have inside : last ∈ gap := by
          rw [part]
          exact mem_append_left _ (mem_of_getLast? isLast)
        rw [all_eq_true.mp isGap last inside] at solid
        cases solid
  · -- So the bracket would be closed inside of it.
    cases left with
    | nil => exact noHalf (List.append_nil _)
    | cons c left =>
      obtain ⟨rfl, _⟩ := List.cons.inj behind
      rw [Scan.run_append, Scan.run_append, skipped] at ranLonger
      simp [Scan.step] at ranLonger

/-- Whatever closes its brackets and is followed by a closing bracket ends at the same place. -/
theorem Derives.end_eq_of_closes {token found : Token} {next last : Cursor}
    (derived : Derives form here one first) (also : Derives other here two second)
    (even : form.depth? 0 = some 0) (alsoEven : other.depth? 0 = some 0)
    (closes : first.take? .parenEnd = some (token, next))
    (alsoCloses : second.take? .parenEnd = some (found, last)) : first = second := by
  refine derived.leadsTo.eq_of_place also.leadsTo ?_
  have := derived.not_closes_before also even alsoEven closes
  have := also.not_closes_before derived alsoEven even alsoCloses
  omega

end Closing

end LeftHand
