import LeftHand.Proofs.Grammar.Reading
import LeftHand.Proofs.Source.Words

/-! The tokens of a program, and the leaves of its parse tree among them. -/

namespace LeftHand

open List

namespace Token

/-- The number of characters up to the end of the token. -/
def stop (token : Token) : Nat :=
  token.place + token.text.length

/-- One token ends before the other one starts. -/
def Precedes (one other : Token) : Prop :=
  one.stop ≤ other.place

/-- The token is a piece of the text, at its place. -/
def StandsIn (token : Token) (text : List Char) : Prop :=
  token.text ≠ [] ∧ (text.drop token.place).take token.text.length = token.text

/-- A character of the text belongs to the token. -/
def Covers (token : Token) (i : Nat) : Prop :=
  token.place ≤ i ∧ i < token.stop

instance (token : Token) (i : Nat) : Decidable (token.Covers i) :=
  inferInstanceAs (Decidable (_ ∧ _))

/-- The token is what its terminal can take somewhere. -/
def IsSpelled (token : Token) : Prop :=
  ∃ before text rest, token.kind.spelling.take? before text = some (token.text, rest)

theorem StandsIn.mem {token : Token} {text : List Char} (stands : token.StandsIn text) {i : Nat}
    {c : Char} (covers : token.Covers i) (found : text[i]? = some c) : c ∈ token.text := by
  obtain ⟨starts, ends⟩ := covers
  have inside : i - token.place < token.text.length := Nat.sub_lt_left_of_lt_add starts ends
  refine mem_of_getElem? (?_ : token.text[i - token.place]? = some c)
  rw [← stands.2, getElem?_take_of_lt inside, getElem?_drop, Nat.add_sub_of_le starts, found]

end Token

section Taking

variable {piece rest gap text : List Char} {before : Option Char} {kind : Terminal} {token : Token}
  {here next : Cursor}

theorem head?_of_take? (taken : kind.spelling.take? before (piece ++ rest) = some (piece, rest)) :
    (piece ++ rest).head?.any Cursor.isGap = false :=
  IsSolid.head?_isGap ((Terminal.take?_cases taken).symm.imp id And.right) rest

theorem Cursor.take?_iff : here.take? kind = some (token, next) ↔
    ∃ gap piece rest, gap.all isGap = true ∧ here.rest = gap ++ (piece ++ rest) ∧
      kind.spelling.take? (gap.getLast?.or here.before) (piece ++ rest) = some (piece, rest) ∧
        token = ⟨kind, piece, here.place + gap.length⟩ ∧
          next = ⟨here.place + gap.length + piece.length, piece.getLast?, rest⟩ := by
  rw [take?_eq_some]
  constructor
  · rintro ⟨piece, rest, taken, rfl, rfl⟩
    obtain ⟨cut, all, _⟩ := takeWhile_eq_and_dropWhile_eq.mp
      ⟨rfl, take?_append taken⟩
    obtain ⟨last, ends, _⟩ := exists_last taken
    rw [take?_append taken] at taken
    refine ⟨_, piece, rest, all, cut, taken, rfl, ?_⟩
    rw [after, ends]
    rfl
  · rintro ⟨gap, piece, rest, all, cut, taken, rfl, rfl⟩
    obtain ⟨skipped, behind⟩ := takeWhile_eq_and_dropWhile_eq.mpr ⟨cut, all, head?_of_take? taken⟩
    obtain ⟨last, ends, _⟩ := exists_last taken
    have there : here.skipGap = here.after gap (piece ++ rest) := by rw [skipGap, skipped, behind]
    refine ⟨piece, rest, ?_, ?_, ?_⟩
    · rw [there]
      exact taken
    · rw [there]
      rfl
    · rw [there, after, ends]
      rfl

theorem Cursor.isSpelled_of_take? (taken : here.take? kind = some (token, next)) : token.IsSpelled := by
  obtain ⟨gap, piece, rest, _, _, found, rfl, _⟩ := take?_iff.mp taken
  exact ⟨_, _, _, found⟩

/-- Taking a token passes over a gap and the token, and over nothing else. -/
theorem Cursor.passed_of_take? (reached : (start text).LeadsTo here)
    (taken : here.take? kind = some (token, next)) :
    here.place ≤ token.place ∧ token.stop = next.place ∧ token.StandsIn text ∧
      ∀ i c, here.place ≤ i → i < token.place → text[i]? = some c → isGap c = true := by
  obtain ⟨front, rest, cut, rfl⟩ := reached
  obtain ⟨gap, piece, rest, isGap, behind, found, rfl, rfl⟩ := take?_iff.mp taken
  obtain ⟨last, ends, _⟩ := exists_last found
  -- What stands before the place, the gap and the piece make up the text so far.
  have whole : text = front ++ (gap ++ (piece ++ rest)) := cut.trans (congrArg (front ++ ·) behind)
  have here : ((start text).after front (gap ++ (piece ++ rest))).place = front.length :=
    Nat.zero_add _
  simp only [after, start, Nat.zero_add] at here ⊢
  refine ⟨Nat.le_add_right _ _, rfl, ⟨?_, ?_⟩, ?_⟩
  · rintro rfl
    cases ends
  · rw [whole, ← append_assoc, ← length_append, drop_left, take_left]
  · intro i c from_ upto found
    have inside : i - front.length < gap.length := Nat.sub_lt_left_of_lt_add from_ upto
    rw [whole, getElem?_append_right from_, getElem?_append_left inside] at found
    exact all_eq_true.mp isGap c (mem_of_getElem? found)

end Taking

/-- Tokens that stand one after the other between two places. -/
inductive Lexes : Cursor → List Token → Cursor → Prop where
  | done {here : Cursor} : Lexes here [] here
  | token {here next there : Cursor} {kind : Terminal} {token : Token} {tokens : List Token}
      (taken : here.take? kind = some (token, next)) (onward : Lexes next tokens there) :
      Lexes here (token :: tokens) there

namespace Lexes

variable {here middle there : Cursor} {one two tokens : List Token} {text : List Char}

theorem append (lexes : Lexes here one middle) (onward : Lexes middle two there) :
    Lexes here (one ++ two) there := by
  induction lexes with
  | done => exact onward
  | token taken _ ih => exact .token taken (ih onward)

theorem isSpelled (lexes : Lexes here tokens there) : ∀ token ∈ tokens, token.IsSpelled := by
  induction lexes with
  | done => exact fun _ none => nomatch none
  | token taken _ ih => exact forall_mem_cons.mpr ⟨Cursor.isSpelled_of_take? taken, ih⟩

theorem inside (lexes : Lexes here tokens there) (reached : (Cursor.start text).LeadsTo here) :
    here.place ≤ there.place ∧
      ∀ token ∈ tokens, here.place ≤ token.place ∧ token.stop ≤ there.place ∧ token.StandsIn text := by
  induction lexes with
  | done => exact ⟨Nat.le_refl _, fun _ none => nomatch none⟩
  | token taken _ ih =>
    obtain ⟨starts, stops, stands, _⟩ := Cursor.passed_of_take? reached taken
    obtain ⟨onward, others⟩ := ih (reached.trans (Cursor.leadsTo_of_take? taken))
    have passed := Cursor.place_lt_of_take? taken
    -- The first token comes behind the start, and all the others behind the first.
    refine ⟨by omega, forall_mem_cons.mpr ⟨⟨starts, by omega, stands⟩, ?_⟩⟩
    intro token member
    obtain ⟨later, ends, alsoStands⟩ := others token member
    exact ⟨by omega, ends, alsoStands⟩

theorem pairwise (lexes : Lexes here tokens there) (reached : (Cursor.start text).LeadsTo here) :
    tokens.Pairwise Token.Precedes := by
  induction lexes with
  | done => exact .nil
  | token taken onward ih =>
    have next := reached.trans (Cursor.leadsTo_of_take? taken)
    obtain ⟨_, stops, _, _⟩ := Cursor.passed_of_take? reached taken
    refine .cons (fun other member => ?_) (ih next)
    have later := ((onward.inside next).2 other member).1
    show _ ≤ _
    omega

/-- A character between the places belongs to a token or to a gap. -/
theorem covers (lexes : Lexes here tokens there) (reached : (Cursor.start text).LeadsTo here) {i : Nat}
    {c : Char} (starts : here.place ≤ i) (ends : i < there.place) (found : text[i]? = some c) :
    (∃ token ∈ tokens, token.Covers i) ∨ Cursor.isGap c = true := by
  induction lexes with
  | done => omega
  | @token here next there kind token tokens taken _ ih =>
    obtain ⟨_, stops, _, gap⟩ := Cursor.passed_of_take? reached taken
    -- The character stands before the token, in it or behind it.
    by_cases before : i < token.place
    · exact .inr (gap i c starts before found)
    · by_cases behind : i < token.stop
      · exact .inl ⟨token, mem_cons_self, by omega, behind⟩
      · refine (ih (reached.trans (Cursor.leadsTo_of_take? taken)) (by omega) ends).imp ?_ id
        rintro ⟨other, member, covers⟩
        exact ⟨other, mem_cons_of_mem _ member, covers⟩

end Lexes

/-- The tokens of a derivation stand one after the other. -/
theorem Derives.lexes {form : Form} {here there : Cursor} {derivation : Derivation}
    (derived : Derives form here derivation there) : Lexes here derivation.tokens there := by
  induction derived with
  | empty => exact .done
  | token taken => exact .token taken .done
  | phrase _ ih => exact ih
  | seq _ _ ih also => exact ih.append also
  | left _ ih => exact ih
  | right _ ih => exact ih
  | none => exact .done
  | more _ _ ih also => exact ih.append also

mutual

/-- The tokens that a parse tree shows, from left to right. -/
def Tree.leaves : Tree → List Token
  | .leaf token => [token]
  | .node _ children => Tree.leavesAll children

/-- The tokens that parse trees next to each other show. -/
def Tree.leavesAll : List Tree → List Token
  | [] => []
  | tree :: trees => tree.leaves ++ Tree.leavesAll trees

end

theorem Tree.leavesAll_append (one two : List Tree) :
    leavesAll (one ++ two) = leavesAll one ++ leavesAll two := by
  induction one with
  | nil => rfl
  | cons tree one ih => rw [cons_append, leavesAll, leavesAll, ih, append_assoc]

/-- The terminals that a parse tree may leave out. -/
def Terminal.isFiltered : Terminal → Bool
  | lineEnd | parenStart | parenEnd | assignWord | reverseWord | negWord | execWord | ifWord
  | elseIfWord | elseWord | asWord => true
  | _ => false

/-- The tokens of a derivation that parse trees show. -/
def Derivation.shown (keepTokens : Bool) : Derivation → List Token
  | empty => []
  | token taken => if keepTokens || taken.kind.isShown then [taken] else []
  | phrase rule body => body.shown rule.keepsTokens
  | seq first second => first.shown keepTokens ++ second.shown keepTokens
  | left chosen | right chosen => chosen.shown keepTokens

section Shown

variable {keepTokens : Bool} {derivation : Derivation}

theorem Derivation.leavesAll_trees (derivation : Derivation) (keepTokens : Bool) :
    Tree.leavesAll (derivation.trees keepTokens) = derivation.shown keepTokens := by
  induction derivation generalizing keepTokens with
  | empty => rfl
  | token taken =>
    rw [trees, shown]
    split <;> rfl
  | phrase rule body ih =>
    rw [trees, shown, ← ih]
    split
    · rename_i children
      rw [children]
    · exact List.append_nil _
  | seq first second before behind => rw [trees, shown, Tree.leavesAll_append, before, behind]
  | left chosen ih | right chosen ih => exact ih keepTokens

theorem Derivation.shown_sublist (derivation : Derivation) (keepTokens : Bool) :
    (derivation.shown keepTokens).Sublist derivation.tokens := by
  induction derivation generalizing keepTokens with
  | empty => exact .refl _
  | token taken =>
    rw [shown, tokens]
    split
    · exact .refl _
    · exact nil_sublist _
  | phrase rule body ih => exact ih _
  | seq first second before behind => exact (before keepTokens).append (behind keepTokens)
  | left chosen ih | right chosen ih => exact ih keepTokens

/-- Whether every token of a form, outside its phrases, is shown or of a terminal that may be left
out. -/
def Form.isFaithful (keepTokens : Bool) : Form → Bool
  | empty | phrase _ => true
  | token kind => keepTokens || kind.isShown || kind.isFiltered
  | seq first second => first.isFaithful keepTokens && second.isFaithful keepTokens
  | alt left right => left.isFaithful keepTokens && right.isFaithful keepTokens
  | many item => item.isFaithful keepTokens

theorem Rule.isFaithful_body (rule : Rule) : rule.body.isFaithful rule.keepsTokens = true := by
  cases rule <;> rfl

theorem Derives.mem_shown {form : Form} {here there : Cursor}
    (derived : Derives form here derivation there) (faithful : form.isFaithful keepTokens = true) :
    ∀ token ∈ derivation.tokens,
      token ∈ derivation.shown keepTokens ∨ token.kind.isFiltered = true := by
  induction derived generalizing keepTokens with
  | empty | none => exact fun _ none => nomatch none
  | @token kind here taken there found =>
    intro token member
    obtain rfl := mem_singleton.mp member
    rw [Form.isFaithful, ← Cursor.kind_of_take? found, Bool.or_eq_true] at faithful
    refine faithful.imp (fun visible => ?_) id
    rw [Derivation.shown, if_pos visible]
    exact member
  | phrase _ ih =>
    -- Each rule decides anew whether it keeps its tokens.
    exact ih (Rule.isFaithful_body _)
  | seq _ _ before behind =>
    rw [Form.isFaithful, Bool.and_eq_true] at faithful
    intro token member
    rcases mem_append.mp member with first | second
    · exact (before faithful.1 token first).imp (mem_append_left _) id
    · exact (behind faithful.2 token second).imp (mem_append_right _) id
  | left _ ih =>
    rw [Form.isFaithful, Bool.and_eq_true] at faithful
    exact ih faithful.1
  | right _ ih =>
    rw [Form.isFaithful, Bool.and_eq_true] at faithful
    exact ih faithful.2
  | more _ _ before behind =>
    intro token member
    rcases mem_append.mp member with first | second
    · exact (before faithful token first).imp (mem_append_left _) id
    · exact (behind faithful token second).imp (mem_append_right _) id

end Shown

section Accepted

variable {text : List Char} {tree : Tree} {derivation : Derivation}

/-- How the leaves of a parse tree lie among the tokens of the text. -/
structure Tokens (text : List Char) (leaves tokens : List Token) : Prop where
  sublist : leaves.Sublist tokens
  pairwise : tokens.Pairwise Token.Precedes
  standsIn : ∀ token ∈ tokens, token.StandsIn text
  isSpelled : ∀ token ∈ tokens, token.IsSpelled
  shown : ∀ token ∈ tokens, token ∈ leaves ∨ token.kind.isFiltered = true
  covers : ∀ i c, text[i]? = some c → (∃ token ∈ tokens, token.Covers i) ∨ Cursor.isGap c = true

theorem Derivation.leaves_eq_shown (shows : derivation.trees false = [tree]) :
    tree.leaves = derivation.shown false := by
  rw [← derivation.leavesAll_trees, shows, Tree.leavesAll, Tree.leavesAll, List.append_nil]

theorem Derivation.mem_tokens {token : Token} (shows : derivation.trees false = [tree])
    (member : token ∈ tree.leaves) : token ∈ derivation.tokens :=
  (derivation.shown_sublist false).subset (leaves_eq_shown shows ▸ member)

/-- The leaves of a parse tree lie among tokens that make up the text. -/
theorem exists_tokens (accepted : parse text = .ok tree) : ∃ tokens, Tokens text tree.leaves tokens := by
  obtain ⟨derivation, ⟨there, reading, atEnd⟩, shown⟩ := exists_reading accepted
  have leaves := Derivation.leaves_eq_shown shown
  have lexes := reading.lexes
  obtain ⟨_, inside⟩ := lexes.inside .refl
  refine ⟨derivation.tokens, leaves ▸ derivation.shown_sublist false, lexes.pairwise .refl,
    fun token member => (inside token member).2.2, lexes.isSpelled,
    leaves ▸ reading.mem_shown rfl, ?_⟩
  intro i c found
  by_cases before : i < there.place
  · exact lexes.covers .refl (Nat.zero_le i) before found
  · -- Behind the last token there is nothing but a gap.
    obtain ⟨front, rest, cut, rfl⟩ := reading.leadsTo
    have place : ((Cursor.start text).after front rest).place = front.length := Nat.zero_add _
    have behind : front.length ≤ i := by omega
    rw [show text = front ++ rest from cut, getElem?_append_right behind] at found
    exact .inr (all_eq_true.mp atEnd c (mem_of_getElem? found))

theorem Token.IsSpelled.mem_words {token : Token} (spelled : token.IsSpelled)
    (filtered : token.kind.isFiltered = true) : token.text ∈ token.kind.spelling.words := by
  obtain ⟨before, text, rest, taken⟩ := spelled
  refine mem_words_of_take? taken ?_
  -- Numbers, strings and names are always shown.
  revert filtered
  cases token.kind <;> decide

theorem Tokens.apart {leaves tokens : List Token} (laid : Tokens text leaves tokens) :
    ∀ one ∈ tokens, ∀ other ∈ tokens, one = other ∨ one.Precedes other ∨ other.Precedes one := by
  have ordered := pairwise_iff_getElem.mp laid.pairwise
  intro one member other among
  obtain ⟨i, inside, rfl⟩ := getElem_of_mem member
  obtain ⟨j, also, rfl⟩ := getElem_of_mem among
  rcases Nat.lt_trichotomy i j with before | rfl | behind
  · exact .inr (.inl (ordered i j inside also before))
  · exact .inl rfl
  · exact .inr (.inr (ordered j i also inside behind))

/-- A program with a string that holds more than the left hand types. -/
def calling : List Char :=
  "def v@1d f%s exec f%e`Hi, you $`!e$\t!s".toList

/-- The tokens that its parse tree shows. -/
def callingLeaves : List Token :=
  [⟨.defWord, ['d', 'e', 'f'], 0⟩, ⟨.voidWord, ['v', '@', '1', 'd'], 4⟩, ⟨.identifier, ['f'], 9⟩,
   ⟨.scopeStart, ['%', 's'], 10⟩, ⟨.identifier, ['f'], 18⟩, ⟨.string, "`Hi, you $`".toList, 21⟩,
   ⟨.scopeEnd, ['!', 's'], 36⟩]

theorem exists_ok_of_any {ε α : Type} {result : Except ε α} {p : α → Prop} [DecidablePred p]
    (found : result.toOption.any (fun value => decide (p value)) = true) :
    ∃ value, result = .ok value ∧ p value := by
  cases result with
  | error error => cases found
  | ok value => exact ⟨value, rfl, of_decide_eq_true found⟩

theorem exists_parse_calling : ∃ tree, parse calling = .ok tree ∧ tree.leaves = callingLeaves :=
  exists_ok_of_any (by decide +kernel)

/-- A parse tree is faithful to the text: its leaves are pieces of the text from left to right, and
whatever is no part of them is a gap or a word that parse trees leave out. -/
theorem leaves_faithful (accepted : parse text = .ok tree) :
    (tree.leaves.map Token.column).Pairwise (· < ·) ∧ tree.leaves.Pairwise Token.Precedes ∧
      (∀ leaf ∈ tree.leaves, leaf.StandsIn text) ∧
        ∀ i c, text[i]? = some c → (∃ leaf ∈ tree.leaves, leaf.Covers i) ∨ Cursor.isGap c = true ∨
          ∃ token : Token, token.kind.isFiltered = true ∧ token.text ∈ token.kind.spelling.words ∧
            token.StandsIn text ∧ token.Covers i ∧
              ∀ leaf ∈ tree.leaves, leaf.Precedes token ∨ token.Precedes leaf := by
  obtain ⟨tokens, laid⟩ := exists_tokens accepted
  have ordered := laid.pairwise.sublist laid.sublist
  have stands : ∀ leaf ∈ tree.leaves, leaf.StandsIn text := fun leaf member =>
    laid.standsIn leaf (laid.sublist.subset member)
  refine ⟨pairwise_map.mpr (ordered.imp_of_mem ?_), ordered, stands, ?_⟩
  · -- Each leaf has a character at least, so the next one starts further on.
    intro one other member _ precedes
    have filled : 0 < one.text.length := length_pos_iff.mpr (stands one member).1
    have ends : one.place + one.text.length ≤ other.place := precedes
    show one.place + 1 < other.place + 1
    omega
  · intro i c found
    rcases laid.covers i c found with ⟨token, member, covers⟩ | gap
    · by_cases visible : token ∈ tree.leaves
      · exact .inl ⟨token, visible, covers⟩
      · have filtered := (laid.shown token member).resolve_left visible
        refine .inr (.inr ⟨token, filtered, (laid.isSpelled token member).mem_words filtered,
          laid.standsIn token member, covers, ?_⟩)
        intro leaf among
        refine (laid.apart leaf (laid.sublist.subset among) token member).resolve_left ?_
        rintro rfl
        exact visible among
    · exact .inr (.inl gap)

/-- The dollar outside the string belongs to no leaf, and no leaf overlaps it. -/
theorem leaves_faithful_calling : ∃ tree, parse calling = .ok tree ∧ tree.leaves = callingLeaves ∧
    (∀ leaf ∈ tree.leaves, leaf.StandsIn calling) ∧
      ∃ token : Token, token.kind.isFiltered = true ∧ token.StandsIn calling ∧ token.Covers 34 ∧
        ∀ leaf ∈ tree.leaves, leaf.Precedes token ∨ token.Precedes leaf := by
  obtain ⟨tree, parsed, leaves⟩ := exists_parse_calling
  obtain ⟨_, _, stands, whole⟩ := leaves_faithful parsed
  refine ⟨tree, parsed, leaves, stands, ?_⟩
  rcases whole 34 '$' (by decide) with ⟨leaf, member, covers⟩ | gap | ⟨token, filtered, _, found⟩
  · rw [leaves] at member
    have outside : ∀ leaf ∈ callingLeaves, ¬ leaf.Covers 34 := by decide
    exact absurd covers (outside leaf member)
  · exact absurd gap (by decide)
  · exact ⟨token, filtered, found⟩

/-- Characters are typed with the left hand, or belong to a string, which does not go beyond its
line. -/
theorem typed_of_accepted (accepted : parse text = .ok tree) {i : Nat} {c : Char}
    (found : text[i]? = some c) :
    ((∃ leaf ∈ tree.leaves, leaf.kind = .string ∧ leaf.Covers i) ∧ c ≠ '\n') ∨
      Cursor.isGap c = true ∨ isLeftHand c = true := by
  obtain ⟨tokens, laid⟩ := exists_tokens accepted
  rcases laid.covers i c found with ⟨token, member, covers⟩ | gap
  · have inside := (laid.standsIn token member).mem covers found
    obtain ⟨before, rest, out, taken⟩ := laid.isSpelled token member
    rcases Terminal.take?_cases taken with ⟨isString, body, oneLine, quoted⟩ | ⟨_, typed⟩
    · -- Every string is shown.
      refine .inl ⟨⟨token, (laid.shown token member).resolve_right ?_, isString, covers⟩, ?_⟩
      · rw [isString]
        decide
      · rintro rfl
        rw [quoted, mem_append, mem_cons, mem_singleton] at inside
        have bodied : '\n' ∈ body := by simpa using inside
        exact absurd (all_eq_true.mp oneLine _ bodied) (by decide)
    · exact .inr (.inr (all_eq_true.mp typed c inside))
  · exact .inr (.inl gap)

theorem newline_not_mem (accepted : parse text = .ok tree) : '\n' ∉ text := by
  intro member
  obtain ⟨i, found⟩ := mem_iff_getElem?.mp member
  rcases typed_of_accepted accepted found with ⟨_, other⟩ | gap | typed
  · exact other rfl
  · exact absurd gap (by decide)
  · exact absurd typed (by decide)

/-- Programs are typed with the left hand, outside strings, and on a single line. -/
theorem leftHand_of_accepted (accepted : parse text = .ok tree) :
    (∀ i c, text[i]? = some c →
      (∃ leaf ∈ tree.leaves, leaf.kind = .string ∧ leaf.Covers i) ∨ Cursor.isGap c = true ∨
        isLeftHand c = true) ∧ '\n' ∉ text :=
  ⟨fun _ _ found => (typed_of_accepted accepted found).imp And.left id, newline_not_mem accepted⟩

/-- The comma belongs to the string. -/
theorem leftHand_of_accepted_calling : ∃ tree, parse calling = .ok tree ∧
    (∃ leaf ∈ tree.leaves, leaf.kind = .string ∧ leaf.Covers 24) ∧ '\n' ∉ calling := by
  obtain ⟨tree, parsed, _⟩ := exists_parse_calling
  obtain ⟨typed, oneLine⟩ := leftHand_of_accepted parsed
  refine ⟨tree, parsed, ?_, oneLine⟩
  exact (typed 24 ',' (by decide)).resolve_right (by decide)

end Accepted

end LeftHand
