import LeftHand.Proofs.Ast.Offence
import LeftHand.Proofs.Format.Chunks
import LeftHand.Proofs.Grammar.Tokens

/-! Which reserved words are names after all. -/

namespace LeftHand

open List

/-- The only reserved word that ends with `@`. -/
def signWord : List Char :=
  ['s', 'f', '@']

/-- A text is empty, or goes on with a run, a mark or a gap. -/
def GoesOn (text : List Char) : Prop :=
  ∀ c, text.head? = some c → isNameChar c = true ∨ isBreak c = true

section Words

variable {before : Option Char} {word rest gap text : List Char} {kind : Terminal}

theorem goesOn_of_gap (isGap : text.all Cursor.isGap = true) : GoesOn text := fun c starts =>
  .inr (isBreak_of_isGap (all_eq_true.mp isGap c (mem_of_mem_head? starts)))

theorem goesOn_of_take? (isGap : gap.all Cursor.isGap = true)
    (taken : kind.spelling.take? before text = some (word, rest)) : GoesOn (gap ++ (word ++ rest)) := by
  cases gap with
  | cons d gap =>
    -- A gap starts like a mark, as far as names are concerned.
    rintro c ⟨⟩
    exact .inr (isBreak_of_isGap (all_eq_true.mp isGap _ mem_cons_self))
  | nil =>
    rcases isRun_or_isMark_of_take? taken with isRun | isMark
    · obtain ⟨d, more, rfl, named⟩ := isRun.head?
      rintro c ⟨⟩
      exact .inl named
    · obtain ⟨d, more, rfl, break_⟩ := isMark.head?
      rintro c ⟨⟩
      exact .inr break_

theorem eq_signWord_of_getLast? : ∀ word ∈ reservedWords,
    word.getLast?.any isWordChar = false → word = signWord := by
  decide +kernel

/-- A reserved word is taken as a name only if it ends with no word character. -/
theorem eq_signWord_of_take? (taken : Spelling.name.take? before text = some (word, rest))
    (reserved : word ∈ reservedWords) (goesOn : GoesOn rest) : word = signWord := by
  obtain ⟨_, rfl, ends, free⟩ := take?_name.mp taken
  -- What follows the name is no part of it, so it is a break or nothing.
  have apart : rest.head?.any isWordChar = false := by
    cases rest with
    | nil => rfl
    | cons c rest =>
      rcases goesOn c rfl with named | break_
      · rw [head?_cons, Option.any_some, named] at ends
        cases ends
      · exact (isBreak_facts break_).2.2
  -- Were its last character a word character, the word would end at a boundary.
  refine eq_signWord_of_getLast? word reserved (Bool.eq_false_iff.mpr fun lasting => ?_)
  have boundary : isWordBoundary word.getLast? rest.head? = true := by
    rw [isWordBoundary, apart, lasting]
    rfl
  rw [startsReserved_iff.mpr ⟨word, reserved, rest, rfl, boundary⟩] at free
  cases free

end Words

namespace Lexes

variable {here there : Cursor} {tokens : List Token} {token : Token}

theorem goesOn (lexes : Lexes here tokens there) (ends : there.rest.all Cursor.isGap = true) :
    GoesOn here.rest := by
  cases lexes with
  | done => exact goesOn_of_gap ends
  | token taken =>
    obtain ⟨gap, piece, rest, isGap, cut, found, _⟩ := Cursor.take?_iff.mp taken
    rw [cut]
    exact goesOn_of_take? isGap found

theorem exists_take (lexes : Lexes here tokens there) (ends : there.rest.all Cursor.isGap = true)
    (member : token ∈ tokens) : ∃ before text rest,
      token.kind.spelling.take? before text = some (token.text, rest) ∧ GoesOn rest := by
  induction lexes with
  | done => cases member
  | token taken onward ih =>
    rcases mem_cons.mp member with rfl | later
    · -- Behind the first token stand the others, or the end.
      obtain ⟨gap, piece, rest, _, _, found, rfl, rfl⟩ := Cursor.take?_iff.mp taken
      exact ⟨_, _, rest, found, onward.goesOn ends⟩
    · exact ih ends later

end Lexes

/-- The token is a name, spelled like the word. -/
def Token.Names (token : Token) (word : List Char) : Prop :=
  token.kind = .identifier ∧ token.text = word

instance (token : Token) (word : List Char) : Decidable (token.Names word) :=
  inferInstanceAs (Decidable (_ ∧ _))

/-- The terminals that a form mentions itself, not in its phrases. -/
def Form.terminals : Form → List Terminal
  | empty | phrase _ => []
  | token kind => [kind]
  | seq first second => first.terminals ++ second.terminals
  | alt left right => left.terminals ++ right.terminals
  | many item => item.terminals

/-- The tokens among trees next to each other, not in parts of them. -/
def Tree.tokensAmong (trees : List Tree) : List Token :=
  trees.filterMap fun
    | .leaf token => some token
    | .node _ _ => none

/-- The tokens that stand in phrases of a rule, not in parts of them. -/
def Tree.tokensOf (rule : Rule) (tree : Tree) : List Token :=
  tree.walk.flatMap fun
    | .node other children => if other = rule then tokensAmong children else []
    | .leaf _ => []

theorem Rule.mem_all (rule : Rule) : rule ∈ all := by
  cases rule <;> decide

/-- A reserved word that an accepted text has for a name is `sf@`. -/
theorem eq_signWord_of_accepted {text word : List Char} {tree : Tree} {token : Token}
    (accepted : parse text = .ok tree) (member : token ∈ tree.leaves) (named : token.Names word)
    (reserved : word ∈ reservedWords) : word = signWord := by
  obtain ⟨derivation, ⟨there, reading, atEnd⟩, shown⟩ := exists_reading accepted
  obtain ⟨before, around, rest, taken, goesOn⟩ :=
    reading.lexes.exists_take atEnd (Derivation.mem_tokens shown member)
  obtain ⟨isName, rfl⟩ := named
  rw [isName] at taken
  exact eq_signWord_of_take? taken reserved goesOn

/-- A program with `sf@` for every name. -/
def signed : List Char :=
  "def dect sf@ dect sf@ %s dect sf@$ sf@ ass exec sf@ %e addr sf@ !e$ ret sf@$ !s".toList

theorem exists_parse_signed : ∃ tree, parse signed = .ok tree ∧
    (∃ token ∈ tree.leaves, token.Names signWord) ∧
      ∀ rule ∈ Rule.all, .identifier ∈ rule.body.terminals →
        ∃ token ∈ tree.tokensOf rule, token.Names signWord :=
  exists_ok_of_any (by decide +kernel)

/-- Of the reserved words `sf@` alone is a name in some program, and then it may be one wherever the
grammar has a name. -/
theorem reserved_names_iff (word : List Char) :
    ((word ∈ reservedWords ∧
        ∃ text tree, parse text = .ok tree ∧ ∃ token ∈ tree.leaves, token.Names word) ↔
      word = signWord) ∧
    ∃ text tree, parse text = .ok tree ∧ ∀ rule : Rule, .identifier ∈ rule.body.terminals →
      ∃ token ∈ tree.tokensOf rule, token.Names signWord := by
  obtain ⟨tree, parsed, shown, everywhere⟩ := exists_parse_signed
  refine ⟨⟨?_, ?_⟩, signed, tree, parsed, fun rule => everywhere rule rule.mem_all⟩
  · rintro ⟨reserved, text, tree, accepted, token, member, named⟩
    exact eq_signWord_of_accepted accepted member named reserved
  · rintro rfl
    exact ⟨by decide, signed, tree, parsed, shown⟩

/-- A function with a reserved word for its name is accepted. -/
theorem not_reserved_sign : ['s', 'f', '@'] ∈ reservedWords ∧
    ∃ tree, parse "def v@1d sf@ %s !s".toList = .ok tree ∧
      ⟨.identifier, ['s', 'f', '@'], 9⟩ ∈ tree.leaves :=
  ⟨by decide, exists_ok_of_any (by decide +kernel)⟩

end LeftHand
