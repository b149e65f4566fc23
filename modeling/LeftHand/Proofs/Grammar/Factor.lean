import LeftHand.Proofs.Grammar.Brackets
import LeftHand.Proofs.Grammar.Overlap

/-!
Factors by the terminal that they start with.

One that can end in two ways is loose: it can be read as two factors next to each other.
-/

namespace LeftHand

open List

variable {opened closed word name : Token} {arguments others : List Derivation}
  {inside behind : Cursor}

/-- No word follows the sign at once. -/
def Token.isLooseSign (sign : Token) (operand : List Token) : Bool :=
  operand.head?.all fun next => sign.stop < next.place || !next.text.head?.any isWordChar

namespace Derivation

/-- Whether a derivation is that of an opening bracket. -/
def opens : Derivation → Bool
  | token taken => taken.kind == .parenStart
  | _ => false

/-- Whether a sign stands loosely before its operand. -/
def isLooseNegation : Derivation → Bool
  | seq (token sign) operand => sign.isLooseSign operand.tokens
  | _ => false

/-- Whether a call of one argument is not apart from the name that it calls. -/
def isGluedCall : Derivation → Bool
  | seq (token word) (seq (token name) (seq _ (seq (seq empty _) _))) => word.stop == name.place
  | _ => false

/-- Whether some part of a derivation outside of brackets can be read as two: a sign that stands
loosely before its operand, or a call that is not apart from the name that it calls. -/
def isLoose : Derivation → Bool
  | empty | token _ => false
  | phrase rule body =>
    if rule = .execExpr then body.isGluedCall
    else (rule == .negExpr && body.isLooseNegation) || body.isLoose
  | seq first second => first.isLoose || (!first.opens && second.isLoose)
  | left chosen | right chosen => chosen.isLoose

/-- The derivation of a token that is one of some kinds. -/
def ofToken (taken : Token) : List Terminal → Derivation
  | [] | [_] => token taken
  | kind :: kinds => if taken.kind = kind then left (token taken) else right (ofToken taken kinds)

theorem ofToken_cons (taken : Token) (first second : Terminal) (kinds : List Terminal) :
    ofToken taken (first :: second :: kinds) =
      if taken.kind = first then left (token taken) else right (ofToken taken (second :: kinds)) :=
  rfl

/-- The derivation of a factor that is a literal. -/
def ofLiteral (taken : Token) : Derivation :=
  phrase .factor (left (phrase .literal (ofToken taken Rule.literal.first)))

/-- The derivation of a factor that is a name, or the address of it. -/
def ofName (address : Derivation) (name : Token) : Derivation :=
  phrase .factor (right (left (phrase .nameExpr (seq address (token name)))))

/-- The derivation of a factor that is a call. -/
def ofCall (word name opened : Token) (arguments : List Derivation) (closed : Token) : Derivation :=
  phrase .factor (right (right (left (phrase .execExpr (seq (token word) (seq (token name)
    (seq (token opened) (seq (row arguments) (token closed)))))))))

/-- The derivation of a factor that is another one behind a sign. -/
def ofSign (sign : Token) (operand : Derivation) : Derivation :=
  phrase .factor (right (right (right
    (match sign.kind with
    | .reverseWord => left (phrase .revExpr (seq (token sign) operand))
    | .negWord => right (left (phrase .negExpr (seq (token sign) operand)))
    | _ => right (right (left (phrase .derefExpr (seq (token sign) operand))))))))

/-- The derivation of a factor in brackets. -/
def ofBrackets (opened : Token) (value : Derivation) (closed : Token) : Derivation :=
  phrase .factor (right (right (right (right (right (right
    (seq (token opened) (seq value (token closed)))))))))

end Derivation

/-- How a factor goes on behind its first token. -/
def FactorTail (kind : Terminal) (token : Token) (next : Cursor) (derivation : Derivation)
    (there : Cursor) : Prop :=
  match kind with
  | .integer | .string | .booleanLiteral => derivation = .ofLiteral token ∧ there = next
  | .identifier => derivation = .ofName (.right .empty) token ∧ there = next
  | .addressWord => ∃ name, next.take? .identifier = some (name, there) ∧
      derivation = .ofName (.left (.token token)) name
  | .execWord => ∃ name called opened inside arguments behind closed,
      next.take? .identifier = some (name, called) ∧ called.take? .parenStart = some (opened, inside) ∧
        DerivesAll (.phrase .expr) inside arguments behind ∧
          behind.take? .parenEnd = some (closed, there) ∧
            derivation = .ofCall token name opened arguments closed
  | .reverseWord | .negWord | .pointerMark => ∃ operand,
      Derives (.phrase .factor) next operand there ∧ derivation = .ofSign token operand
  | .parenStart => ∃ value behind closed, Derives (.phrase .expr) next value behind ∧
      behind.take? .parenEnd = some (closed, there) ∧ derivation = .ofBrackets token value closed
  | _ => False

section Factors

variable {here there next : Cursor} {derivation : Derivation} {kind : Terminal} {token : Token}
  {kinds : List Terminal}

theorem derives_oneToken (filled : kinds ≠ []) (nodup : kinds.Nodup) :
    Derives (.oneToken kinds) here derivation there ↔ ∃ kind ∈ kinds, ∃ token,
      derivation = .ofToken token kinds ∧ here.take? kind = some (token, there) := by
  induction kinds generalizing derivation with
  | nil => exact absurd rfl filled
  | cons first kinds ih =>
    cases kinds with
    | nil => simp [Form.oneToken, Form.oneOf, derives_token, Derivation.ofToken]
    | cons second kinds =>
      obtain ⟨differs, others⟩ := nodup_cons.mp nodup
      have unfolded : Form.oneToken (first :: second :: kinds) =
          .alt (.token first) (.oneToken (second :: kinds)) := rfl
      rw [unfolded]
      constructor
      · intro derived
        rcases derived.of_alt with ⟨chosen, rfl, one⟩ | ⟨chosen, rfl, rest⟩
        · obtain ⟨token, rfl, taken⟩ := derives_token.mp one
          refine ⟨first, mem_cons_self, token, ?_, taken⟩
          rw [Derivation.ofToken_cons, if_pos (Cursor.kind_of_take? taken)]
        · obtain ⟨kind, member, token, rfl, taken⟩ := (ih (cons_ne_nil _ _) others).mp rest
          refine ⟨kind, mem_cons_of_mem _ member, token, ?_, taken⟩
          have other : token.kind ≠ first := by
            rw [Cursor.kind_of_take? taken]
            rintro rfl
            exact differs member
          rw [Derivation.ofToken_cons, if_neg other]
      · rintro ⟨kind, member, token, rfl, taken⟩
        rw [Derivation.ofToken_cons, Cursor.kind_of_take? taken]
        by_cases same : kind = first
        · subst same
          rw [if_pos rfl]
          exact .left (.token taken)
        · rw [if_neg same]
          have among := mem_of_ne_of_mem same member
          exact .right ((ih (cons_ne_nil _ _) others).mpr ⟨kind, among, token, rfl, taken⟩)

theorem exists_sign {rule : Rule} (isSign : rule.body = .seq (.token kind) (.phrase .factor))
    (derived : Derives (.phrase rule) here derivation there) :
    ∃ sign next operand, derivation = .phrase rule (.seq (.token sign) operand) ∧
      here.take? kind = some (sign, next) ∧ Derives (.phrase .factor) next operand there := by
  obtain ⟨parts, rfl, body⟩ := derived.of_phrase
  rw [isSign] at body
  obtain ⟨_, operand, next, rfl, one, two⟩ := body.of_seq
  obtain ⟨sign, rfl, first⟩ := derives_token.mp one
  exact ⟨sign, next, operand, rfl, first, two⟩

/-- A factor is told by its first token. -/
theorem exists_tail (derived : Derives (.phrase .factor) here derivation there) :
    ∃ kind ∈ Rule.factor.first, ∃ token next, here.take? kind = some (token, next) ∧
      FactorTail kind token next derivation there := by
  replace derived := derived.of_phrase
  obtain ⟨body, rfl, derived⟩ := derived
  -- The alternatives one by one, in the order of the rule.
  replace derived := derived.of_alt
  rcases derived with ⟨literal, rfl, derived⟩ | ⟨body, rfl, derived⟩
  · obtain ⟨choice, rfl, chosen⟩ := derived.of_phrase
    obtain ⟨kind, member, token, rfl, taken⟩ :=
      (derives_oneToken (cons_ne_nil _ _) (by decide)).mp chosen
    simp only [mem_cons, not_mem_nil, or_false] at member
    rcases member with rfl | rfl | rfl <;>
      exact ⟨_, by decide, token, there, taken, rfl, rfl⟩
  replace derived := derived.of_alt
  rcases derived with ⟨named, rfl, derived⟩ | ⟨body, rfl, derived⟩
  · obtain ⟨_, rfl, parts⟩ := derived.of_phrase
    obtain ⟨address, _, middle, rfl, one, two⟩ := parts.of_seq
    obtain ⟨name, rfl, second⟩ := derives_token.mp two
    rcases one.of_alt with ⟨_, rfl, present⟩ | ⟨_, rfl, absent⟩
    · obtain ⟨word, rfl, first⟩ := derives_token.mp present
      exact ⟨.addressWord, by decide, word, middle, first, name, second, rfl⟩
    · cases absent
      exact ⟨.identifier, by decide, name, there, second, rfl, rfl⟩
  replace derived := derived.of_alt
  rcases derived with ⟨call, rfl, derived⟩ | ⟨body, rfl, derived⟩
  · obtain ⟨_, rfl, parts⟩ := derived.of_phrase
    obtain ⟨_, _, next, rfl, one, behindWord⟩ := parts.of_seq
    obtain ⟨_, _, called, rfl, two, behindName⟩ := behindWord.of_seq
    obtain ⟨_, _, inside, rfl, three, behindOpened⟩ := behindName.of_seq
    obtain ⟨_, _, behind, rfl, four, five⟩ := behindOpened.of_seq
    obtain ⟨word, rfl, first⟩ := derives_token.mp one
    obtain ⟨name, rfl, second⟩ := derives_token.mp two
    obtain ⟨opened, rfl, third⟩ := derives_token.mp three
    obtain ⟨arguments, rfl, fourth⟩ := derives_many.mp four
    obtain ⟨closed, rfl, fifth⟩ := derives_token.mp five
    exact ⟨.execWord, by decide, word, next, first, name, called, opened, inside, arguments, behind,
      closed, second, third, fourth, fifth, rfl⟩
  replace derived := derived.of_alt
  rcases derived with ⟨reversed, rfl, derived⟩ | ⟨body, rfl, derived⟩
  · obtain ⟨sign, next, operand, rfl, first, second⟩ := exists_sign rfl derived
    refine ⟨.reverseWord, by decide, sign, next, first, operand, second, ?_⟩
    rw [Derivation.ofSign, Cursor.kind_of_take? first]
  replace derived := derived.of_alt
  rcases derived with ⟨negated, rfl, derived⟩ | ⟨body, rfl, derived⟩
  · obtain ⟨sign, next, operand, rfl, first, second⟩ := exists_sign rfl derived
    refine ⟨.negWord, by decide, sign, next, first, operand, second, ?_⟩
    rw [Derivation.ofSign, Cursor.kind_of_take? first]
  replace derived := derived.of_alt
  rcases derived with ⟨pointed, rfl, derived⟩ | ⟨body, rfl, derived⟩
  · obtain ⟨sign, next, operand, rfl, first, second⟩ := exists_sign rfl derived
    refine ⟨.pointerMark, by decide, sign, next, first, operand, second, ?_⟩
    rw [Derivation.ofSign, Cursor.kind_of_take? first]
  · obtain ⟨_, _, inside, rfl, one, others⟩ := derived.of_seq
    obtain ⟨value, _, behind, rfl, two, three⟩ := others.of_seq
    obtain ⟨opened, rfl, first⟩ := derives_token.mp one
    obtain ⟨closed, rfl, third⟩ := derives_token.mp three
    exact ⟨.parenStart, by decide, opened, inside, first, value, behind, closed, two, third, rfl⟩

theorem derives_of_tail (taken : here.take? kind = some (token, next))
    (tail : FactorTail kind token next derivation there) :
    Derives (.phrase .factor) here derivation there := by
  have isKind := Cursor.kind_of_take? taken
  cases kind with
  | integer | string | booleanLiteral =>
    obtain ⟨rfl, rfl⟩ := tail
    refine .phrase (.left (.phrase ?_))
    exact (derives_oneToken (cons_ne_nil _ _) (by decide)).mpr ⟨_, by decide, token, rfl, taken⟩
  | identifier =>
    obtain ⟨rfl, rfl⟩ := tail
    exact .phrase (.right (.left (.phrase (.seq (.right .empty) (.token taken)))))
  | addressWord =>
    obtain ⟨name, second, rfl⟩ := tail
    exact .phrase (.right (.left (.phrase (.seq (.left (.token taken)) (.token second)))))
  | execWord =>
    obtain ⟨name, called, opened, inside, arguments, behind, closed, second, third, fourth, fifth, rfl⟩ :=
      tail
    have many := derives_many.mpr ⟨arguments, rfl, fourth⟩
    exact .phrase (.right (.right (.left (.phrase (.seq (.token taken) (.seq (.token second)
      (.seq (.token third) (.seq many (.token fifth)))))))))
  | reverseWord =>
    obtain ⟨operand, derived, rfl⟩ := tail
    rw [Derivation.ofSign, isKind]
    exact .phrase (.right (.right (.right (.left (.phrase (.seq (.token taken) derived))))))
  | negWord =>
    obtain ⟨operand, derived, rfl⟩ := tail
    rw [Derivation.ofSign, isKind]
    exact .phrase (.right (.right (.right (.right (.left (.phrase (.seq (.token taken) derived)))))))
  | pointerMark =>
    obtain ⟨operand, derived, rfl⟩ := tail
    rw [Derivation.ofSign, isKind]
    exact .phrase (.right (.right (.right (.right (.right (.left
      (.phrase (.seq (.token taken) derived))))))))
  | parenStart =>
    obtain ⟨value, behind, closed, derived, closes, rfl⟩ := tail
    exact .phrase (.right (.right (.right (.right (.right (.right
      (.seq (.token taken) (.seq derived (.token closes)))))))))
  | _ => exact tail.elim

end Factors

section Looseness

variable {here there next : Cursor} {operand : Derivation} {kind : Terminal} {sign : Token}

theorem Derivation.isLoose_ofToken (taken : Token) (kinds : List Terminal) :
    (ofToken taken kinds).isLoose = false := by
  induction kinds with
  | nil => rfl
  | cons first kinds ih =>
    cases kinds with
    | nil => rfl
    | cons second kinds =>
      rw [ofToken_cons]
      split
      · rfl
      · exact ih

theorem Derivation.isLoose_ofLiteral (taken : Token) : (ofLiteral taken).isLoose = false :=
  isLoose_ofToken taken _

theorem Derivation.isLoose_ofBrackets {value : Derivation} (opens : opened.kind = .parenStart) :
    (ofBrackets opened value closed).isLoose = false := by
  simp [ofBrackets, isLoose, Derivation.opens, opens]

theorem Derivation.isLoose_ofCall :
    (ofCall word name opened arguments closed).isLoose = true ↔
      (∃ value, arguments = [value]) ∧ word.stop = name.place := by
  have shape : (ofCall word name opened arguments closed).isLoose =
      isGluedCall (seq (token word) (seq (token name) (seq (token opened)
        (seq (row arguments) (token closed))))) := rfl
  rw [shape]
  constructor
  · intro glued
    rw [isGluedCall.eq_def] at glued
    split at glued
    · rename_i parts
      simp only [seq.injEq] at parts
      obtain ⟨isWord, isName, _, single, _⟩ := parts
      cases isWord
      cases isName
      exact ⟨⟨_, row_injective (single.trans rfl)⟩, beq_iff_eq.mp glued⟩
    · cases glued
  · rintro ⟨⟨value, rfl⟩, glued⟩
    exact beq_iff_eq.mpr glued

theorem Derivation.isLoose_ofSign (isSign : sign.kind ∈ [.reverseWord, .negWord, .pointerMark]) :
    (ofSign sign operand).isLoose =
      ((sign.kind == .negWord && sign.isLooseSign operand.tokens) || operand.isLoose) := by
  simp only [mem_cons, not_mem_nil, or_false] at isSign
  rcases isSign with isKind | isKind | isKind <;>
    simp only [ofSign, isKind, isLoose, opens, isLooseNegation] <;> rfl

/-- A sign is loose if the text behind it does not go on with a word. -/
theorem isLooseSign_eq (signed : here.take? kind = some (sign, next))
    (derived : Derives (.phrase .factor) next operand there) :
    sign.isLooseSign operand.tokens = !next.rest.head?.any isWordChar := by
  have stop := Cursor.stop_of_take? signed
  have advanced := derived.place_lt rfl
  have lexes := derived.lexes
  generalize operand.tokens = tokens at lexes
  cases lexes with
  | done => omega
  | token taken _ =>
    obtain ⟨gap, piece, rest, isGap, cut, found, rfl, _⟩ := Cursor.take?_iff.mp taken
    rw [Token.isLooseSign, head?_cons, Option.all_some, stop, cut]
    cases gap with
    | cons g gap =>
      -- A gap is no word.
      have break_ := isBreak_of_isGap (all_eq_true.mp isGap g mem_cons_self)
      simp [(isBreak_facts break_).2.2]
    | nil =>
      obtain ⟨last, ends, _⟩ := Cursor.exists_last found
      cases piece with
      | nil => cases ends
      | cons c piece => simp

end Looseness

/-- The only derivation of a form between two places, no part of which can be read as two. -/
structure Firm (form : Form) (here : Cursor) (derivation : Derivation) (there : Cursor) : Prop where
  derived : Derives form here derivation there
  only : ∀ other, Derives form here other there → other = derivation
  tight : derivation.isLoose = false

/-- No factor goes on from a place. -/
structure Cursor.Closes (here : Cursor) : Prop where
  noFactor : ¬ here.Starts Rule.factor.first
  tame : IsTame here.rest

/-- If a bracket opens at a place, a factor goes on from there. -/
def Cursor.Resumes (here : Cursor) : Prop :=
  ∀ token next, here.take? .parenStart = some (token, next) →
    ∃ derivation there, Derives (.phrase .factor) here derivation there

section Ends

variable {here first second there next : Cursor} {one two derivation : Derivation} {kind : Terminal}
  {token : Token}

theorem Derives.isTame {form : Form} (derived : Derives form here derivation there)
    (solid : form.isNullable = false) : IsTame here.rest := by
  rcases derived.starts with ⟨nullable, _⟩ | ⟨kind, _, ⟨token, next⟩, taken⟩
  · rw [solid] at nullable
    cases nullable
  · exact Cursor.isTame_of_take? taken

theorem isTame_of_tail (tail : FactorTail kind token next derivation there) (tame : IsTame there.rest) :
    IsTame next.rest := by
  cases kind with
  | integer | string | booleanLiteral | identifier =>
    obtain ⟨_, rfl⟩ := tail
    exact tame
  | addressWord =>
    obtain ⟨_, taken, _⟩ := tail
    exact Cursor.isTame_of_take? taken
  | execWord =>
    obtain ⟨_, _, _, _, _, _, _, taken, _⟩ := tail
    exact Cursor.isTame_of_take? taken
  | reverseWord | negWord | pointerMark =>
    obtain ⟨_, derived, _⟩ := tail
    exact derived.isTame rfl
  | parenStart =>
    obtain ⟨_, _, _, derived, _⟩ := tail
    exact derived.isTame rfl
  | _ => exact tail.elim

theorem Firm.arguments_eq {called : Cursor}
    (firm : Firm (.phrase .factor) here (.ofCall word name opened arguments closed) there)
    (first : here.take? .execWord = some (word, next))
    (named : next.take? .identifier = some (name, called))
    (opens : called.take? .parenStart = some (opened, inside))
    (derived : DerivesAll (.phrase .expr) inside others behind)
    (closes : behind.take? .parenEnd = some (closed, there)) : others = arguments := by
  have again := firm.only _ (derives_of_tail first
    ⟨name, called, opened, inside, others, behind, closed, named, opens, derived, closes, rfl⟩)
  simp only [Derivation.ofCall, Derivation.phrase.injEq, Derivation.right.injEq, Derivation.left.injEq,
    Derivation.seq.injEq, true_and, and_true] at again
  exact Derivation.row_injective again

theorem Firm.operand {sign : Token} {operand : Derivation}
    (firm : Firm (.phrase .factor) here (.ofSign sign operand) there)
    (member : kind ∈ [Terminal.reverseWord, .negWord, .pointerMark])
    (signed : here.take? kind = some (sign, next))
    (derived : Derives (.phrase .factor) next operand there) :
    Firm (.phrase .factor) next operand there := by
  have isKind := Cursor.kind_of_take? signed
  refine ⟨derived, fun other also => ?_, ?_⟩
  · have tail : FactorTail kind sign next (.ofSign sign other) there := by
      simp only [mem_cons, not_mem_nil, or_false] at member
      rcases member with rfl | rfl | rfl <;> exact ⟨other, also, rfl⟩
    have again := firm.only _ (derives_of_tail signed tail)
    simp only [mem_cons, not_mem_nil, or_false] at member
    rcases member with rfl | rfl | rfl <;> simpa [Derivation.ofSign, isKind] using again
  · have tight := firm.tight
    rw [Derivation.isLoose_ofSign (isKind ▸ member), Bool.or_eq_false_iff] at tight
    exact tight.2

/-- What stands in brackets ends at one place, whether it is one expression or several. -/
theorem end_eq_of_brackets {last : Cursor} {found : Token}
    (derived : DerivesAll (.phrase .expr) inside arguments behind)
    (closes : behind.take? .parenEnd = some (closed, first))
    (also : DerivesAll (.phrase .expr) inside others last)
    (alsoCloses : last.take? .parenEnd = some (found, second)) :
    behind = last ∧ closed = found ∧ first = second := by
  have many := derives_many.mpr ⟨arguments, rfl, derived⟩
  obtain rfl := many.end_eq_of_closes (derives_many.mpr ⟨others, rfl, also⟩) rfl rfl closes alsoCloses
  cases closes.symm.trans alsoCloses
  exact ⟨rfl, rfl, rfl⟩

/-- A firm factor ends where any other one ends that the text can go on from. -/
theorem Firm.end_eq (firm : Firm (.phrase .factor) here one first) (closes : first.Closes)
    (derived : Derives (.phrase .factor) here two second) (resumes : second.Resumes) :
    second = first := by
  -- A sign leaves less text to go, so the induction is on the length of that.
  generalize size : here.rest.length = length
  induction length using Nat.strongRecOn generalizing here one two with
  | ind length ih =>
  obtain ⟨kind, member, token, next, taken, tail⟩ := exists_tail firm.derived
  obtain ⟨other, among, found, last, also, tail'⟩ := exists_tail derived
  rcases Cursor.overlaps taken also (mem_append_left _ member) (mem_append_left _ among)
    (isTame_of_tail tail closes.tame) with rfl | ⟨clings, rfl⟩ | ⟨clings, rfl⟩
  · -- Both factors start with the same token.
    cases taken.symm.trans also
    cases kind with
    | integer | string | booleanLiteral | identifier =>
      obtain ⟨_, rfl⟩ := tail
      obtain ⟨_, rfl⟩ := tail'
      rfl
    | addressWord =>
      obtain ⟨_, named, _⟩ := tail
      obtain ⟨_, again, _⟩ := tail'
      cases named.symm.trans again
      rfl
    | execWord =>
      obtain ⟨_, _, _, _, _, _, _, named, opens, derived, closes, _⟩ := tail
      obtain ⟨_, _, _, _, _, _, _, named', opens', derived', closes', _⟩ := tail'
      cases named.symm.trans named'
      cases opens.symm.trans opens'
      exact (end_eq_of_brackets derived closes derived' closes').2.2.symm
    | reverseWord | negWord | pointerMark =>
      obtain ⟨operand, derived, rfl⟩ := tail
      obtain ⟨_, derived', _⟩ := tail'
      have shorter : next.rest.length < length := by
        have onward := Cursor.place_lt_of_take? taken
        have total := (Cursor.leadsTo_of_take? taken).place_add_length
        omega
      exact ih _ shorter (firm.operand (by decide) taken derived) derived' rfl
    | parenStart =>
      obtain ⟨_, _, _, derived, closes, _⟩ := tail
      obtain ⟨_, _, _, derived', closes', _⟩ := tail'
      exact (end_eq_of_brackets (.cons derived .nil) closes (.cons derived' .nil) closes').2.2.symm
    | _ => exact tail.elim
  · -- The other factor is a name, of which a word of the firm one is the start.
    obtain ⟨_, rfl⟩ := tail'
    simp only [clingingKinds, mem_cons, not_mem_nil, or_false] at clings
    rcases clings with rfl | rfl
    · obtain ⟨name, called, opened, inside, arguments, behind, closed, named, opens, derived, closes,
        rfl⟩ := tail
      obtain ⟨rfl, glued⟩ := Cursor.eq_of_exec_of_name taken also named
      -- The text goes on with brackets, so the call has one argument.
      obtain ⟨factor, there, bracketed⟩ := resumes _ _ opens
      obtain ⟨start, _, _, _, opens', tail'⟩ := exists_tail bracketed
      obtain rfl := Cursor.kind_eq_of_opens opens opens'
      cases opens.symm.trans opens'
      obtain ⟨value, last, _, derived', closes', _⟩ := tail'
      have single : DerivesAll (.phrase .expr) inside [value] last := .cons derived' .nil
      obtain ⟨rfl, rfl, rfl⟩ := end_eq_of_brackets derived closes single closes'
      have same := firm.arguments_eq taken named opens single closes
      have tight := firm.tight
      rw [Derivation.isLoose_ofCall.mpr ⟨⟨value, same.symm⟩, glued⟩] at tight
      cases tight
    · obtain ⟨operand, derived, rfl⟩ := tail
      have tight := firm.tight
      rw [Derivation.isLoose_ofSign (by rw [Cursor.kind_of_take? taken]; decide),
        Bool.or_eq_false_iff, Cursor.kind_of_take? taken, isLooseSign_eq taken derived] at tight
      exact absurd also (Cursor.not_name_of_sign taken (by simpa using tight.1))
  · -- The firm factor is a name, of which a word of the other one is the start.
    obtain ⟨_, rfl⟩ := tail
    simp only [clingingKinds, mem_cons, not_mem_nil, or_false] at clings
    rcases clings with rfl | rfl
    · obtain ⟨_, _, _, _, _, _, _, named, opens, _⟩ := tail'
      obtain ⟨rfl, _⟩ := Cursor.eq_of_exec_of_name also taken named
      exact absurd ⟨_, by decide, _, opens⟩ closes.noFactor
    · obtain ⟨_, derived, _⟩ := tail'
      have starts : last.Starts Rule.factor.first := derived.starts.resolve_left fun ⟨null, _⟩ => by
        cases null
      obtain rfl := Cursor.eq_of_sign_of_name also taken starts
      exact absurd starts closes.noFactor

/-- A loose factor can be read as two of them. -/
theorem exists_two_of_isLoose (derived : Derives (.phrase .factor) here one there)
    (loose : one.isLoose = true) :
    ∃ before behind middle, Derives (.phrase .factor) here before middle ∧
      Derives (.phrase .factor) middle behind there := by
  generalize size : here.rest.length = length
  induction length using Nat.strongRecOn generalizing here one with
  | ind length ih =>
  obtain ⟨kind, _, token, next, taken, tail⟩ := exists_tail derived
  have isKind := Cursor.kind_of_take? taken
  -- A sign before a factor that can be read as two belongs to the first of them.
  have behind_sign (member : kind ∈ [Terminal.reverseWord, .negWord, .pointerMark]) {operand : Derivation}
      (inner : Derives (.phrase .factor) next operand there) (isLoose : operand.isLoose = true) :
      ∃ before behind middle, Derives (.phrase .factor) here before middle ∧
        Derives (.phrase .factor) middle behind there := by
    have shorter : next.rest.length < length := by
      have onward := Cursor.place_lt_of_take? taken
      have total := (Cursor.leadsTo_of_take? taken).place_add_length
      omega
    obtain ⟨before, behind, middle, first, second⟩ := ih _ shorter inner isLoose rfl
    refine ⟨.ofSign token before, behind, middle, derives_of_tail taken ?_, second⟩
    simp only [mem_cons, not_mem_nil, or_false] at member
    rcases member with rfl | rfl | rfl <;> exact ⟨before, first, rfl⟩
  cases kind with
  | integer | string | booleanLiteral =>
    obtain ⟨rfl, _⟩ := tail
    rw [Derivation.isLoose_ofLiteral] at loose
    cases loose
  | identifier =>
    obtain ⟨rfl, _⟩ := tail
    cases loose
  | addressWord =>
    obtain ⟨_, _, rfl⟩ := tail
    cases loose
  | execWord =>
    obtain ⟨name, called, opened, inside, arguments, behind, closed, named, opens, inner, closes, rfl⟩ :=
      tail
    obtain ⟨⟨value, rfl⟩, glued⟩ := Derivation.isLoose_ofCall.mp loose
    -- The called name with the word before it, and then the argument in its brackets.
    obtain ⟨longer, also⟩ := Cursor.name_of_exec taken named glued
    cases inner with
    | cons inner none =>
      cases none
      exact ⟨_, _, called, derives_of_tail also ⟨rfl, rfl⟩,
        derives_of_tail opens ⟨value, behind, closed, inner, closes, rfl⟩⟩
  | negWord =>
    obtain ⟨operand, inner, rfl⟩ := tail
    rw [Derivation.isLoose_ofSign (by rw [isKind]; decide), isKind, isLooseSign_eq taken inner,
      Bool.or_eq_true] at loose
    rcases loose with here | inside
    · -- The sign is a name by itself.
      have starts : next.Starts Rule.factor.first := inner.starts.resolve_left fun ⟨null, _⟩ => by
        cases null
      obtain ⟨name, also⟩ := Cursor.name_of_sign taken starts (by simpa using here)
      exact ⟨_, _, next, derives_of_tail also ⟨rfl, rfl⟩, inner⟩
    · exact behind_sign (by decide) inner inside
  | reverseWord | pointerMark =>
    obtain ⟨operand, inner, rfl⟩ := tail
    rw [Derivation.isLoose_ofSign (by rw [isKind]; decide), isKind, Bool.or_eq_true] at loose
    exact behind_sign (by decide) inner (loose.resolve_left fun no => by cases no)
  | parenStart =>
    obtain ⟨_, _, _, _, _, rfl⟩ := tail
    rw [Derivation.isLoose_ofBrackets isKind] at loose
    cases loose
  | _ => exact tail.elim

end Ends

end LeftHand
