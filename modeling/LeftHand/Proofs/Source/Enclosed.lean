import LeftHand.Proofs.Grammar.Splits
import LeftHand.Proofs.Grammar.Transplant

/-! Programs of one function that has no parameters and no result. -/

namespace LeftHand

/-- The start of a function without parameters and result. -/
def header : List Char :=
  "def v@1d f %s".toList

/-- The program in which an expression is a statement. -/
def asStatement (text : List Char) : List Char :=
  header ++ (' ' :: text ++ " $ !s".toList)

/-- The program in which an expression is the argument of a call. -/
def asArgument (text : List Char) : List Char :=
  header ++ (" exec f %e".toList ++ (' ' :: text ++ " !e $ !s".toList))

/-- A form is no empty text, and none of its first terminals takes a token at a place. -/
def Form.isRefusedAt (here : Cursor) (form : Form) : Bool :=
  !form.isNullable && form.first.all fun kind => (here.take? kind).isNone

section Refusal

variable {form : Form} {here there next : Cursor} {derivation : Derivation} {items : List Derivation}
  {kind : Terminal} {token : Token}

theorem not_derives (refused : form.isRefusedAt here = true) : ¬ Derives form here derivation there := by
  rw [Form.isRefusedAt, Bool.and_eq_true, Bool.not_eq_true', List.all_eq_true] at refused
  intro derived
  rcases derived.starts with ⟨nullable, _⟩ | ⟨kind, member, taken, found⟩
  · simp [refused.1] at nullable
  · have none := refused.2 kind member
    simp [found] at none

theorem DerivesAll.eq_nil (all : DerivesAll form here items there) (refused : form.isRefusedAt here = true) :
    items = [] ∧ there = here := by
  cases all with
  | nil => exact ⟨rfl, rfl⟩
  | cons derived _ => exact absurd derived (not_derives refused)

theorem Derives.token_eq (derived : Derives (.token kind) here derivation there)
    (taken : here.take? kind = some (token, next)) : derivation = .token token ∧ there = next := by
  obtain ⟨found, rfl, also⟩ := derives_token.mp derived
  cases taken.symm.trans also
  exact ⟨rfl, rfl⟩

end Refusal

namespace Derivation

/-- The derivation of a function around some statements. -/
def enclosing (statements : List Derivation) (closed : Token) : Derivation :=
  phrase .function (seq (token ⟨.defWord, "def".toList, 0⟩)
    (seq (phrase .type (seq (left (phrase .voidType (token ⟨.voidWord, "v@1d".toList, 4⟩))) empty))
      (seq (token ⟨.identifier, ['f'], 9⟩) (seq (phrase .params empty)
        (phrase .block (seq (token ⟨.scopeStart, ['%', 's'], 11⟩)
          (seq (row statements) (token closed))))))))

/-- The derivation of a program whose only function is one statement. -/
def ofBody (statement : Derivation) (closed : Token) : Derivation :=
  phrase .program (seq (enclosing [statement] closed) empty)

/-- The derivation of an expression that is a single factor. -/
def ofFactor (value : Derivation) : Derivation :=
  phrase .expr (phrase .orExpr (seq (phrase .andExpr (seq (phrase .equality (seq (phrase .comparison (seq
    (phrase .formula (seq (phrase .term (seq value empty)) empty)) empty)) empty)) empty)) empty))

/-- The derivation of an expression as a statement. -/
def ofStatement (value : Derivation) (ended : Token) : Derivation :=
  phrase .statement (right (left (phrase .exprStmt (seq value (token ended)))))

end Derivation

section Header

variable {tail : List Char} {there : Cursor} {derivation : Derivation}

theorem derives_enclosing : Derives (.phrase .function) (.start (header ++ tail)) derivation there ↔
    ∃ statements behind closed, derivation = .enclosing statements closed ∧
      DerivesAll (.phrase .statement) ⟨13, some 's', tail⟩ statements behind ∧
        behind.take? .scopeEnd = some (closed, there) := by
  -- The places behind the words of the header.
  have word : (Cursor.start (header ++ tail)).take? .defWord =
      some (⟨.defWord, "def".toList, 0⟩, ⟨3, some 'f', " v@1d f %s".toList ++ tail⟩) := rfl
  have typed : (Cursor.mk 3 (some 'f') (" v@1d f %s".toList ++ tail)).take? .voidWord =
      some (⟨.voidWord, "v@1d".toList, 4⟩, ⟨8, some 'd', " f %s".toList ++ tail⟩) := rfl
  have named : (Cursor.mk 8 (some 'd') (" f %s".toList ++ tail)).take? .identifier =
      some (⟨.identifier, ['f'], 9⟩, ⟨10, some 'f', " %s".toList ++ tail⟩) := rfl
  have opened : (Cursor.mk 10 (some 'f') (" %s".toList ++ tail)).take? .scopeStart =
      some (⟨.scopeStart, ['%', 's'], 11⟩, ⟨13, some 's', tail⟩) := rfl
  constructor
  · intro derived
    obtain ⟨_, rfl, parts⟩ := derived.of_phrase
    obtain ⟨_, _, _, rfl, first, afterWord⟩ := parts.of_seq
    obtain ⟨rfl, rfl⟩ := first.token_eq word
    obtain ⟨_, _, _, rfl, second, afterType⟩ := afterWord.of_seq
    obtain ⟨_, rfl, typeParts⟩ := second.of_phrase
    obtain ⟨_, _, _, rfl, base, marks⟩ := typeParts.of_seq
    -- Of the types only the void one is spelled like this, and no mark follows.
    rcases base.of_alt with ⟨_, rfl, void⟩ | ⟨_, rfl, others⟩
    · obtain ⟨_, rfl, voidWord⟩ := void.of_phrase
      obtain ⟨rfl, rfl⟩ := voidWord.token_eq typed
      obtain ⟨_, rfl, noMarks⟩ := derives_many.mp marks
      obtain ⟨rfl, rfl⟩ := noMarks.eq_nil rfl
      obtain ⟨_, _, _, rfl, third, afterName⟩ := afterType.of_seq
      obtain ⟨rfl, rfl⟩ := third.token_eq named
      obtain ⟨_, _, _, rfl, params, block⟩ := afterName.of_seq
      obtain ⟨_, rfl, declared⟩ := params.of_phrase
      obtain ⟨_, rfl, noParams⟩ := derives_many.mp declared
      obtain ⟨rfl, rfl⟩ := noParams.eq_nil rfl
      obtain ⟨_, rfl, blockParts⟩ := block.of_phrase
      obtain ⟨_, _, _, rfl, opening, inner⟩ := blockParts.of_seq
      obtain ⟨rfl, rfl⟩ := opening.token_eq opened
      obtain ⟨_, _, behind, rfl, row, closing⟩ := inner.of_seq
      obtain ⟨statements, rfl, all⟩ := derives_many.mp row
      obtain ⟨closed, rfl, taken⟩ := derives_token.mp closing
      exact ⟨statements, behind, closed, rfl, all, taken⟩
    · exact absurd others (not_derives rfl)
  · rintro ⟨statements, behind, closed, rfl, all, taken⟩
    have row := derives_many.mpr ⟨statements, rfl, all⟩
    have block := Derives.seq (.token opened) (.seq row (.token taken))
    have void : Derives (.phrase .voidType) _ _ _ := .phrase (.token typed)
    have type : Derives (.phrase .type) _ _ _ := .phrase (.seq (.left void) .none)
    exact .phrase (.seq (.token word) (.seq type (.seq (.token named)
      (.seq (.phrase .none) (.phrase block)))))

theorem reading_enclosing : Reading (header ++ tail) derivation ↔
    ∃ statements behind closed next functions there,
      derivation = .phrase .program (.seq (.enclosing statements closed) (.row functions)) ∧
        DerivesAll (.phrase .statement) ⟨13, some 's', tail⟩ statements behind ∧
          behind.take? .scopeEnd = some (closed, next) ∧
            DerivesAll (.phrase .function) next functions there ∧ there.isAtEnd = true := by
  constructor
  · rintro ⟨there, derived, atEnd⟩
    obtain ⟨_, rfl, parts⟩ := derived.of_phrase
    obtain ⟨_, _, next, rfl, first, others⟩ := parts.of_seq
    obtain ⟨statements, behind, closed, rfl, all, taken⟩ := derives_enclosing.mp first
    obtain ⟨functions, rfl, more⟩ := derives_many.mp others
    exact ⟨statements, behind, closed, next, functions, there, rfl, all, taken, more, atEnd⟩
  · rintro ⟨statements, behind, closed, next, functions, there, rfl, all, taken, more, atEnd⟩
    have first := derives_enclosing.mpr ⟨statements, behind, closed, rfl, all, taken⟩
    exact ⟨there, .phrase (.seq first (derives_many.mpr ⟨functions, rfl, more⟩)), atEnd⟩

end Header

section Lone

variable {level operand : Rule} {operators : List Terminal} {here there : Cursor} {derivation : Derivation}

/-- No phrase ends where an operator starts. -/
def Rule.EndsFree (rule : Rule) (here : Cursor) : Prop :=
  ∀ value stop, Derives (.phrase rule) here value stop → ¬ stop.Starts operatorKinds

/-- On each level a phrase is its first operand, if no operator can follow that. -/
theorem derives_lone (level : Rule) (isLevel : level.level? = some (operand, operators))
    (free : operand.EndsFree here) :
    Derives (.phrase level) here derivation there ↔
      ∃ value, derivation = .phrase level (.seq value .empty) ∧
        Derives (.phrase operand) here value there := by
  rw [derives_level isLevel]
  constructor
  · rintro ⟨first, items, middle, rfl, before, all⟩
    cases all with
    | nil => exact ⟨first, rfl, before⟩
    | cons derived _ =>
      obtain ⟨kind, member, token, next, _, taken, _⟩ := exists_operator isLevel derived
      exact absurd ⟨kind, member, _, taken⟩ (free first middle before)
  · rintro ⟨value, rfl, derived⟩
    exact ⟨value, [], there, rfl, derived, .nil⟩

theorem Rule.EndsFree.climb (free : operand.EndsFree here)
    (isLevel : level.level? = some (operand, operators)) : level.EndsFree here := by
  intro derivation stop derived
  obtain ⟨value, _, inner⟩ := (derives_lone _ isLevel free).mp derived
  exact free value stop inner

theorem derives_ofFactor (free : Rule.factor.EndsFree here) :
    Derives (.phrase .expr) here derivation there ↔
      ∃ value, derivation = .ofFactor value ∧ Derives (.phrase .factor) here value there := by
  -- What ends a factor ends the phrase of each level around it.
  have term : Rule.term.EndsFree here := free.climb rfl
  have formula : Rule.formula.EndsFree here := term.climb rfl
  have comparison : Rule.comparison.EndsFree here := formula.climb rfl
  have equality : Rule.equality.EndsFree here := comparison.climb rfl
  have andExpr : Rule.andExpr.EndsFree here := equality.climb rfl
  have whole : Derives (.phrase .expr) here derivation there ↔
      ∃ value, derivation = .phrase .expr value ∧ Derives (.phrase .orExpr) here value there :=
    ⟨fun derived => derived.of_phrase, fun ⟨_, same, inner⟩ => same ▸ .phrase inner⟩
  simp only [whole, derives_lone .orExpr rfl andExpr, derives_lone .andExpr rfl equality,
    derives_lone .equality rfl comparison, derives_lone .comparison rfl formula,
    derives_lone .formula rfl term, derives_lone .term rfl free]
  constructor
  · rintro ⟨_, rfl, _, rfl, _, rfl, _, rfl, _, rfl, _, rfl, value, rfl, inner⟩
    exact ⟨value, rfl, inner⟩
  · rintro ⟨value, rfl, inner⟩
    exact ⟨_, rfl, _, rfl, _, rfl, _, rfl, _, rfl, _, rfl, value, rfl, inner⟩

end Lone

section Call

variable {tail : List Char} {there behind : Cursor} {derivation : Derivation} {closed : Token}
  {place : Nat} {before : Option Char} {arguments : List Derivation}

/-- The derivation of a call as a statement. -/
def Derivation.ofArguments (arguments : List Derivation) (closed : Token) (place : Nat) : Derivation :=
  ofStatement (ofFactor (ofCall ⟨.execWord, "exec".toList, 14⟩ ⟨.identifier, ['f'], 19⟩
    ⟨.parenStart, ['%', 'e'], 21⟩ arguments closed)) ⟨.lineEnd, ['$'], place + 1⟩

/-- The derivation of a program that is one call. -/
def Derivation.passing (arguments : List Derivation) (closed : Token) (place : Nat) : Derivation :=
  ofBody (ofArguments arguments closed place) ⟨.scopeEnd, ['!', 's'], place + 3⟩

theorem Derivation.passing_injective {one other : List Derivation}
    (same : passing one closed place = passing other closed place) : one = other := by
  simp only [passing, ofBody, enclosing, phrase.injEq, seq.injEq, true_and, and_true] at same
  have statements := Derivation.row_injective same
  simp only [ofArguments, ofStatement, ofFactor, ofCall, List.cons.injEq, phrase.injEq, right.injEq,
    left.injEq, seq.injEq, true_and, and_true] at statements
  exact Derivation.row_injective statements

theorem derives_ofCall :
    Derives (.phrase .factor) ⟨13, some 's', " exec f %e".toList ++ tail⟩ derivation there ↔
      ∃ arguments behind closed, derivation = .ofCall ⟨.execWord, "exec".toList, 14⟩
        ⟨.identifier, ['f'], 19⟩ ⟨.parenStart, ['%', 'e'], 21⟩ arguments closed ∧
          DerivesAll (.phrase .expr) ⟨23, some 'e', tail⟩ arguments behind ∧
            behind.take? .parenEnd = some (closed, there) := by
  have word : (Cursor.mk 13 (some 's') (" exec f %e".toList ++ tail)).take? .execWord =
      some (⟨.execWord, "exec".toList, 14⟩, ⟨18, some 'c', " f %e".toList ++ tail⟩) := rfl
  have named : (Cursor.mk 18 (some 'c') (" f %e".toList ++ tail)).take? .identifier =
      some (⟨.identifier, ['f'], 19⟩, ⟨20, some 'f', " %e".toList ++ tail⟩) := rfl
  have opened : (Cursor.mk 20 (some 'f') (" %e".toList ++ tail)).take? .parenStart =
      some (⟨.parenStart, ['%', 'e'], 21⟩, ⟨23, some 'e', tail⟩) := rfl
  constructor
  · intro derived
    obtain ⟨kind, member, token, next, taken, follows⟩ := exists_tail derived
    -- No other factor starts like this.
    have others : (Rule.factor.first.erase .execWord).all fun kind =>
        ((Cursor.mk 13 (some 's') (" exec f %e".toList ++ tail)).take? kind).isNone := rfl
    by_cases isCall : kind = .execWord
    · subst isCall
      cases word.symm.trans taken
      obtain ⟨_, _, _, _, arguments, behind, closed, name, opens, all, closes, rfl⟩ := follows
      cases named.symm.trans name
      cases opened.symm.trans opens
      exact ⟨arguments, behind, closed, rfl, all, closes⟩
    · have none := List.all_eq_true.mp others kind ((List.mem_erase_of_ne isCall).mpr member)
      rw [taken] at none
      cases none
  · rintro ⟨arguments, behind, closed, rfl, all, closes⟩
    exact derives_of_tail word ⟨_, _, _, _, arguments, behind, closed, named, opened, all, closes, rfl⟩

variable (known : DerivesAll (.phrase .expr) ⟨23, some 'e', tail⟩ arguments behind)

include known

variable (closes : behind.take? .parenEnd = some (closed, ⟨place, before, " $ !s".toList⟩))

include closes

/-- The arguments of a call end where its brackets close, and so the call ends there. -/
theorem derives_ofArguments :
    Derives (.phrase .statement) ⟨13, some 's', " exec f %e".toList ++ tail⟩ derivation there ↔
      ∃ others, derivation = .ofArguments others closed place ∧
        DerivesAll (.phrase .expr) ⟨23, some 'e', tail⟩ others behind ∧
          there = ⟨place + 2, some '$', " !s".toList⟩ := by
  have ended : (Cursor.mk place before " $ !s".toList).take? .lineEnd =
      some (⟨.lineEnd, ['$'], place + 1⟩, ⟨place + 2, some '$', " !s".toList⟩) := rfl
  have free : Rule.factor.EndsFree ⟨13, some 's', " exec f %e".toList ++ tail⟩ := by
    intro value stop derived
    obtain ⟨others, last, found, _, all, alsoCloses⟩ := derives_ofCall.mp derived
    obtain ⟨rfl, rfl, rfl⟩ := end_eq_of_brackets known closes all alsoCloses
    rintro ⟨kind, member, taken, starts⟩
    have none : operatorKinds.all fun kind =>
        ((Cursor.mk place before " $ !s".toList).take? kind).isNone := rfl
    have refused := List.all_eq_true.mp none kind member
    rw [starts] at refused
    cases refused
  constructor
  · intro derived
    obtain ⟨_, rfl, choice⟩ := derived.of_phrase
    rcases choice.of_alt with ⟨_, rfl, returned⟩ | ⟨_, rfl, unreturned⟩
    · exact absurd returned (not_derives rfl)
    · rcases unreturned.of_alt with ⟨_, rfl, statement⟩ | ⟨_, rfl, others⟩
      · obtain ⟨_, rfl, parts⟩ := statement.of_phrase
        obtain ⟨_, _, middle, rfl, value, ending⟩ := parts.of_seq
        obtain ⟨_, rfl, call⟩ := (derives_ofFactor free).mp value
        obtain ⟨others, last, found, rfl, all, alsoCloses⟩ := derives_ofCall.mp call
        obtain ⟨rfl, rfl, rfl⟩ := end_eq_of_brackets known closes all alsoCloses
        obtain ⟨rfl, rfl⟩ := ending.token_eq ended
        exact ⟨others, rfl, all, rfl⟩
      · exact absurd others (not_derives rfl)
  · rintro ⟨others, rfl, all, rfl⟩
    have call := derives_ofCall.mpr ⟨others, behind, closed, rfl, all, closes⟩
    have value := (derives_ofFactor free).mpr ⟨_, rfl, call⟩
    have statement : Derives (.phrase .exprStmt) _ _ _ := .phrase (.seq value (.token ended))
    exact .phrase (.right (.left statement))

/-- The readings of a program that is one call are those of its arguments. -/
theorem reading_passing :
    Reading (header ++ (" exec f %e".toList ++ tail)) derivation ↔
      ∃ others, DerivesAll (.phrase .expr) ⟨23, some 'e', tail⟩ others behind ∧
        derivation = .passing others closed place := by
  have last : (Cursor.mk (place + 2) (some '$') " !s".toList).take? .scopeEnd =
      some (⟨.scopeEnd, ['!', 's'], place + 3⟩, ⟨place + 5, some 's', []⟩) := rfl
  rw [reading_enclosing]
  constructor
  · rintro ⟨statements, stop, _, next, functions, there, rfl, all, ends, more, _⟩
    cases all with
    | nil => cases ends
    | cons first onward =>
      -- Behind the call there is no other statement, and behind the function there is no other one.
      obtain ⟨others, rfl, found, rfl⟩ := (derives_ofArguments known closes).mp first
      obtain ⟨rfl, rfl⟩ := onward.eq_nil rfl
      cases last.symm.trans ends
      obtain ⟨rfl, rfl⟩ := more.eq_nil rfl
      exact ⟨others, found, rfl⟩
  · rintro ⟨others, all, rfl⟩
    have call := (derives_ofArguments known closes).mpr ⟨others, rfl, all, rfl⟩
    exact ⟨_, _, _, _, [], _, rfl, .cons call .nil, last, .nil, rfl⟩

end Call

end LeftHand
