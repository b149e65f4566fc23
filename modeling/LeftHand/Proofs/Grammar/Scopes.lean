import LeftHand.Proofs.Grammar.Tokens

/-! The scopes of a program: every phrase closes the scopes that it opens. -/

namespace LeftHand

open List

/-- How far the scopes of some tokens have been followed. -/
structure Nesting where
  /-- The number of scopes that are open. -/
  depth : Nat
  /-- Whether a statement may end with a scope here: no string stands behind the last end of one. -/
  isClean : Bool
deriving DecidableEq, Repr

/-- What is known of a nesting: its depth, and that it is clean if that is said. -/
def Nesting.Covers (known actual : Nesting) : Prop :=
  known.depth = actual.depth ∧ (known.isClean = true → actual.isClean = true)

/-- Whether a statement ends with a token of the terminal. -/
def Terminal.endsStatement : Terminal → Bool
  | lineEnd | scopeStart | scopeEnd => true
  | _ => false

/-- The nesting behind a token. -/
def Terminal.nest (nesting : Nesting) : Terminal → Option Nesting
  | scopeStart => some ⟨nesting.depth + 1, true⟩
  | scopeEnd => if 0 < nesting.depth ∧ nesting.isClean then some ⟨nesting.depth - 1, true⟩ else none
  | lineEnd => some ⟨nesting.depth, true⟩
  | string => if 0 < nesting.depth then some ⟨nesting.depth, false⟩ else none
  | _ => some nesting

/-- The nesting behind some tokens. -/
def nestTokens (nesting : Nesting) (tokens : List Token) : Option Nesting :=
  tokens.foldlM (fun nesting token => token.kind.nest nesting) nesting

/-- What is known of the nesting behind a phrase. -/
def Rule.nest (nesting : Nesting) : Rule → Option Nesting
  | program | function | block | elseStmt => some ⟨nesting.depth, true⟩
  | params | param | type | voidType | decimalType | booleanType | charType => some nesting
  | statement | retStmt | declareStmt | assignStmt | exprStmt | bassStmt | ifStmt | elseIfStmt | asStmt =>
    if 0 < nesting.depth then some ⟨nesting.depth, true⟩ else none
  | expr | orExpr | andExpr | equality | comparison | formula | term | factor | derefExpr | revExpr
  | negExpr | execExpr | nameExpr | literal =>
    if 0 < nesting.depth then some ⟨nesting.depth, false⟩ else none

/-- What is known of the nesting behind a form. -/
def Form.nest (nesting : Nesting) : Form → Option Nesting
  | empty => some nesting
  | token kind => kind.nest nesting
  | phrase rule => rule.nest nesting
  | seq first second => (first.nest nesting).bind (second.nest ·)
  | alt left right =>
    (left.nest nesting).bind fun one => (right.nest nesting).bind fun other =>
      if one.depth = other.depth then some ⟨one.depth, one.isClean && other.isClean⟩ else none
  | many item =>
    -- What is known must still be known behind one item more.
    if item.nest nesting = some nesting then some nesting
    else if item.nest ⟨nesting.depth, false⟩ = some ⟨nesting.depth, false⟩ then
      some ⟨nesting.depth, false⟩
    else none

section Forms

variable {known other actual : Nesting} {kind : Terminal} {item : Form}

theorem Nesting.Covers.trans {final : Nesting} (covers : known.Covers actual)
    (onward : actual.Covers final) : known.Covers final :=
  ⟨covers.1.trans onward.1, fun clean => onward.2 (covers.2 clean)⟩

/-- The more is known before a token, the more is known behind it. -/
theorem Terminal.nest_covers (nested : kind.nest known = some other) (covers : known.Covers actual) :
    ∃ final, kind.nest actual = some final ∧ other.Covers final := by
  obtain ⟨depth, clean⟩ := covers
  cases kind with
  | scopeStart =>
    cases nested
    exact ⟨_, rfl, congrArg (· + 1) depth, fun _ => rfl⟩
  | lineEnd =>
    cases nested
    exact ⟨_, rfl, depth, fun _ => rfl⟩
  | scopeEnd =>
    -- What the end of a scope asks for is known, so it is the case.
    rw [nest] at nested
    split at nested
    · rename_i opened
      cases nested
      refine ⟨_, if_pos ⟨depth ▸ opened.1, clean opened.2⟩, congrArg (· - 1) depth, fun _ => rfl⟩
    · cases nested
  | string =>
    -- Behind a string nothing is known but the depth.
    rw [nest] at nested
    split at nested
    · rename_i opened
      cases nested
      exact ⟨_, if_pos (depth ▸ opened), depth, fun none => nomatch none⟩
    · cases nested
  | _ =>
    -- All other terminals leave the nesting as it is.
    cases nested
    exact ⟨_, rfl, depth, clean⟩

theorem Terminal.nest_cases (stepped : kind.nest known = some other) :
    (kind = scopeStart ∧ other = ⟨known.depth + 1, true⟩) ∨
      (kind = scopeEnd ∧ 0 < known.depth ∧ known.isClean = true ∧ other = ⟨known.depth - 1, true⟩) ∨
        (kind = lineEnd ∧ other = ⟨known.depth, true⟩) ∨
          (kind = string ∧ 0 < known.depth ∧ other = ⟨known.depth, false⟩) ∨
            (kind ≠ scopeStart ∧ kind ≠ scopeEnd ∧ kind ≠ string ∧ other = known) := by
  cases kind <;> simp_all [nest]

theorem Form.of_nest_alt {left right : Form} (nested : (alt left right).nest known = some other) :
    ∃ one two, left.nest known = some one ∧ right.nest known = some two ∧ one.depth = two.depth ∧
      other = ⟨one.depth, one.isClean && two.isClean⟩ := by
  simp only [nest, Option.bind_eq_some_iff] at nested
  obtain ⟨one, first, two, second, both⟩ := nested
  split at both
  · rename_i same
    cases both
    exact ⟨one, two, first, second, same, rfl⟩
  · cases both

/-- What is known behind any number of items is known before and behind each of them. -/
theorem Form.of_nest_many (nested : (many item).nest known = some other) :
    other.Covers known ∧ item.nest other = some other := by
  -- Either all that is known is kept by an item, or at least the depth is.
  rw [nest] at nested
  split at nested
  · rename_i stays
    cases nested
    exact ⟨⟨rfl, id⟩, stays⟩
  · split at nested
    · rename_i stays
      cases nested
      exact ⟨⟨rfl, fun none => nomatch none⟩, stays⟩
    · cases nested

theorem Rule.nest_body {rule : Rule} (nested : rule.nest known = some other) :
    ∃ found, rule.body.nest known = some found ∧ other.Covers found := by
  obtain ⟨depth, clean⟩ := known
  -- Most rules ask for an open scope, and it matters whether there is one.
  cases rule <;> cases depth <;> cases nested <;> cases clean <;>
    simp [body, Form.nest, nest, Form.inOrder, Form.oneOf, Form.optional, Form.chain, Form.oneToken,
      Terminal.nest, Nesting.Covers]

end Forms

section Tokens

variable {known other nesting behind : Nesting} {form : Form} {here there : Cursor}
  {derivation : Derivation} {token : Token} {tokens more : List Token}

@[simp] theorem nestTokens_cons :
    nestTokens nesting (token :: tokens) = (token.kind.nest nesting).bind (nestTokens · tokens) := rfl

theorem nestTokens_append :
    nestTokens nesting (tokens ++ more) = (nestTokens nesting tokens).bind (nestTokens · more) :=
  foldlM_append ..

/-- What a form derives nests as the form says. -/
theorem Derives.nestTokens (derived : Derives form here derivation there)
    (nested : form.nest known = some other) (covers : known.Covers nesting) :
    ∃ behind, LeftHand.nestTokens nesting derivation.tokens = some behind ∧ other.Covers behind := by
  induction derived generalizing known other nesting with
  | empty =>
    cases nested
    exact ⟨nesting, rfl, covers⟩
  | token taken =>
    obtain ⟨behind, steps, also⟩ := Terminal.nest_covers nested covers
    refine ⟨behind, ?_, also⟩
    rw [Derivation.tokens, nestTokens_cons, Cursor.kind_of_take? taken, steps]
    rfl
  | phrase _ ih =>
    -- The rule promises no more than its body does.
    obtain ⟨found, nestedBody, wider⟩ := Rule.nest_body nested
    obtain ⟨behind, steps, also⟩ := ih nestedBody covers
    exact ⟨behind, steps, wider.trans also⟩
  | seq _ _ before after =>
    rw [Form.nest, Option.bind_eq_some_iff] at nested
    obtain ⟨middle, first, second⟩ := nested
    obtain ⟨between, steps, also⟩ := before first covers
    obtain ⟨behind, stepsOn, still⟩ := after second also
    exact ⟨behind, by rw [Derivation.tokens, nestTokens_append, steps, Option.bind_some, stepsOn], still⟩
  | left _ ih =>
    obtain ⟨one, two, first, _, same, rfl⟩ := Form.of_nest_alt nested
    obtain ⟨behind, steps, also⟩ := ih first covers
    exact ⟨behind, steps, also.1, fun clean => also.2 (Bool.and_eq_true_iff.mp clean).1⟩
  | right _ ih =>
    obtain ⟨one, two, _, second, same, rfl⟩ := Form.of_nest_alt nested
    obtain ⟨behind, steps, also⟩ := ih second covers
    exact ⟨behind, steps, same.trans also.1, fun clean => also.2 (Bool.and_eq_true_iff.mp clean).2⟩
  | none =>
    obtain ⟨wider, _⟩ := Form.of_nest_many nested
    exact ⟨nesting, rfl, wider.trans covers⟩
  | more _ _ before after =>
    -- The items before the last one leave what the last one starts from.
    obtain ⟨_, stays⟩ := Form.of_nest_many nested
    obtain ⟨between, steps, also⟩ := before nested covers
    obtain ⟨behind, stepsOn, still⟩ := after stays also
    exact ⟨behind, by rw [Derivation.tokens, nestTokens_append, steps, Option.bind_some, stepsOn], still⟩

variable (nested : nestTokens nesting tokens = some behind)

include nested

theorem depth_of_nestTokens :
    behind.depth + tokens.countP (·.kind = .scopeEnd) =
      nesting.depth + tokens.countP (·.kind = .scopeStart) := by
  induction tokens generalizing nesting with
  | nil =>
    cases nested
    rfl
  | cons token tokens ih =>
    rw [nestTokens_cons, Option.bind_eq_some_iff] at nested
    obtain ⟨middle, step, onward⟩ := nested
    have later := ih onward
    -- One token opens a scope, closes one or does neither.
    rcases Terminal.nest_cases step with ⟨kind, rfl⟩ | ⟨kind, opened, _, rfl⟩ | ⟨kind, rfl⟩ |
      ⟨kind, _, rfl⟩ | ⟨noStart, noEnd, _, rfl⟩
    · simp only [countP_cons, kind] at later ⊢
      simp
      omega
    · simp only [countP_cons, kind] at later ⊢
      simp
      omega
    · simpa [countP_cons, kind] using later
    · simpa [countP_cons, kind] using later
    · simpa [countP_cons, noStart, noEnd] using later

/-- Between the ends of statements the depth stays the same, and a string is remembered. -/
theorem nestTokens_unended (unended : ∀ token ∈ tokens, token.kind.endsStatement = false) :
    behind.depth = nesting.depth ∧ (nesting.isClean = false → behind.isClean = false) ∧
      ((∃ token ∈ tokens, token.kind = .string) → 0 < nesting.depth ∧ behind.isClean = false) := by
  induction tokens generalizing nesting with
  | nil =>
    cases nested
    exact ⟨rfl, id, by simp⟩
  | cons token tokens ih =>
    rw [nestTokens_cons, Option.bind_eq_some_iff] at nested
    obtain ⟨middle, step, onward⟩ := nested
    rw [forall_mem_cons] at unended
    have other {kind : Terminal} (ends : kind.endsStatement = true) : token.kind ≠ kind := by
      rintro rfl
      rw [unended.1] at ends
      cases ends
    obtain ⟨depth, stays, strings⟩ := ih onward unended.2
    -- The first token is a string or leaves the nesting as it is.
    rcases Terminal.nest_cases step with ⟨kind, _⟩ | ⟨kind, _⟩ | ⟨kind, _⟩ | ⟨kind, opened, rfl⟩ |
      ⟨_, _, noString, rfl⟩
    · exact absurd kind (other rfl)
    · exact absurd kind (other rfl)
    · exact absurd kind (other rfl)
    · exact ⟨depth, fun _ => stays rfl, fun _ => ⟨opened, stays rfl⟩⟩
    · refine ⟨depth, stays, ?_⟩
      rintro ⟨other, member, isString⟩
      rcases mem_cons.mp member with rfl | later
      · exact absurd isString noString
      · exact strings ⟨other, later, isString⟩

/-- A statement closes one scope at most, and only one that is open. If none is open then, it has no
string. -/
theorem nestTokens_statement
    (unended : ∀ token ∈ tokens.dropLast, token.kind.endsStatement = false) :
    tokens.countP (·.kind = .scopeEnd) ≤ 1 ∧ tokens.countP (·.kind = .scopeEnd) ≤ nesting.depth ∧
      (nesting.depth = tokens.countP (·.kind = .scopeEnd) → ∀ token ∈ tokens, token.kind ≠ .string) := by
  rcases eq_nil_or_concat tokens with rfl | ⟨body, last, rfl⟩
  · simp
  · rw [concat_eq_append] at nested unended ⊢
    rw [dropLast_concat] at unended
    rw [nestTokens_append, Option.bind_eq_some_iff] at nested
    obtain ⟨middle, before, onward⟩ := nested
    obtain ⟨depth, _, strings⟩ := nestTokens_unended before unended
    have none : body.countP (·.kind = .scopeEnd) = 0 := by
      rw [countP_eq_zero]
      intro token member isEnd
      have other := unended token member
      rw [of_decide_eq_true isEnd] at other
      cases other
    rw [nestTokens_cons, Option.bind_eq_some_iff] at onward
    obtain ⟨_, step, _⟩ := onward
    rw [countP_append, none, countP_singleton, Nat.zero_add]
    -- A string before the end of a scope would have been remembered.
    have absent (noString : last.kind ≠ .string) (closed : nesting.depth = 0 ∨ middle.isClean = true) :
        ∀ token ∈ body ++ [last], token.kind ≠ .string := by
      rw [forall_mem_append, forall_mem_singleton]
      refine ⟨fun token member isString => ?_, noString⟩
      obtain ⟨opened, unclean⟩ := strings ⟨token, member, isString⟩
      rcases closed with outside | clean
      · omega
      · rw [unclean] at clean
        cases clean
    by_cases ends : last.kind = .scopeEnd
    · -- The scope that is closed was open all along the statement.
      obtain ⟨opened, clean⟩ : 0 < middle.depth ∧ middle.isClean = true := by
        rw [ends, Terminal.nest] at step
        split at step
        · assumption
        · cases step
      exact ⟨by simp [ends], by simp [ends]; omega, fun _ => absent (by simp [ends]) (.inr clean)⟩
    · refine ⟨by simp [ends], by simp [ends], fun closed => ?_⟩
      have outside : nesting.depth = 0 := by simpa [ends] using closed
      refine absent (fun isString => ?_) (.inl outside)
      rw [isString, Terminal.nest, if_neg (by omega)] at step
      cases step

end Tokens

end LeftHand
