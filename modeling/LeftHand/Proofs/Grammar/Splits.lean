import LeftHand.Proofs.Grammar.Factor

/-! When an expression can be read as several. -/

namespace LeftHand

open List

/-- Pieces of a text with operators between them. -/
inductive Spread (piece : Cursor → Cursor → Prop) : Cursor → Cursor → Prop where
  | one {here there} (start : piece here there) : Spread piece here there
  | more {here middle next there kind token} (start : piece here middle) (member : kind ∈ operatorKinds)
      (taken : middle.take? kind = some (token, next)) (onward : Spread piece next there) :
      Spread piece here there

namespace Spread

variable {piece : Cursor → Cursor → Prop} {here middle next there : Cursor} {kind : Terminal}
  {token : Token}

theorem join (before : Spread piece here middle) (member : kind ∈ operatorKinds)
    (taken : middle.take? kind = some (token, next)) (behind : Spread piece next there) :
    Spread piece here there := by
  induction before with
  | one start => exact .more start member taken behind
  | more start among found _ ih => exact .more start among found (ih taken)

theorem flatten (spread : Spread (Spread piece) here there) : Spread piece here there := by
  induction spread with
  | one start => exact start
  | more start member taken _ ih => exact start.join member taken ih

theorem mono {other : Cursor → Cursor → Prop} (spread : Spread piece here there)
    (weaker : ∀ here there, piece here there → other here there) : Spread other here there := by
  induction spread with
  | one start => exact .one (weaker _ _ start)
  | more start member taken _ ih => exact .more (weaker _ _ start) member taken ih

end Spread

section Rows

theorem Derivation.isLoose_row (items : List Derivation) :
    (row items).isLoose = items.any isLoose := by
  -- The first item is the innermost one.
  have from_ : ∀ start : Derivation, start.opens = false →
      (items.foldl .seq start).isLoose = (start.isLoose || items.any isLoose) := by
    induction items with
    | nil => exact fun start _ => (Bool.or_false _).symm
    | cons first items ih =>
      intro start closed
      rw [foldl_cons, ih (.seq start first) rfl, isLoose, closed, any_cons]
      simp [Bool.or_assoc]
  exact from_ .empty rfl

theorem Derivation.opens_ofToken {taken : Token} (other : taken.kind ≠ .parenStart)
    (kinds : List Terminal) : (ofToken taken kinds).opens = false := by
  cases kinds with
  | nil => simpa [ofToken, opens] using other
  | cons first kinds =>
    cases kinds with
    | nil => simpa [ofToken, opens] using other
    | cons second kinds =>
      rw [ofToken_cons]
      split <;> rfl

theorem isLoose_operator {operators : List Terminal} {token : Token} {value : Derivation}
    {kind : Terminal} {here next : Cursor}
    (member : kind ∈ operatorKinds) (taken : here.take? kind = some (token, next)) :
    (Derivation.seq (.ofToken token operators) value).isLoose = value.isLoose := by
  have other : token.kind ≠ .parenStart := by
    rw [Cursor.kind_of_take? taken]
    rintro rfl
    exact absurd member (by decide)
  rw [Derivation.isLoose, Derivation.isLoose_ofToken, Derivation.opens_ofToken other]
  simp

end Rows

section Levels

variable {level operand : Rule} {operators : List Terminal} {here middle there : Cursor}
  {derivation : Derivation} {items : List Derivation}
  (isLevel : level.level? = some (operand, operators))

include isLevel

/-- A level of precedence is a first operand, and then operators with their operands. -/
theorem derives_level :
    Derives (.phrase level) here derivation there ↔ ∃ first items middle,
      derivation = .phrase level (.seq first (.row items)) ∧
        Derives (.phrase operand) here first middle ∧
          DerivesAll (.seq (.oneToken operators) (.phrase operand)) middle items there := by
  have body := body_of_level? isLevel
  constructor
  · intro derived
    obtain ⟨_, rfl, chain⟩ := derived.of_phrase
    rw [body] at chain
    obtain ⟨first, _, middle, rfl, before, behind⟩ := chain.of_seq
    obtain ⟨items, rfl, all⟩ := derives_many.mp behind
    exact ⟨first, items, middle, rfl, before, all⟩
  · rintro ⟨first, items, middle, rfl, before, all⟩
    exact .phrase (body ▸ .seq before (derives_many.mpr ⟨items, rfl, all⟩))

theorem exists_operator
    (derived : Derives (.seq (.oneToken operators) (.phrase operand)) here derivation there) :
    ∃ kind ∈ operatorKinds, ∃ token next value, here.take? kind = some (token, next) ∧
      Derives (.oneToken operators) here (.ofToken token operators) next ∧
        Derives (.phrase operand) next value there ∧
          derivation = .seq (.ofToken token operators) value := by
  obtain ⟨_, value, next, rfl, operator, right⟩ := derived.of_seq
  obtain ⟨filled, _⟩ := operator_of_level? isLevel
  obtain ⟨kind, member, token, rfl, taken⟩ :=
    (derives_oneToken filled (oneToken_operators isLevel).1).mp operator
  exact ⟨kind, operators_subset isLevel kind member, token, next, value, taken, operator, right, rfl⟩

theorem isLoose_level {first : Derivation} (derived : Derives (.phrase operand) here first middle) :
    (Derivation.phrase level (.seq first (.row items))).isLoose =
      (first.isLoose || items.any Derivation.isLoose) := by
  have closed : first.opens = false := by
    obtain ⟨body, rfl, _⟩ := derived.of_phrase
    rfl
  have other : level ≠ .execExpr ∧ level ≠ .negExpr := by
    constructor <;> rintro rfl <;> cases isLevel
  rw [Derivation.isLoose, if_neg other.1, beq_eq_false_iff_ne.mpr other.2, Derivation.isLoose, closed,
    Derivation.isLoose_row]
  simp

/-- The operands of a level are spread over its text. -/
theorem Derives.spread (derived : Derives (.phrase level) here derivation there) :
    Spread (fun here there => ∃ value, Derives (.phrase operand) here value there) here there := by
  obtain ⟨first, items, middle, -, before, all⟩ := (derives_level isLevel).mp derived
  clear derived
  induction all generalizing here first with
  | nil => exact .one ⟨first, before⟩
  | cons derived _ ih =>
    obtain ⟨kind, member, token, next, value, taken, _, right, _⟩ := exists_operator isLevel derived
    exact .more ⟨first, before⟩ member taken (ih value right)

/-- The operands of a firm level are firm. -/
theorem Firm.spread (firm : Firm (.phrase level) here derivation there) :
    Spread (fun here there => ∃ value, Firm (.phrase operand) here value there) here there := by
  obtain ⟨first, items, middle, rfl, before, all⟩ := (derives_level isLevel).mp firm.derived
  have tight := firm.tight
  rw [isLoose_level isLevel before, Bool.or_eq_false_iff, any_eq_false] at tight
  -- Another first operand, or other operators and operands, would make another whole.
  have onlyFirst : ∀ other, Derives (.phrase operand) here other middle → other = first := by
    intro other again
    have same := firm.only _ ((derives_level isLevel).mpr ⟨other, items, middle, rfl, again, all⟩)
    simp only [Derivation.phrase.injEq, Derivation.seq.injEq, true_and, and_true] at same
    exact same
  have onlyItems : ∀ others, DerivesAll (.seq (.oneToken operators) (.phrase operand)) middle others
      there → others = items := by
    intro others again
    have same := firm.only _ ((derives_level isLevel).mpr ⟨first, others, middle, rfl, before, again⟩)
    simp only [Derivation.phrase.injEq, Derivation.seq.injEq, true_and] at same
    exact Derivation.row_injective same
  have firmFirst : Firm (.phrase operand) here first middle := ⟨before, onlyFirst, tight.1⟩
  have tightItems := tight.2
  clear before onlyFirst firm tight
  induction all generalizing here first with
  | nil => exact .one ⟨first, firmFirst⟩
  | @cons start stop there item items derived onward ih =>
    obtain ⟨kind, member, token, next, value, taken, operator, right, rfl⟩ :=
      exists_operator isLevel derived
    have looseItem := tightItems _ mem_cons_self
    rw [isLoose_operator member taken, Bool.not_eq_true] at looseItem
    have firmValue : Firm (.phrase operand) next value stop := by
      refine ⟨right, fun other again => ?_, looseItem⟩
      have same := onlyItems _ (.cons (.seq operator again) onward)
      simp only [List.cons.injEq, Derivation.seq.injEq, true_and, and_true] at same
      exact same
    refine .more ⟨first, firmFirst⟩ member taken (ih value ?_ firmValue ?_)
    · intro others again
      exact (List.cons.inj (onlyItems _ (.cons derived again))).2
    · exact fun item inside => tightItems item (mem_cons_of_mem _ inside)

/-- What is loose can be read as two phrases of the same kind. -/
def Rule.SplitsLoose (rule : Rule) : Prop :=
  ∀ {here derivation there}, Derives (.phrase rule) here derivation there → derivation.isLoose = true →
    ∃ before behind middle, Derives (.phrase rule) here before middle ∧
      Derives (.phrase rule) middle behind there

/-- Operators and operands are cut inside of a loose operand. -/
theorem exists_cut (splits : operand.SplitsLoose)
    (all : DerivesAll (.seq (.oneToken operators) (.phrase operand)) here items there)
    (loose : items.any Derivation.isLoose = true) :
    ∃ before value behind middle stop,
      DerivesAll (.seq (.oneToken operators) (.phrase operand)) here before middle ∧
        Derives (.phrase operand) middle value stop ∧
          DerivesAll (.seq (.oneToken operators) (.phrase operand)) stop behind there := by
  induction all with
  | nil => cases loose
  | cons derived onward ih =>
    rw [any_cons, Bool.or_eq_true] at loose
    rcases loose with inside | later
    · obtain ⟨kind, member, token, next, value, taken, operator, right, rfl⟩ :=
        exists_operator isLevel derived
      rw [isLoose_operator member taken] at inside
      obtain ⟨one, two, middle, first, second⟩ := splits right inside
      exact ⟨_, two, _, middle, _, .cons (.seq operator first) .nil, second, onward⟩
    · obtain ⟨before, value, behind, middle, stop, first, second, third⟩ := ih later
      exact ⟨_, value, behind, middle, stop, .cons derived first, second, third⟩

theorem splitsLoose_level (splits : operand.SplitsLoose) : level.SplitsLoose := by
  intro here derivation there derived loose
  obtain ⟨first, items, middle, rfl, before, all⟩ := (derives_level isLevel).mp derived
  rw [isLoose_level isLevel before, Bool.or_eq_true] at loose
  rcases loose with inFirst | inItems
  · obtain ⟨one, two, stop, left, right⟩ := splits before inFirst
    exact ⟨_, _, stop, (derives_level isLevel).mpr ⟨one, [], stop, rfl, left, .nil⟩,
      (derives_level isLevel).mpr ⟨two, items, middle, rfl, right, all⟩⟩
  · obtain ⟨left, value, right, stop, next, front, inner, back⟩ := exists_cut isLevel splits all inItems
    exact ⟨_, _, stop, (derives_level isLevel).mpr ⟨first, left, middle, rfl, before, front⟩,
      (derives_level isLevel).mpr ⟨value, right, next, rfl, inner, back⟩⟩

end Levels

/-- What is spread on each level is spread over the factors. -/
theorem spread_factors {here there : Cursor} (fine : Rule → Cursor → Cursor → Prop)
    (unfold_ : ∀ {level operand operators here there}, level.level? = some (operand, operators) →
      fine level here there → Spread (fine operand) here there)
    (whole : fine .orExpr here there) : Spread (fine .factor) here there := by
  have step (level : Rule) {operand : Rule} {operators : List Terminal}
      (isLevel : level.level? = some (operand, operators))
      (tighter : ∀ here there, fine operand here there → Spread (fine .factor) here there) :
      ∀ here there, fine level here there → Spread (fine .factor) here there :=
    fun _ _ start => ((unfold_ isLevel start).mono tighter).flatten
  -- From the tightest level to the loosest one.
  have term := step .term rfl fun _ _ => .one
  have formula := step .formula rfl term
  have comparison := step .comparison rfl formula
  have equality := step .equality rfl comparison
  have andExpr := step .andExpr rfl equality
  exact step .orExpr rfl andExpr _ _ whole

/-- A loose expression can be read as two. -/
theorem splitsLoose_expr : Rule.expr.SplitsLoose := by
  have factor : Rule.factor.SplitsLoose := exists_two_of_isLoose
  have term : Rule.term.SplitsLoose := splitsLoose_level rfl factor
  have formula : Rule.formula.SplitsLoose := splitsLoose_level rfl term
  have comparison : Rule.comparison.SplitsLoose := splitsLoose_level rfl formula
  have equality : Rule.equality.SplitsLoose := splitsLoose_level rfl comparison
  have andExpr : Rule.andExpr.SplitsLoose := splitsLoose_level rfl equality
  have orExpr : Rule.orExpr.SplitsLoose := splitsLoose_level rfl andExpr
  intro here derivation there derived loose
  obtain ⟨body, rfl, inner⟩ := derived.of_phrase
  obtain ⟨one, two, middle, first, second⟩ := orExpr inner loose
  exact ⟨_, _, middle, .phrase first, .phrase second⟩

section Comparison

variable {here middle next last there : Cursor} {derivation : Derivation} {kind other : Terminal}
  {token found : Token}

section

variable (member : kind ∈ operatorKinds)

include member

variable (taken : here.take? kind = some (token, next))

include taken

/-- Where an operator is taken nothing else of an expression is. -/
theorem eq_of_operator (tame : IsTame next.rest) (among : other ∈ expressionKinds)
    (also : here.take? other = some (found, last)) :
    other = kind := by
  have plain : ∀ kind ∈ operatorKinds, kind ∉ clingingKinds ∧ kind ≠ .identifier := by decide
  rcases Cursor.overlaps taken also (mem_append_right _ member) among tame with
    same | ⟨clings, _⟩ | ⟨_, isName⟩
  · exact same.symm
  · exact absurd clings (plain kind member).1
  · exact absurd isName (plain kind member).2

theorem closes_of_operator (tame : IsTame next.rest) : here.Closes := by
  refine ⟨?_, Cursor.isTame_of_take? taken⟩
  rintro ⟨other, among, ⟨found, last⟩, also⟩
  have apart : ∀ kind ∈ operatorKinds, kind ∉ Rule.factor.first := by decide
  have same := eq_of_operator member taken tame (mem_append_left _ among) also
  exact apart kind member (same ▸ among)

theorem resumes_of_operator : here.Resumes := by
  intro opened inside opens
  have isStart := Cursor.kind_eq_of_opens opens taken
  rw [isStart] at member
  exact absurd member (by decide)

end

theorem Spread.isTame {piece : Cursor → Cursor → Prop} (spread : Spread piece here there)
    (each : ∀ here there, piece here there → IsTame here.rest) : IsTame here.rest := by
  cases spread with
  | one start | more start => exact each _ _ start

/-- Firm factors with operators between them end where others do that are followed by another
factor, or by nothing. -/
theorem Spread.end_eq
    (firm : Spread (fun here there => ∃ value, Firm (.phrase .factor) here value there) here there)
    (closes : there.Closes) (noOperator : ¬ there.Starts operatorKinds)
    (other : Spread (fun here there => ∃ value, Derives (.phrase .factor) here value there) here last)
    (resumes : last = there ∨ ∃ value stop, Derives (.phrase .factor) last value stop) :
    last = there := by
  have resumesLast : last.Resumes := by
    intro token next opens
    rcases resumes with rfl | ⟨value, stop, derived⟩
    · exact absurd ⟨_, by decide, _, opens⟩ closes.noFactor
    · exact ⟨value, stop, derived⟩
  induction firm with
  | one start =>
    obtain ⟨_, firm⟩ := start
    cases other with
    | one start =>
      obtain ⟨_, derived⟩ := start
      exact firm.end_eq closes derived resumesLast
    | more start member taken _ =>
      -- An operator would follow at the end.
      obtain ⟨_, derived⟩ := start
      obtain rfl := firm.end_eq closes derived (resumes_of_operator member taken)
      exact absurd ⟨_, member, _, taken⟩ noOperator
  | more start member taken onward ih =>
    obtain ⟨_, firm⟩ := start
    have tame := onward.isTame fun _ _ ⟨_, firm⟩ => firm.derived.isTame rfl
    have closesHere := closes_of_operator member taken tame
    cases other with
    | one start =>
      obtain ⟨_, derived⟩ := start
      obtain rfl := firm.end_eq closesHere derived resumesLast
      rcases resumes with rfl | ⟨_, _, derived⟩
      · exact absurd ⟨_, member, _, taken⟩ noOperator
      · -- Another factor would start at the operator.
        refine absurd (derived.starts.resolve_left fun ⟨null, _⟩ => ?_) closesHere.noFactor
        cases null
    | more start among also rest =>
      obtain ⟨_, derived⟩ := start
      obtain rfl := firm.end_eq closesHere derived (resumes_of_operator among also)
      obtain rfl := eq_of_operator member taken tame (mem_append_right _ among) also
      cases taken.symm.trans also
      exact ih closes noOperator rest resumes

/-- An expression is made of factors with operators between them. -/
theorem Derives.factors (derived : Derives (.phrase .expr) here derivation there) :
    Spread (fun here there => ∃ value, Derives (.phrase .factor) here value there) here there := by
  obtain ⟨body, rfl, inner⟩ := derived.of_phrase
  exact spread_factors (fun rule here there => ∃ value, Derives (.phrase rule) here value there)
    (fun isLevel ⟨_, derived⟩ => derived.spread isLevel) ⟨body, inner⟩

theorem Derives.exists_factor (derived : Derives (.phrase .expr) here derivation there) :
    ∃ value stop, Derives (.phrase .factor) here value stop := by
  cases derived.factors with
  | one start =>
    obtain ⟨value, start⟩ := start
    exact ⟨value, _, start⟩
  | more start =>
    obtain ⟨value, start⟩ := start
    exact ⟨value, _, start⟩

theorem Firm.factors (firm : Firm (.phrase .expr) here derivation there) :
    Spread (fun here there => ∃ value, Firm (.phrase .factor) here value there) here there := by
  obtain ⟨body, rfl, inner⟩ := firm.derived.of_phrase
  have firmBody : Firm (.phrase .orExpr) here body there := by
    refine ⟨inner, fun other again => ?_, firm.tight⟩
    exact (Derivation.phrase.inj (firm.only _ (.phrase again))).2
  exact spread_factors (fun rule here there => ∃ value, Firm (.phrase rule) here value there)
    (fun isLevel ⟨_, firm⟩ => firm.spread isLevel) ⟨body, firmBody⟩

/-- An expression that can be read in one way can also be read as several expressions, or as none,
exactly if it is loose. -/
theorem isLoose_iff_splits (derived : Derives (.phrase .expr) here derivation there)
    (only : ∀ other, Derives (.phrase .expr) here other there → other = derivation)
    (ends : ¬ there.Starts expressionKinds) (tame : IsTame there.rest) :
    derivation.isLoose = true ↔
      ∃ values, DerivesAll (.phrase .expr) here values there ∧ values ≠ [derivation] := by
  have noFactor : ¬ there.Starts Rule.factor.first := fun starts =>
    ends (starts.mono fun _ => mem_append_left _)
  constructor
  · intro loose
    obtain ⟨one, two, middle, first, second⟩ := splitsLoose_expr derived loose
    exact ⟨[one, two], .cons first (.cons second .nil), by simp⟩
  · rintro ⟨values, all, differ⟩
    rw [← Bool.not_eq_false]
    intro tight
    have firm : Firm (.phrase .expr) here derivation there := ⟨derived, only, tight⟩
    cases all with
    | nil => exact absurd (derived.place_lt rfl) (Nat.lt_irrefl _)
    | cons first others =>
      cases others with
      | nil => exact differ (by rw [only _ first])
      | cons second others =>
        -- The second expression would start where the first one, and so the whole, ends.
        obtain rfl := firm.factors.end_eq ⟨noFactor, tame⟩
          (fun starts => ends (starts.mono fun _ => mem_append_right _)) first.factors
          (.inr second.exists_factor)
        exact absurd (second.starts.resolve_left fun ⟨null, _⟩ => by cases null) noFactor

end Comparison

end LeftHand
