import LeftHand.Proofs.Format.Groups

/-! The indents of a layout and the scopes of the program. -/

namespace LeftHand

open List

/-- The tokens that start before a place. -/
def tokensBefore (place : Nat) (tokens : List Token) : List Token :=
  tokens.filter (·.place < place)

/-- The strings among tokens. -/
def stringsIn (tokens : List Token) : List Token :=
  tokens.filter (·.kind = .string)

/-- The number of scopes that are open at a statement. The scope that it closes is not. -/
def depthAt (tokens : List Token) (start stop : Nat) : Int :=
  (tokensBefore start tokens).countP (·.kind = .scopeStart) -
    (tokensBefore stop tokens).countP (·.kind = .scopeEnd)

/-- The number of scopes that seem to be open at a statement because of marks in strings. -/
def driftAt (tokens : List Token) (start stop : Nat) : Int :=
  marksIn '%' (stringsIn (tokensBefore start tokens)) - marksIn '!' (stringsIn (tokensBefore stop tokens))

/-- The indent of every statement, in its row, is two for each open scope, but four places are
kept. -/
def ShowsNesting (width : Int) (tokens : List Token) (starts : List Nat)
    (statements : List (List Char)) : Prop :=
  ∀ start statement, (start, statement) ∈ starts.zip statements →
    (start : Int) % width = min (2 * depthAt tokens start (start + statement.length)) (width - 4)

/-- Marks in strings make no difference to any indent. -/
def IsSteady (width : Int) (tokens : List Token) (starts : List Nat)
    (statements : List (List Char)) : Prop :=
  ∀ start statement, (start, statement) ∈ starts.zip statements →
    let depth := depthAt tokens start (start + statement.length)
    let drift := driftAt tokens start (start + statement.length)
    min (2 * (depth + drift)) (width - 4) = min (2 * depth) (width - 4)

/-- What has been counted of the tokens before a statement. -/
structure Walked (indent : Int) (nesting : Nesting) (earlier : List Token) : Prop where
  indented : indent = 2 * ((marksIn '%' earlier : Int) - marksIn '!' earlier)
  nested : nestTokens ⟨0, true⟩ earlier = some nesting

/-- In the outermost scopes the marks in strings have closed no more than they have opened. -/
def IsBalanced (nesting : Nesting) (earlier : List Token) : Prop :=
  nesting.depth ≤ 1 → marksIn '!' (stringsIn earlier) ≤ marksIn '%' (stringsIn earlier)

section Counting

variable {token : Token} {tokens more leaves : List Token} {start stop : Nat}

theorem marksIn_eq (spelled : ∀ token ∈ tokens, token.IsSpelled) :
    marksIn '%' tokens = tokens.countP (·.kind = .scopeStart) + marksIn '%' (stringsIn tokens) ∧
      marksIn '!' tokens = tokens.countP (·.kind = .scopeEnd) + marksIn '!' (stringsIn tokens) := by
  induction tokens with
  | nil => exact ⟨rfl, rfl⟩
  | cons token tokens ih =>
    rw [forall_mem_cons] at spelled
    obtain ⟨opens, closes⟩ := ih spelled.2
    -- A string is counted among the strings, and any other token by its kind.
    by_cases isString : token.kind = .string
    · simp only [marksIn, stringsIn, countP_cons, filter_cons, isString] at opens closes ⊢
      simp
      omega
    · obtain ⟨before, text, rest, taken⟩ := spelled.1
      obtain ⟨one, other⟩ := countPair_of_take? taken isString
      simp only [marksIn, stringsIn, countP_cons, filter_cons, isString] at opens closes ⊢
      simp [one, other]
      omega

theorem tokensBefore_append {place : Nat} (before : ∀ token ∈ tokens, token.place < place)
    (behind : ∀ token ∈ more, place ≤ token.place) : tokensBefore place (tokens ++ more) = tokens := by
  have all : tokens.filter (·.place < place) = tokens :=
    filter_eq_self.mpr fun token member => decide_eq_true (before token member)
  have none : more.filter (·.place < place) = [] :=
    filter_eq_nil_iff.mpr fun token member => by simpa using behind token member
  rw [tokensBefore, filter_append, all, none, List.append_nil]

theorem stringsIn_append (tokens more : List Token) :
    stringsIn (tokens ++ more) = stringsIn tokens ++ stringsIn more :=
  filter_append ..

end Counting

section Walking

variable {width indent : Int} {offset start row : Nat} {starts : List Nat} {statement : List Char}
  {statements : List (List Char)} {earlier group later tokens : List Token} {groups : List (List Token)}
  {nesting final : Nesting}

theorem Grouped.behind (grouped : Grouped offset starts statements groups) :
    ∀ token ∈ groups.flatten, offset ≤ token.place := by
  induction grouped with
  | nil => simp
  | cons behind holds _ ih =>
    rw [flatten_cons, forall_mem_append]
    refine ⟨fun token member => ?_, fun token member => ?_⟩
    · exact Nat.le_trans behind (holds.inside token member).1
    · have later := ih token member
      omega

/-- At a statement the scopes opened before it are open, unless they are closed before or by it. -/
theorem Holds.depthAt_eq (holds : Holds start statement group)
    (before : ∀ token ∈ earlier, token.place < start)
    (behind : ∀ token ∈ later, start + statement.length ≤ token.place) :
    depthAt (earlier ++ (group ++ later)) start (start + statement.length) =
        earlier.countP (·.kind = .scopeStart) - (earlier ++ group).countP (·.kind = .scopeEnd) ∧
      driftAt (earlier ++ (group ++ later)) start (start + statement.length) =
        marksIn '%' (stringsIn earlier) - marksIn '!' (stringsIn (earlier ++ group)) := by
  -- The statement starts between the first two of the three parts, and ends between the last two.
  have first : tokensBefore start (earlier ++ (group ++ later)) = earlier := by
    refine tokensBefore_append before (forall_mem_append.mpr ⟨fun token member => ?_,
      fun token member => ?_⟩)
    · exact (holds.inside token member).1
    · have := behind token member
      omega
  have second : tokensBefore (start + statement.length) (earlier ++ (group ++ later)) =
      earlier ++ group := by
    rw [← append_assoc]
    refine tokensBefore_append (forall_mem_append.mpr ⟨fun token member => ?_,
      fun token member => ?_⟩) behind
    · have := before token member
      omega
    · exact (holds.inside token member).2
  rw [depthAt, driftAt, first, second]
  exact ⟨rfl, rfl⟩

/-- One statement more: what is counted at it, and what has been counted behind it. -/
theorem Walked.step (walked : Walked indent nesting earlier) (holds : Holds start statement group)
    (spelled : ∀ token ∈ earlier ++ group, token.IsSpelled)
    (before : ∀ token ∈ earlier, token.place < start)
    (behind : ∀ token ∈ later, start + statement.length ≤ token.place)
    (nested : nestTokens nesting group = some final) :
    let depth := depthAt (earlier ++ (group ++ later)) start (start + statement.length)
    let drift := driftAt (earlier ++ (group ++ later)) start (start + statement.length)
    indentAt indent statement = 2 * (depth + drift) ∧ 0 ≤ depth ∧
      (IsBalanced nesting earlier → depth = 0 → 0 ≤ drift) ∧
        Walked (indentBehind indent statement) final (earlier ++ group) ∧
          ((depth ≤ 1 → 0 ≤ drift) → IsBalanced final (earlier ++ group)) := by
  -- All that follows is arithmetic of the marks before the statement and of those in it.
  intro depth drift
  obtain ⟨depth_eq, drift_eq⟩ := holds.depthAt_eq before behind
  rw [forall_mem_append] at spelled
  obtain ⟨opens, closes⟩ := marksIn_eq spelled.1
  obtain ⟨opensHere, closesHere⟩ := marksIn_eq spelled.2
  obtain ⟨once, opened, noString⟩ := nestTokens_statement nested holds.unended
  have level : nesting.depth + earlier.countP (·.kind = .scopeEnd) =
      0 + earlier.countP (·.kind = .scopeStart) := depth_of_nestTokens walked.nested
  have levelBehind := depth_of_nestTokens nested
  have open_ := holds.counted '%' (.inl rfl)
  have close := holds.counted '!' (.inr rfl)
  have indented := walked.indented
  rw [countP_append] at depth_eq
  rw [stringsIn_append, marksIn_append] at drift_eq
  have here : indentAt indent statement = 2 * (depth + drift) := by
    rw [indentAt, close]
    omega
  refine ⟨here, by omega, ?_, ⟨?_, ?_⟩, ?_⟩
  · -- Without an open scope there is no string in the statement.
    intro balanced outside
    have none : stringsIn group = [] :=
      filter_eq_nil_iff.mpr fun token member => by simpa using noString (by omega) token member
    have earlierOnly : marksIn '!' (stringsIn group) = 0 := by rw [none]; rfl
    have := balanced (by omega)
    omega
  · rw [indentBehind, here, open_, marksIn_append, marksIn_append]
    omega
  · rw [nestTokens_append, walked.nested, Option.bind_some, nested]
  · -- What the statement opens is opened behind it.
    intro steady outer
    have := steady (by omega)
    rw [stringsIn_append, marksIn_append, marksIn_append]
    omega

theorem start_emod (wide : 4 ≤ width) (row : Nat) (indent : Int) :
    ((row * width.toNat + (cappedIndent width indent).toNat : Nat) : Int) % width =
      max 0 (min indent (width - 4)) := by
  have widthNat : (width.toNat : Int) = width := Int.toNat_of_nonneg (by omega)
  rw [Nat.cast_add, Nat.cast_mul, widthNat, Int.mul_add_emod_self_right, Int.toNat_eq_max,
    cappedIndent, Int.emod_eq_of_lt (by omega) (by omega)]
  omega

theorem showsNesting_cons :
    ShowsNesting width tokens (start :: starts) (statement :: statements) ↔
      (start : Int) % width = min (2 * depthAt tokens start (start + statement.length)) (width - 4) ∧
        ShowsNesting width tokens starts statements := by
  simp [ShowsNesting, or_imp, forall_and]

theorem isSteady_cons :
    IsSteady width tokens (start :: starts) (statement :: statements) ↔
      min (2 * (depthAt tokens start (start + statement.length) +
        driftAt tokens start (start + statement.length))) (width - 4) =
          min (2 * depthAt tokens start (start + statement.length)) (width - 4) ∧
        IsSteady width tokens starts statements := by
  simp [IsSteady, or_imp, forall_and]

/-- Statements that go on from the start of a row are indented by their scopes if marks in strings
make no difference, and only then. -/
theorem showsNesting_and_isSteady (wide : 4 ≤ width)
    (placed : starts = startsFrom width (row * width.toNat) indent statements)
    (grouped : Grouped offset starts statements groups) (walked : Walked indent nesting earlier)
    (whole : tokens = earlier ++ groups.flatten) (before : ∀ token ∈ earlier, token.place < offset)
    (spelled : ∀ token ∈ tokens, token.IsSpelled)
    (nested : nestTokens nesting groups.flatten = some final) :
    (IsSteady width tokens starts statements → ShowsNesting width tokens starts statements) ∧
      (5 ≤ width → IsBalanced nesting earlier → ShowsNesting width tokens starts statements →
        IsSteady width tokens starts statements) := by
  induction grouped generalizing row indent nesting earlier with
  | nil => simp [ShowsNesting, IsSteady]
  | @cons offset start starts statement statements group groups behind holds onward ih =>
    rw [startsFrom, List.cons.injEq] at placed
    obtain ⟨starting, placedOn⟩ := placed
    rw [flatten_cons] at whole nested
    rw [nestTokens_append, Option.bind_eq_some_iff] at nested
    obtain ⟨next, nestedHere, nestedOn⟩ := nested
    have wholeOn : tokens = earlier ++ group ++ groups.flatten := by rw [whole, append_assoc]
    have earlierSpelled : ∀ token ∈ earlier ++ group, token.IsSpelled := fun token member =>
      spelled token (wholeOn ▸ mem_append_left _ member)
    have beforeOn : ∀ token ∈ earlier ++ group, token.place < start + statement.length := by
      intro token member
      rcases mem_append.mp member with first | second
      · have := before token first
        omega
      · exact (holds.inside token second).2
    obtain ⟨here, opened, outside, walkedOn, balancedOn⟩ := walked.step holds earlierSpelled
      (fun token member => Nat.lt_of_lt_of_le (before token member) behind) onward.behind nestedHere
    rw [← whole] at here opened outside balancedOn
    -- As long as the indent is not negative, the statements behind it start with a row again.
    have rest (closed : 0 ≤ indentAt indent statement) := by
      rw [length_placeStatement wide closed, ← Nat.add_mul] at placedOn
      exact ih placedOn walkedOn wholeOn beforeOn nestedOn
    have shown := start_emod wide row (indentAt indent statement)
    rw [← starting, here] at shown
    rw [here] at rest
    rw [showsNesting_cons, isSteady_cons, shown]
    generalize depthAt tokens start (start + statement.length) = depth at *
    generalize driftAt tokens start (start + statement.length) = drift at *
    constructor
    · -- An indent that shows as that of open scopes is not negative.
      rintro ⟨same, steady⟩
      exact ⟨by omega, (rest (by omega)).1 steady⟩
    · rintro wider balanced ⟨aligned, shows⟩
      -- A negative indent would be shown as none, and then no scope is open.
      have := outside balanced
      refine ⟨by omega, (rest (by omega)).2 wider (balancedOn (by omega)) shows⟩

end Walking

section Leaves

variable {text layout : List Char} {tree again : Tree} {leaves tokens : List Token} {start stop : Nat}
  {width : Int}

theorem Derives.filter_shown {form : Form} {here there : Cursor} {derivation : Derivation}
    {keepTokens : Bool} {shows : Token → Bool} (derived : Derives form here derivation there)
    (reached : (Cursor.start text).LeadsTo here) (faithful : form.isFaithful keepTokens = true)
    (always : ∀ token, shows token = true → token.kind.isFiltered = false) :
    (derivation.shown keepTokens).filter shows = derivation.tokens.filter shows := by
  -- Tokens have characters, so none of them precedes itself.
  have different : derivation.tokens.Nodup := by
    refine (derived.lexes.pairwise reached).imp_of_mem fun {one other} member _ precedes same => ?_
    obtain ⟨_, _, filled, _⟩ := (derived.lexes.inside reached).2 one member
    have long := length_pos_iff.mpr filled
    rw [← same, Token.Precedes, Token.stop] at precedes
    omega
  -- What is shown is part of the tokens, and none of these is missing.
  refine ((derivation.shown_sublist keepTokens).filter shows).eq_of_length_le ?_
  refine ((different.filter shows).subperm fun token member => ?_).length_le
  obtain ⟨among, shown⟩ := mem_filter.mp member
  refine mem_filter.mpr ⟨(derived.mem_shown faithful token among).resolve_right ?_, shown⟩
  simp [always token shown]

/-- Scopes and strings can be counted in the leaves of the parse tree. -/
theorem depthAt_leaves (shown : ∀ shows : Token → Bool,
      (∀ token, shows token = true → token.kind.isFiltered = false) →
        leaves.filter shows = tokens.filter shows) :
    depthAt leaves start stop = depthAt tokens start stop ∧
      driftAt leaves start stop = driftAt tokens start stop := by
  have same (kind : Terminal) (always : kind.isFiltered = false) (place : Nat) :
      (tokensBefore place leaves).filter (·.kind = kind) =
        (tokensBefore place tokens).filter (·.kind = kind) := by
    rw [tokensBefore, tokensBefore, filter_filter, filter_filter]
    refine shown _ fun token both => ?_
    rw [Bool.and_eq_true, decide_eq_true_eq] at both
    rw [both.1, always]
  simp only [depthAt, driftAt, countP_eq_length_filter, stringsIn, same .scopeStart rfl,
    same .scopeEnd rfl, same .string rfl, and_self]

theorem exists_parse_layout (accepted : parse text = .ok tree) (plain : '\r' ∉ text) (wide : 1 ≤ width) :
    ∃ again, parse (stripBlanks (placeAll width 0 (statementsOf text))) = .ok again ∧
      again.unplaced = tree.unplaced := by
  obtain ⟨layout, again, laidOut, reparsed, same⟩ := exists_parse_layoutText? accepted plain wide
  cases (writes_placeAll (by omega) text).1.symm.trans laidOut
  exact ⟨again, reparsed, same⟩

theorem exists_lexes (accepted : parse layout = .ok tree)
    (trim : ∀ c, layout.getLast? = some c → isBlank c = false) :
    ∃ tokens there nesting, Lexes (.start layout) tokens there ∧ there.rest = [] ∧
      nestTokens ⟨0, true⟩ tokens = some nesting ∧
        ∀ start stop, depthAt tree.leaves start stop = depthAt tokens start stop ∧
          driftAt tree.leaves start stop = driftAt tokens start stop := by
  obtain ⟨derivation, ⟨there, reading, atEnd⟩, shown⟩ := exists_reading accepted
  have outermost : (Form.phrase .program).nest ⟨0, true⟩ = some ⟨0, true⟩ := rfl
  obtain ⟨nesting, nested, _⟩ := reading.nestTokens outermost ⟨rfl, id⟩
  refine ⟨derivation.tokens, there, nesting, reading.lexes, ?_, nested, fun start stop => ?_⟩
  · -- A gap at the end would be blank.
    obtain ⟨front, rest, cut, rfl⟩ := reading.leadsTo
    by_contra filled
    have last := getLast?_eq_some_getLast filled
    have gap := all_eq_true.mp atEnd _ (getLast_mem filled)
    have visible := trim _ (by
      rw [show layout = front ++ rest from cut, getLast?_append]
      exact congrArg (Option.or · _) last)
    rw [isBlank_of_isGap gap] at visible
    cases visible
  · rw [Derivation.leaves_eq_shown shown]
    exact depthAt_leaves fun shows always => reading.filter_shown .refl rfl always

theorem isSteady_of_unmarked {starts : List Nat} {statements : List (List Char)}
    (unmarked : ∀ token ∈ tokens, token.kind = .string →
      countPair '%' 's' token.text = 0 ∧ countPair '!' 's' token.text = 0) :
    IsSteady width tokens starts statements := by
  -- No string before any place has a mark, so none adds to the drift.
  have none (place : Nat) : marksIn '%' (stringsIn (tokensBefore place tokens)) = 0 ∧
      marksIn '!' (stringsIn (tokensBefore place tokens)) = 0 := by
    have each : ∀ token ∈ stringsIn (tokensBefore place tokens),
        countPair '%' 's' token.text = 0 ∧ countPair '!' 's' token.text = 0 := by
      intro token member
      obtain ⟨among, isString⟩ := mem_filter.mp member
      exact unmarked token (mem_filter.mp among).1 (of_decide_eq_true isString)
    constructor
    · exact sum_eq_zero (forall_mem_map.mpr fun token member => (each token member).1)
    · exact sum_eq_zero (forall_mem_map.mpr fun token member => (each token member).2)
  intro start statement _ depth drift
  have : drift = 0 := by
    simp [drift, driftAt, none]
  rw [this, Int.add_zero]

end Leaves

mutual

theorem Tree.leaves_unplaced : (tree : Tree) → tree.unplaced.leaves = tree.leaves.map Token.unplaced
  | .leaf _ => rfl
  | .node _ children => Tree.leavesAll_unplacedAll children

theorem Tree.leavesAll_unplacedAll : (trees : List Tree) →
    Tree.leavesAll (Tree.unplacedAll trees) = (Tree.leavesAll trees).map Token.unplaced
  | [] => rfl
  | tree :: trees => by
    rw [Tree.unplacedAll, Tree.leavesAll, Tree.leavesAll, map_append, tree.leaves_unplaced,
      Tree.leavesAll_unplacedAll trees]

end

section Main

variable {text : List Char} {tree : Tree} {width : Int}

/-- Every statement of a program is indented by the scopes that are open at it, if the marks in
strings make no difference to the indents. They do make one otherwise, in rows of more than four
places. -/
theorem nesting_shown_iff_steady (accepted : parse text = .ok tree) (plain : '\r' ∉ text)
    (wide : 4 ≤ width) :
    ∃ layout again starts, Writes width text layout ∧ parse layout = .ok again ∧
      again.unplaced = tree.unplaced ∧ SpreadOut 0 starts (statementsOf text) layout ∧
        (IsSteady width again.leaves starts (statementsOf text) →
          ShowsNesting width again.leaves starts (statementsOf text)) ∧
        (5 ≤ width → ShowsNesting width again.leaves starts (statementsOf text) →
          IsSteady width again.leaves starts (statementsOf text)) ∧
        ((∀ leaf ∈ tree.leaves, leaf.kind = .string →
            countPair '%' 's' leaf.text = 0 ∧ countPair '!' 's' leaf.text = 0) →
          ShowsNesting width again.leaves starts (statementsOf text)) := by
  obtain ⟨again, reparsed, same⟩ := exists_parse_layout accepted plain (show 1 ≤ width by omega)
  have spread := spread_layout width text
  -- The text is a line, so its statements are those that the line is cut into.
  have cut : Cut false (statementsOf text) := by
    rw [statementsOf_line plain (newline_not_mem accepted)]
    exact cut_map_stripBlanks text
  obtain ⟨tokens, there, nesting, lexes, ends, nested, counted⟩ :=
    exists_lexes reparsed fun _ last => visible_of_getLast? last
  obtain ⟨groups, whole, grouped⟩ := spread.grouped cut lexes ends rfl rfl
  rw [whole] at nested
  -- The first statement starts the first row, and nothing stands before it.
  have placed : startsFrom width 0 0 (statementsOf text) =
      startsFrom width (0 * width.toNat) 0 (statementsOf text) := by
    rw [Nat.zero_mul]
  obtain ⟨shows, steady⟩ := showsNesting_and_isSteady wide placed grouped
    (⟨rfl, rfl⟩ : Walked 0 ⟨0, true⟩ []) whole (by simp) lexes.isSpelled nested
  have depths (start stop : Nat) := (counted start stop).1
  have drifts (start stop : Nat) := (counted start stop).2
  simp only [ShowsNesting, IsSteady, ← depths, ← drifts] at shows steady
  refine ⟨_, again, _, writes_placeAll (by omega) text, reparsed, same, spread, shows,
    fun wider => steady wider fun _ => Nat.le_refl _, fun unmarked => shows (isSteady_of_unmarked ?_)⟩
  -- The strings of the layout are those of the text.
  intro leaf member isString
  have moved : leaf.unplaced ∈ tree.leaves.map Token.unplaced := by
    rw [← tree.leaves_unplaced, ← same, again.leaves_unplaced]
    exact mem_map_of_mem member
  obtain ⟨other, among, alike⟩ := mem_map.mp moved
  obtain ⟨kind, text, place⟩ := leaf
  cases alike
  exact unmarked other among isString

/-- Two scopes deep the indent is capped, and the line end in the string is none. -/
theorem nesting_shown_iff_steady_deep :
    let text := "def v@1d f %s 1f trve %s f ass `$` $ !s !s".toList
    let layout := "def v@1d f %s   1f trve %s     f ass `$` $         !s   !s".toList
    ∃ tree again starts, parse text = .ok tree ∧ '\r' ∉ text ∧ Writes 7 text layout ∧
      parse layout = .ok again ∧ again.unplaced = tree.unplaced ∧
        SpreadOut 0 starts (statementsOf text) layout ∧
          ShowsNesting 7 again.leaves starts (statementsOf text) := by
  intro text layout
  have plain : '\r' ∉ text := by decide
  obtain ⟨tree, accepted, unmarked⟩ : ∃ tree, parse text = .ok tree ∧ ∀ leaf ∈ tree.leaves,
      leaf.kind = .string → countPair '%' 's' leaf.text = 0 ∧ countPair '!' 's' leaf.text = 0 :=
    exists_ok_of_any (by decide +kernel)
  obtain ⟨found, again, starts, writes, reparsed, same, spread, _, _, shows⟩ :=
    nesting_shown_iff_steady accepted plain (show (4 : Int) ≤ 7 by decide)
  have shown : layoutText? 7 text = some layout := by decide +kernel
  obtain rfl : found = layout := Option.some.inj (writes.1.symm.trans shown)
  exact ⟨tree, again, starts, accepted, plain, writes, reparsed, same, spread, shows unmarked⟩

/-- A string that reads like the end of a scope takes its statement out of the scope. -/
theorem not_showsNesting_quoted :
    let text := "def v@1d f %s `1eft !s best`$ !s".toList
    let layout :=
      "def v@1d f %s                   `1eft !s best`$                 !s".toList
    ∃ tree again, parse text = .ok tree ∧ '\r' ∉ text ∧ Writes 32 text layout ∧
      parse layout = .ok again ∧ SpreadOut 0 [0, 32, 64] (statementsOf text) layout ∧
        depthAt again.leaves 32 47 = 1 ∧ ¬ ShowsNesting 32 again.leaves [0, 32, 64] (statementsOf text) := by
  intro text layout
  obtain ⟨tree, accepted, _⟩ : ∃ tree, parse text = .ok tree ∧ True := exists_ok_of_any (by decide +kernel)
  obtain ⟨again, reparsed, depth⟩ : ∃ tree, parse layout = .ok tree ∧ depthAt tree.leaves 32 47 = 1 :=
    exists_ok_of_any (by decide +kernel)
  have starts : startsFrom 32 0 0 (statementsOf text) = [0, 32, 64] := by decide +kernel
  have shown : stripBlanks (placeAll 32 0 (statementsOf text)) = layout := by decide +kernel
  have statement : (32, "`1eft !s best`$".toList) ∈ [0, 32, 64].zip (statementsOf text) := by
    decide +kernel
  have spread := spread_layout 32 text
  have writes := writes_placeAll (show (32 : Int) ≠ 0 by decide) text
  rw [shown] at spread writes
  rw [starts] at spread
  refine ⟨tree, again, accepted, by decide, writes, reparsed, spread, depth, fun shows => ?_⟩
  -- The statement starts its row, and is in one scope.
  have aligned := shows 32 _ statement
  have long : 32 + "`1eft !s best`$".toList.length = 47 := by decide
  rw [long, depth] at aligned
  exact absurd aligned (by decide)

end Main

end LeftHand
