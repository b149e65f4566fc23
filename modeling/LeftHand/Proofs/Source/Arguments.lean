import LeftHand.Proofs.Source.Bodies

/-!
Expressions as arguments: an expression that is accepted alone is accepted as the argument of a
call, with the same meaning, exactly if it is not loose.
-/

namespace LeftHand

open List

variable {text word : List Char}

section Ends

theorem cut_of_ends {piece gap inner last : List Char}
    (same : text ++ " $ !s".toList = piece ++ (gap ++ '$' :: (inner ++ '!' :: 's' :: last)))
    (innerGap : inner.all Cursor.isGap = true) (lastGap : last.all Cursor.isGap = true) :
    text ++ [' '] = piece ++ gap ∧ inner = [' '] ∧ last = [] := by
  -- Read from behind, each gap ends at the next mark.
  have back : [] ++ 's' :: '!' :: ' ' :: '$' :: ' ' :: text.reverse =
      last.reverse ++ 's' :: '!' :: (inner.reverse ++ '$' :: (gap.reverse ++ piece.reverse)) := by
    simpa using congrArg List.reverse same
  obtain ⟨noLast, behind⟩ := cut_unique rfl (by simpa using lastGap) rfl rfl back
  have front : [' '] ++ '$' :: ' ' :: text.reverse =
      inner.reverse ++ '$' :: (gap.reverse ++ piece.reverse) := by
    simpa using behind
  obtain ⟨oneSpace, before⟩ := cut_unique rfl (by simpa using innerGap) rfl rfl front
  refine ⟨?_, ?_, ?_⟩
  · simpa using congrArg List.reverse (List.cons.inj before).2
  · simpa using congrArg List.reverse oneSpace.symm
  · simpa using noLast.symm

end Ends

section Places

variable {text gap : List Char} {expression : Derivation} {ended closed : Token}
  {here middle next last : Cursor} {kind : Terminal} {token : Token}

/-- The start of an expression that is a statement. -/
def Cursor.atStatement (text : List Char) : Cursor :=
  ⟨13, some 's', ' ' :: text ++ " $ !s".toList⟩

/-- The start of an expression that is an argument. -/
def Cursor.atArgument (text : List Char) : Cursor :=
  ⟨23, some 'e', ' ' :: text ++ " !e $ !s".toList⟩

/-- A stretch of a text can be read as an expression in one way, and then the program ends. -/
structure StandsAlone (text : List Char) (expression : Derivation) (ended closed : Token)
    (middle : Cursor) : Prop where
  derived : Derives (.phrase .expr) (.atStatement text) expression middle
  only : ∀ other, Derives (.phrase .expr) (.atStatement text) other middle → other = expression
  ends : ∃ behind there, middle.take? .lineEnd = some (ended, behind) ∧
    behind.take? .scopeEnd = some (closed, there) ∧ there.isAtEnd = true

theorem Cursor.cut_of_plain (spelled : kind.spelling = .plain word)
    (taken : here.take? kind = some (token, next)) :
    ∃ gap, gap.all isGap = true ∧ here.rest = gap ++ (word ++ next.rest) := by
  obtain ⟨gap, piece, rest, isGap, cut, found, _, rfl⟩ := take?_iff.mp taken
  rw [spelled] at found
  obtain ⟨rfl, _⟩ := take?_plain.mp found
  exact ⟨gap, isGap, cut⟩

/-- An expression that is a statement, up to the gap behind it, stands as an argument, too. -/
theorem StandsAlone.exists_shares (alone : StandsAlone text expression ended closed middle) :
    ∃ piece gap, gap.all Cursor.isGap = true ∧ middle.rest = gap ++ "$ !s".toList ∧
      (Cursor.atStatement text).Shares (.atArgument text) piece middle.rest
        (gap ++ "!e $ !s".toList) := by
  obtain ⟨derived, _, behind, there, ends, closes, atEnd⟩ := alone
  obtain ⟨gap, isGap, first⟩ := Cursor.cut_of_plain rfl ends
  obtain ⟨inner, innerGap, second⟩ := Cursor.cut_of_plain rfl closes
  obtain ⟨piece, rest, cut, rfl⟩ := derived.leadsTo
  have split : rest = gap ++ '$' :: (inner ++ '!' :: 's' :: there.rest) := by
    rw [second] at first
    exact first
  obtain ⟨front, oneSpace, none⟩ := cut_of_ends (cut.trans (congrArg (piece ++ ·) split)) innerGap atEnd
  rw [oneSpace, none] at split
  -- An expression does not end in a gap, so the space behind the text is part of the gap.
  have filled : gap ≠ [] := by
    rintro rfl
    rcases derived.eq_or_before with same | ⟨c, before, solid⟩
    · have later := derived.place_lt rfl
      rw [same] at later
      exact absurd later (Nat.lt_irrefl _)
    · have space : piece.getLast? = some ' ' := by
        rw [← List.append_nil piece, ← front, getLast?_concat]
      have same : ' ' = c := by simpa [Cursor.after, space] using before
      rw [← same] at solid
      cases solid
  refine ⟨piece, gap, isGap, split, cut, ?_, rfl, ?_⟩
  · calc ' ' :: text ++ " !e $ !s".toList = (' ' :: text ++ [' ']) ++ "!e $ !s".toList := by simp
      _ = piece ++ (gap ++ "!e $ !s".toList) := by rw [front, append_assoc]
  · show LooksAlike rest _
    rw [split]
    cases gap with
    | nil => exact absurd rfl filled
    | cons c gap => exact ⟨rfl, rfl, rfl⟩

theorem not_starts_of_lineEnd (isGap : gap.all Cursor.isGap = true)
    (ends : middle.rest = gap ++ "$ !s".toList) : ¬ middle.Starts expressionKinds := by
  rintro ⟨kind, member, ⟨token, next⟩, taken⟩
  obtain ⟨piece, rest, found, _⟩ := (Cursor.take?_behind isGap rfl ends).mp taken
  have refused : ∀ before : Option Char,
      expressionKinds.all fun kind => (kind.spelling.take? before "$ !s".toList).isNone := by
    intro before
    cases joins : before.any isJoining with
    | false =>
      simp only [take?_before (show before.any isJoining = Option.any isJoining none from joins)]
      decide
    | true =>
      simp only [take?_before (show before.any isJoining = Option.any isJoining (some 'a') from joins)]
      decide
  have none := all_eq_true.mp (refused (gap.getLast?.or middle.before)) kind member
  rw [found] at none
  cases none

theorem take?_parenEnd (isGap : gap.all Cursor.isGap = true) (ends : last.rest = gap ++ "!e $ !s".toList) :
    ∃ start place before, last.take? .parenEnd =
      some (⟨.parenEnd, ['!', 'e'], start⟩, ⟨place, before, " $ !s".toList⟩) := by
  have found : Terminal.parenEnd.spelling.take? (gap.getLast?.or last.before)
      (['!', 'e'] ++ " $ !s".toList) = some (['!', 'e'], " $ !s".toList) := rfl
  exact ⟨_, _, _, Cursor.take?_iff.mpr ⟨gap, ['!', 'e'], _, isGap, ends, found, rfl, rfl⟩⟩

end Places

section Meaning

variable {text : List Char} {program : Program} {function : Function} {pos : Pos} {value : Expr}
  {form other : Form} {here there next last : Cursor} {expression again : Derivation} {ended closed : Token}

theorem items_of_alike (derived : Derives form here expression there)
    (also : Derives other next again last) (alike : again.unplaced = expression.unplaced) {keep : Bool}
    (made : Tree.items (expression.trees keep) = .ok [.expr value]) :
    ∃ found, Tree.items (again.trees keep) = .ok [.expr found] ∧ found.unplaced = value.unplaced := by
  have moved : (Tree.items (again.trees keep)).map (List.map Item.unplaced) =
      .ok [.expr value.unplaced] := by
    rw [← (also.checked keep).alike, ← Derivation.trees_unplaced, alike, Derivation.trees_unplaced,
      (derived.checked keep).alike, made]
    rfl
  obtain ⟨items, found, same⟩ := map_eq_ok.mp moved
  obtain ⟨item, rest, rfl, isExpr, none⟩ := map_eq_cons_iff.mp same.symm
  rw [map_eq_nil_iff.mp none] at found
  cases item with
  | expr given => exact ⟨given, found, Item.expr.inj isExpr⟩
  | _ => cases isExpr

theorem clean_of_alike (alike : again.unplaced = expression.unplaced)
    (clean : ∀ token ∈ expression.tokens, containsWord word token.text = false) :
    ∀ token ∈ again.tokens, containsWord word token.text = false := by
  intro token inside
  have same : again.tokens.map Token.unplaced = expression.tokens.map Token.unplaced := by
    rw [← Derivation.tokens_unplaced, alike, Derivation.tokens_unplaced]
  have among := mem_map_of_mem (f := Token.unplaced) inside
  rw [same] at among
  obtain ⟨other, member, found⟩ := mem_map.mp among
  show containsWord word token.unplaced.text = false
  rw [← found]
  exact clean other member

theorem isLoose_ofBody (expression : Derivation) (ended closed : Token) :
    (Derivation.ofBody (.ofStatement expression ended) closed).isLoose = expression.isLoose := by
  -- The tokens around the expression open no brackets and are not loose.
  show ((expression.isLoose || (!expression.opens && false)) || false || false) = expression.isLoose
  simp

/-- A program that is the statement of an expression has one reading, made of the only reading of
the expression. -/
theorem exists_expression (read : readProgram (asStatement text) = .ok program)
    (single : program.functions = [function]) (body : function.body.statements = [.expr pos value]) :
    ∃ expression ended closed middle, StandsAlone text expression ended closed middle ∧
      derive (asStatement text) = .ok (.ofBody (.ofStatement expression ended) closed) ∧
        Tree.items (expression.trees false) = .ok [.expr value] ∧
          ∀ token ∈ expression.tokens, containsWord ambiguityMark token.text = false := by
  obtain ⟨tree, parsed, item⟩ := readProgram_eq_ok.mp read
  obtain ⟨derivation, derived, clean, shown⟩ := parse_eq_ok.mp parsed
  obtain ⟨reading, unique⟩ := derive_eq_ok.mp derived
  obtain ⟨statements, behind, closed, next, functions, there, rfl, all, closes, others, atEnd⟩ :=
    reading_enclosing.mp reading
  have made := Tree.items_singleton_iff.mpr item
  rw [← shown] at made
  obtain ⟨rfl, actions, rfl, row⟩ :=
    exists_actions all (Cursor.kind_of_take? closes) others made single
  obtain rfl : actions = [.expr pos value] := body
  -- One statement was derived, because one has been made.
  have length : statements.length = 1 := by
    rw [← all.length_trees true, ← Tree.length_of_items row]
    rfl
  obtain ⟨statement, rfl⟩ := length_eq_one_iff.mp length
  cases all with
  | cons first onward =>
    cases onward
    cases others
    rw [flatMap_singleton] at row
    obtain ⟨expression, ended, middle, rfl, inner, ends, value⟩ := exists_ofStatement first row
    have only : ∀ other, Derives (.phrase .expr) (.atStatement text) other middle →
        other = expression := by
      intro other again
      have statement : Derives (.phrase .exprStmt) _ _ _ := .phrase (.seq again (.token ends))
      have also := unique _ (reading_enclosing.mpr ⟨[.ofStatement other ended], behind, closed, next, [],
        next, rfl, .cons (.phrase (.right (.left statement))) .nil, closes, .nil, atEnd⟩)
      simpa [Derivation.enclosing, Derivation.row, Derivation.ofStatement] using also
    refine ⟨expression, ended, closed, middle, ⟨inner, only, behind, next, ends, closes, atEnd⟩, derived,
      value, fun token inside => clean token ?_⟩
    simp [Derivation.tokens, Derivation.enclosing, Derivation.row, Derivation.ofStatement, inside]

section Passed

variable {start place : Nat} {before : Option Char} {argument : Expr}

theorem clean_passing (clean : ∀ token ∈ again.tokens, containsWord ambiguityMark token.text = false)
    (start place : Nat) :
    ∀ token ∈ (Derivation.passing [again] ⟨.parenEnd, ['!', 'e'], start⟩ place).tokens,
      containsWord ambiguityMark token.text = false := by
  simp only [Derivation.tokens, Derivation.passing, Derivation.ofBody, Derivation.enclosing,
    Derivation.tokens_row, Derivation.ofArguments, Derivation.ofStatement, Derivation.ofFactor,
    Derivation.ofCall, flatMap_cons, flatMap_nil, forall_mem_append,
    forall_mem_singleton, List.append_nil, nil_append]
  exact ⟨rfl, rfl, rfl, rfl, ⟨⟨rfl, rfl, rfl, clean, rfl⟩, rfl⟩, rfl⟩

variable (derived : Derives (.phrase .expr) (.atArgument text) again last)

include derived

theorem readProgram_argument (closes : last.take? .parenEnd =
      some (⟨.parenEnd, ['!', 'e'], start⟩, ⟨place, before, " $ !s".toList⟩))
    (only : ∀ others, DerivesAll (.phrase .expr) (.atArgument text) others last → others = [again])
    (clean : ∀ token ∈ again.tokens, containsWord ambiguityMark token.text = false)
    (made : Tree.items (again.trees false) = .ok [.expr argument]) :
    readProgram (asArgument text) = .ok ⟨⟨1, 1⟩, [enclosingFunction
      [.expr ⟨1, 20⟩ (.exec ⟨1, 20⟩ ⟨⟨1, 20⟩, "f"⟩ [argument])]]⟩ := by
  have readings (derivation : Derivation) : Reading (asArgument text) derivation ↔ _ :=
    reading_passing (.cons derived .nil) closes
  have known : derive (asArgument text) =
      .ok (.passing [again] ⟨.parenEnd, ['!', 'e'], start⟩ place) := by
    refine derive_eq_ok.mpr ⟨(readings _).mpr ⟨[again], .cons derived .nil, rfl⟩, ?_⟩
    intro other reading
    obtain ⟨others, all, rfl⟩ := (readings _).mp reading
    rw [only others all]
  -- The call makes what its one argument makes, and so on outwards.
  have arguments : Tree.items ([again].flatMap (Derivation.trees false)) = .ok ([argument].map .expr) := by
    rw [flatMap_singleton]
    exact made
  have row : Tree.items ([Derivation.ofArguments [again] ⟨.parenEnd, ['!', 'e'], start⟩ place].flatMap
      (Derivation.trees true)) =
        .ok [.stmt (.expr ⟨1, 20⟩ (.exec ⟨1, 20⟩ ⟨⟨1, 20⟩, "f"⟩ [argument]))] := by
    rw [flatMap_singleton]
    exact items_ofArguments rfl arguments
  have call := (derives_ofArguments (.cons derived .nil) closes).mpr
    ⟨[again], rfl, .cons derived .nil, rfl⟩
  have isEnd : (Token.mk .scopeEnd ['!', 's'] (place + 3)).kind = .scopeEnd := rfl
  have defined := (items_enclosing (.cons call .nil) isEnd false).mpr ⟨[_], row, rfl⟩
  have whole := Tree.items_node_iff.mpr ⟨_, _, rfl, defined, (Rule.Forms.program _ []).construct⟩
  exact readProgram_eq_ok.mpr ⟨_, parse_eq_ok.mpr ⟨_, known, clean_passing clean start place, rfl⟩,
    Tree.items_singleton_iff.mp whole⟩

/-- An argument that can also be read as several makes the program ambiguous. -/
theorem readProgram_ambiguous
    (closes : last.take? .parenEnd = some (closed, ⟨place, before, " $ !s".toList⟩))
    {others : List Derivation} (all : DerivesAll (.phrase .expr) (.atArgument text) others last)
    (differ : others ≠ [again]) : readProgram (asArgument text) = .error (.parse .ambiguous) := by
  have readings (derivation : Derivation) : Reading (asArgument text) derivation ↔ _ :=
    reading_passing (.cons derived .nil) closes
  have first := (readings _).mpr ⟨[again], .cons derived .nil, rfl⟩
  have second := (readings _).mpr ⟨others, all, rfl⟩
  have ambiguous : derive (asArgument text) = .error .ambiguous :=
    derive_eq_ambiguous second first fun same => differ (Derivation.passing_injective same)
  rw [readProgram, parse, ambiguous]
  rfl

end Passed

/-- The program, but for places, of a function that calls itself with one argument. -/
def callProgram (argument : Expr) : Program :=
  ⟨.start, [⟨.start, .void .start, ⟨.start, "f"⟩, [],
    ⟨.start, [.expr .start (.exec .start ⟨.start, "f"⟩ [argument])]⟩⟩]⟩

/-- An expression that is accepted alone, as the only statement of a function, is accepted as the
only argument of a call, and means the same there, unless it is loose: then the call is
ambiguous. -/
theorem expression_as_argument (read : readProgram (asStatement text) = .ok program)
    (single : program.functions = [function]) (body : function.body.statements = [.expr pos value]) :
    ∃ derivation, derive (asStatement text) = .ok derivation ∧
      (derivation.isLoose = false →
        (readProgram (asArgument text)).map Program.unplaced = .ok (callProgram value.unplaced)) ∧
      (derivation.isLoose = true → readProgram (asArgument text) = .error (.parse .ambiguous)) := by
  obtain ⟨expression, ended, closed, middle, alone, known, made, clean⟩ :=
    exists_expression read single body
  -- What the expression is read as where it stands alone, it is read as in the call.
  obtain ⟨piece, gap, isGap, rest, shares⟩ := alone.exists_shares
  obtain ⟨derived, only, _, _, ends, _⟩ := alone
  obtain ⟨again, last, moved, alike, follows⟩ := derived.moved shares rfl
  obtain ⟨start, place, before, brackets⟩ := take?_parenEnd isGap follows
  have splits := isLoose_iff_splits derived only (not_starts_of_lineEnd isGap rest)
    (Cursor.isTame_of_take? ends)
  refine ⟨_, known, ?_, ?_⟩
  · intro tight
    rw [isLoose_ofBody] at tight
    have onlyAgain : ∀ others, DerivesAll (.phrase .expr) (.atArgument text) others last →
        others = [again] := by
      intro others all
      by_contra differ
      have loose := splits.mpr (all.moved shares.symm follows rfl moved derived alike.symm differ)
      rw [tight] at loose
      cases loose
    obtain ⟨argument, found, same⟩ := items_of_alike derived moved alike made
    rw [readProgram_argument moved brackets onlyAgain (clean_of_alike alike clean) found, ← same]
    rfl
  · intro loose
    rw [isLoose_ofBody] at loose
    obtain ⟨values, all, differ⟩ := splits.mp loose
    obtain ⟨others, found, alsoDiffer⟩ := all.moved shares rfl follows derived moved alike differ
    exact readProgram_ambiguous moved brackets found alsoDiffer

end Meaning

section Signs

/-- The derivation of a program that negates a variable, which stands at a place. -/
def negation (place : Nat) : Derivation :=
  .ofBody (.ofStatement (.ofFactor (.ofSign ⟨.negWord, "sf@".toList, 14⟩
    (.ofName (.right .empty) ⟨.identifier, ['x'], place⟩))) ⟨.lineEnd, ['$'], place + 2⟩)
    ⟨.scopeEnd, ['!', 's'], place + 4⟩

/-- The negation of a variable in a column. -/
def negated (column : Nat) : Expr :=
  .binary ⟨1, column⟩ .sub (.decimal ⟨1, column⟩ 0) (.name ⟨1, column⟩ ⟨⟨1, column⟩, "x"⟩)

theorem readProgram_negation {place : Nat}
    (derived : derive (asStatement text) = .ok (negation place))
    (clean : (negation place).tokens.all (!containsWord ambiguityMark ·.text) = true) :
    readProgram (asStatement text) =
      .ok ⟨⟨1, 1⟩, [enclosingFunction [.expr ⟨1, place + 1⟩ (negated (place + 1))]]⟩ :=
  readProgram_eq_ok.mpr ⟨_, parse_eq_ok.mpr ⟨_, derived, by simpa using clean, rfl⟩, rfl⟩

/-- A sign before a variable is passed on if it touches it, and is ambiguous if it does not. -/
theorem expression_as_argument_signs :
    (readProgram (asStatement "sf@x".toList) =
        .ok ⟨⟨1, 1⟩, [enclosingFunction [.expr ⟨1, 18⟩ (negated 18)]]⟩ ∧
      (readProgram (asArgument "sf@x".toList)).map Program.unplaced =
        .ok (callProgram (negated 18).unplaced)) ∧
      readProgram (asStatement "sf@ x".toList) =
        .ok ⟨⟨1, 1⟩, [enclosingFunction [.expr ⟨1, 19⟩ (negated 19)]]⟩ ∧
      readProgram (asArgument "sf@ x".toList) = .error (.parse .ambiguous) := by
  have tight : derive (asStatement "sf@x".toList) = .ok (negation 17) := by decide +kernel
  have loose : derive (asStatement "sf@ x".toList) = .ok (negation 18) := by decide +kernel
  have tightRead := readProgram_negation tight (by decide +kernel)
  have looseRead := readProgram_negation loose (by decide +kernel)
  obtain ⟨derivation, known, passed, _⟩ := expression_as_argument tightRead rfl rfl
  obtain ⟨other, alsoKnown, _, refused⟩ := expression_as_argument looseRead rfl rfl
  cases tight.symm.trans known
  cases loose.symm.trans alsoKnown
  exact ⟨⟨tightRead, passed (by decide +kernel)⟩, looseRead, refused (by decide +kernel)⟩

/-- The negation of a variable behind a space is accepted alone, but not as an argument. -/
theorem not_argument_looseSign :
    readProgram (asStatement "sf@ x".toList) =
        .ok ⟨⟨1, 1⟩, [enclosingFunction [.expr ⟨1, 19⟩ (negated 19)]]⟩ ∧
      readProgram (asArgument "sf@ x".toList) = .error (.parse .ambiguous) := by
  have loose : derive (asStatement "sf@ x".toList) = .ok (negation 18) := by decide +kernel
  have ambiguous : derive (asArgument "sf@ x".toList) = .error .ambiguous := by decide +kernel
  refine ⟨readProgram_negation loose (by decide +kernel), ?_⟩
  rw [readProgram, parse, ambiguous]
  rfl

end Signs

end LeftHand
