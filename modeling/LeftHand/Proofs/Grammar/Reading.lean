import LeftHand.Grammar.Tree
import LeftHand.Proofs.Grammar.Parser

/-!
Readings: the ways to derive a whole text as a program. A text is accepted exactly when it has a
single reading.
-/

namespace LeftHand

open List

variable {here there one other : Cursor} {derivation : Derivation} {text : List Char}

/-- Whether repeated items lead on wherever a form repeats them. -/
def Form.isSteady : Form → Bool
  | empty | token _ | phrase _ => true
  | seq first second => first.isSteady && second.isSteady
  | alt left right => left.isSteady && right.isSteady
  | many item => !item.isNullable && item.isSteady

theorem Rule.isSteady_body (rule : Rule) : rule.body.isSteady = true := by
  cases rule <;> rfl

theorem runForm_lists (fuel : Nat) (form : Form) (here : Cursor) (steady : form.isSteady = true) :
    Lists (runForm fuel form here).endings here (DerivesWithin fuel form here) := by
  induction fuel generalizing form here with
  | zero => exact Lists.nil.congr fun _ _ => ⟨False.elim, fun derived => nomatch derived⟩
  | succ fuel ih =>
    cases form with
    | empty =>
      refine (Lists.singleton .refl).congr fun derivation there => ?_
      constructor
      · rintro ⟨rfl, rfl⟩
        exact .empty
      · rintro ⟨⟩
        exact ⟨rfl, rfl⟩
    | token kind =>
      rw [runForm, takeToken]
      cases taken : here.take? kind with
      | none =>
        refine Lists.nil.congr fun derivation there => ⟨False.elim, ?_⟩
        rintro ⟨⟩
        simp_all
      | some found =>
        obtain ⟨token, stop⟩ := found
        refine (Lists.singleton (Cursor.leadsTo_of_take? taken)).congr fun derivation there => ?_
        constructor
        · rintro ⟨rfl, rfl⟩
          exact .token taken
        · intro derived
          cases derived with
          | token again =>
            cases taken.symm.trans again
            exact ⟨rfl, rfl⟩
    | phrase rule =>
      refine ((ih rule.body here rule.isSteady_body).map (.phrase rule)
        fun _ _ same => (Derivation.phrase.inj same).2).congr fun derivation there => ?_
      constructor
      · rintro ⟨body, rfl, derived⟩
        exact .phrase derived
      · intro derived
        cases derived with
        | phrase derived => exact ⟨_, rfl, derived⟩
    | seq first second =>
      rw [Form.isSteady, Bool.and_eq_true] at steady
      refine ((ih first here steady.1).andThen (fun middle => ih second middle steady.2)
        fun _ _ _ derived again => derived.end_eq again).congr fun derivation there => ?_
      constructor
      · rintro ⟨one, two, middle, rfl, before, behind⟩
        exact .seq before behind
      · intro derived
        cases derived with
        | seq before behind => exact ⟨_, _, _, rfl, before, behind⟩
    | alt left right =>
      rw [Form.isSteady, Bool.and_eq_true] at steady
      have lefts := (ih left here steady.1).map .left fun _ _ => Derivation.left.inj
      have rights := (ih right here steady.2).map .right fun _ _ => Derivation.right.inj
      refine (lefts.join rights ?_).congr fun derivation there => ?_
      · rintro derivation there ⟨_, rfl, _⟩ ⟨_, made, _⟩
        cases made
      · constructor
        · rintro (⟨chosen, rfl, derived⟩ | ⟨chosen, rfl, derived⟩)
          · exact .left derived
          · exact .right derived
        · intro derived
          cases derived with
          | left derived => exact .inl ⟨_, rfl, derived⟩
          | right derived => exact .inr ⟨_, rfl, derived⟩
    | many item =>
      rw [Form.isSteady, Bool.and_eq_true, Bool.not_eq_true'] at steady
      -- At the start nothing but the empty repetition is pending.
      have start : Lists [⟨here, .one .empty⟩] here (Pending fuel item here here.place) := by
        refine (Lists.singleton .refl).congr fun derivation there => ?_
        constructor
        · rintro ⟨rfl, rfl⟩
          exact ⟨.none, Nat.le_refl _, fun _ _ _ made => by cases made⟩
        · rintro ⟨derived, _, starts⟩
          cases derived with
          | none => exact ⟨rfl, rfl⟩
          | more before _ =>
            have := starts _ _ _ rfl before
            have := before.derives.leadsTo.place_le
            omega
      have listed := Lists.repeated steady.1 (fun middle => ih item middle steady.2)
        (here.rest.length + 1) here.place _ start (by omega)
      exact listed.congr fun derivation there =>
        ⟨And.left, fun derived => ⟨derived, derived.derives.leadsTo.place_le⟩⟩

/-- How many rules can be entered one in the other before a token, at most, from a rule on. -/
def Rule.rank : Rule → Nat
  | voidType | decimalType | booleanType | charType | literal => 0
  | derefExpr | revExpr | negExpr | execExpr | nameExpr => 0
  | function | block | retStmt | bassStmt | ifStmt | elseIfStmt | elseStmt | asStmt => 0
  | type | factor | assignStmt | program => 1
  | term | param | declareStmt => 2
  | formula | params => 3
  | comparison => 4
  | equality => 5
  | andExpr => 6
  | orExpr => 7
  | expr => 8
  | exprStmt => 9
  | statement => 10

/-- How many rules can be entered one in the other before a token, at most, in a form. -/
def Form.rank : Form → Nat
  | empty | token _ => 0
  | phrase rule => rule.rank + 1
  | seq first second => if first.isNullable then max first.rank second.rank else first.rank
  | alt left right => max left.rank right.rank
  | many item => item.rank

theorem Rule.rank_body (rule : Rule) : rule.body.rank ≤ rule.rank := by
  cases rule <;> decide

theorem Rule.height_body (rule : Rule) : rule.body.height < 10 := by
  cases rule <;> decide

theorem Form.rank_le (form : Form) : form.rank ≤ 34 := by
  induction form with
  | empty | token => exact Nat.zero_le _
  | phrase rule => cases rule <;> decide
  | seq first second before behind =>
    rw [rank]
    split <;> omega
  | alt left right before behind =>
    rw [rank]
    omega
  | many item ih => exact ih

theorem Cursor.LeadsTo.eq_or_length_lt (leads : here.LeadsTo there) :
    there = here ∨ here.place < there.place ∧ there.rest.length < here.rest.length := by
  have total := leads.place_add_length
  have onward := leads.place_le
  by_cases same : there.place = here.place
  · exact .inl (leads.eq_of_place .refl same)
  · exact .inr ⟨by omega, by omega⟩

theorem le_depthPerChar : 340 ≤ depthPerChar := by
  decide

/-- One character less to go pays for all the rules that can be entered before the next token. -/
theorem enough_behind {short long rank height fuel : Nat} (shorter : short < long) (ranked : rank ≤ 34)
    (enough : long * depthPerChar + height ≤ fuel) :
    short * depthPerChar + rank * 10 + height ≤ fuel := by
  have deep := le_depthPerChar
  have less : (short + 1) * depthPerChar ≤ long * depthPerChar :=
    Nat.mul_le_mul_right depthPerChar shorter
  rw [Nat.succ_mul] at less
  omega

/-- A derivation nests no deeper than its form allows before a token and the text allows behind
it. -/
theorem Derives.within {form : Form} (derived : Derives form here derivation there) (fuel : Nat)
    (enough : here.rest.length * depthPerChar + form.rank * 10 + form.height ≤ fuel) :
    DerivesWithin fuel form here derivation there := by
  induction derived generalizing fuel with
  | empty =>
    cases fuel with
    | zero => cases enough
    | succ fuel => exact .empty
  | token taken =>
    rw [Form.height] at enough
    cases fuel with
    | zero => omega
    | succ fuel => exact .token taken
  | @phrase rule here body there derived ih =>
    have lower := rule.rank_body
    have flat := rule.height_body
    rw [Form.rank, Form.height] at enough
    cases fuel with
    | zero => omega
    | succ fuel => exact .phrase (ih fuel (by omega))
  | @seq first second here middle there one two before behind ihFirst ihSecond =>
    have ranked := second.rank_le
    rw [Form.rank, Form.height] at enough
    cases fuel with
    | zero => omega
    | succ fuel =>
      refine .seq (ihFirst fuel (by split at enough <;> omega)) (ihSecond fuel ?_)
      -- Either the second part starts at the same place, or there is less text to go.
      rcases before.leadsTo.eq_or_length_lt with rfl | ⟨onward, shorter⟩
      · have nullable : first.isNullable = true := by
          cases solid : first.isNullable with
          | true => rfl
          | false => exact absurd (before.place_lt solid) (Nat.lt_irrefl _)
        rw [if_pos nullable] at enough
        omega
      · exact enough_behind shorter ranked (by omega)
  | left derived ih =>
    rw [Form.rank, Form.height] at enough
    cases fuel with
    | zero => omega
    | succ fuel => exact .left (ih fuel (by omega))
  | right derived ih =>
    rw [Form.rank, Form.height] at enough
    cases fuel with
    | zero => omega
    | succ fuel => exact .right (ih fuel (by omega))
  | none =>
    rw [Form.height] at enough
    cases fuel with
    | zero => omega
    | succ fuel => exact .none
  | @more item here middle there items last before behind ihItems ihLast =>
    have ranked := item.rank_le
    have items := ihItems fuel enough
    rw [Form.rank, Form.height] at enough
    cases fuel with
    | zero => omega
    | succ fuel =>
      refine .more items (ihLast fuel ?_)
      rcases before.leadsTo.eq_or_length_lt with rfl | ⟨onward, shorter⟩
      · omega
      · exact enough_behind shorter ranked (by omega)

/-- A derivation of a whole text as a program. -/
def Reading (text : List Char) (derivation : Derivation) : Prop :=
  ∃ there, Derives (.phrase .program) (.start text) derivation there ∧ there.isAtEnd = true

theorem lists_program (text : List Char) :
    Lists (runForm (fuelFor text.length) (.phrase .program) (.start text)).endings (.start text)
      (Derives (.phrase .program) (.start text)) := by
  refine (runForm_lists _ _ _ rfl).congr fun derivation there => ⟨DerivesWithin.derives, ?_⟩
  intro derived
  refine derived.within _ ?_
  have deep := le_depthPerChar
  show text.length * depthPerChar + 20 + 1 ≤ (text.length + 1) * depthPerChar
  rw [Nat.succ_mul]
  omega

/-- Behind what has been derived, unless it is nothing, the last character is no gap. -/
theorem Derives.eq_or_before {form : Form} (derived : Derives form here derivation there) :
    there = here ∨ ∃ last, there.before = some last ∧ Cursor.isGap last = false := by
  induction derived with
  | empty | none => exact .inl rfl
  | token taken => exact .inr (Cursor.before_of_take? taken)
  | phrase _ ih | left _ ih | right _ ih => exact ih
  | seq _ _ before behind | more _ _ before behind =>
    rcases behind with rfl | found
    · exact before
    · exact .inr found

theorem Cursor.LeadsTo.between (leads : here.LeadsTo one) (also : here.LeadsTo other)
    (order : one.place ≤ other.place) : one.LeadsTo other := by
  obtain ⟨piece, rest, cut, rfl⟩ := leads
  obtain ⟨longer, behind, again, rfl⟩ := also
  -- The longer piece goes on where the shorter one ends.
  have shorter : piece.length ≤ longer.length := Nat.le_of_add_le_add_left order
  obtain ⟨more, rfl, split⟩ : ∃ more, longer = piece ++ more ∧ rest = more ++ behind := by
    have same : piece ++ rest = longer ++ behind := cut.symm.trans again
    refine ⟨longer.drop piece.length, ?_, ?_⟩
    · have := congrArg (List.take piece.length) same
      rw [take_left, take_append_of_le_length shorter] at this
      conv => rhs; lhs; rw [this]
      exact (take_append_drop _ _).symm
    · have := congrArg (List.drop piece.length) same
      rwa [drop_left, drop_append_of_le_length shorter] at this
  refine ⟨more, behind, split, ?_⟩
  rw [split]
  exact Cursor.after_after.symm

/-- A program can end at one place only with nothing but a gap behind it. -/
theorem Derives.end_unique {first second : Derivation}
    (derived : Derives (.phrase .program) here first one)
    (again : Derives (.phrase .program) here second other) (atEnd : one.isAtEnd = true)
    (alsoAtEnd : other.isAtEnd = true) : one = other := by
  -- Between two such places there is gap only, but a program does not end in a gap.
  have order : ∀ {one other : Cursor} {first second : Derivation},
      Derives (.phrase .program) here first one → Derives (.phrase .program) here second other →
      one.isAtEnd = true → ¬one.place < other.place := by
    intro one other first second derived again atEnd before
    obtain ⟨piece, rest, cut, rfl⟩ := derived.leadsTo.between again.leadsTo (Nat.le_of_lt before)
    rcases again.eq_or_before with same | ⟨last, ends, solid⟩
    · have := again.place_lt rfl
      rw [same] at this
      omega
    · have filled : piece ≠ [] := by
        rintro rfl
        simp [Cursor.after] at before
      have found : piece.getLast? = some last := by
        simpa [Cursor.after, getLast?_eq_some_getLast filled] using ends
      have inside : last ∈ one.rest := by
        rw [cut]
        exact mem_append_left _ (mem_of_getLast? found)
      have gap := all_eq_true.mp atEnd last inside
      rw [solid] at gap
      cases gap
  refine derived.leadsTo.eq_of_place again.leadsTo ?_
  have := order derived again atEnd
  have := order again derived alsoAtEnd
  omega

/-- A text is accepted if and only if it has one reading, which is then the derivation given. -/
theorem derive_eq_ok :
    derive text = .ok derivation ↔
      Reading text derivation ∧ ∀ other, Reading text other → other = derivation := by
  have listed := lists_program text
  simp only [derive]
  constructor
  · intro given
    split at given
    · rename_i there single found
      cases given
      have atEnd := find?_some found
      have counts := listed.counts _ (mem_of_find?_eq_some found)
      have derived := (counts derivation).mpr rfl
      refine ⟨⟨there, derived, atEnd⟩, ?_⟩
      rintro other ⟨last, again, alsoAtEnd⟩
      obtain rfl := derived.end_unique again atEnd alsoAtEnd
      exact (counts other).mp again
    · cases given
    · cases given
  · rintro ⟨⟨there, derived, atEnd⟩, unique⟩
    obtain ⟨ending, member, rfl⟩ := listed.complete derivation there derived
    split
    · rename_i last single found
      have alsoAtEnd := find?_some found
      have counts := listed.counts _ (mem_of_find?_eq_some found)
      rw [unique single ⟨last, (counts single).mpr rfl, alsoAtEnd⟩]
    · rename_i last found
      -- Two derivations that end there would be two readings.
      have alsoAtEnd := find?_some found
      obtain ⟨one, other, first, second, differ⟩ :=
        listed.counts _ (mem_of_find?_eq_some found)
      exact absurd ((unique one ⟨last, first, alsoAtEnd⟩).trans
        (unique other ⟨last, second, alsoAtEnd⟩).symm) differ
    · rename_i missing
      have := find?_eq_none.mp missing ending member
      exact absurd atEnd this

theorem derive_eq_ambiguous {one other : Derivation} (first : Reading text one)
    (second : Reading text other) (differ : one ≠ other) : derive text = .error .ambiguous := by
  have notOne : ∀ derivation, derive text ≠ .ok derivation := by
    intro derivation given
    have unique := (derive_eq_ok.mp given).2
    exact differ ((unique one first).trans (unique other second).symm)
  obtain ⟨there, derived, atEnd⟩ := first
  obtain ⟨ending, member, rfl⟩ := (lists_program text).complete one there derived
  simp only [derive] at notOne ⊢
  split at notOne
  · exact absurd rfl (notOne _)
  · rfl
  · rename_i missing
    exact absurd atEnd (find?_eq_none.mp missing ending member)

/-- A text is parsed to the tree of its only derivation, if no token contains the ambiguity mark. -/
theorem parse_eq_ok {tree : Tree} :
    parse text = .ok tree ↔ ∃ derivation, derive text = .ok derivation ∧
      (∀ token ∈ derivation.tokens, containsWord ambiguityMark token.text = false) ∧
        derivation.trees false = [tree] := by
  rw [parse]
  cases derived : derive text with
  | error error => simp [bind, Except.bind]
  | ok derivation =>
    obtain ⟨⟨_, reading, _⟩, _⟩ := derive_eq_ok.mp derived
    cases reading with
    | @phrase _ _ body _ _ =>
      -- A program is always shown as one node.
      have single : (Derivation.phrase .program body).trees false =
          [.node .program (body.trees false)] := rfl
      by_cases marked : (Derivation.phrase .program body).tokens.any
          (containsWord ambiguityMark ·.text) = true
      · obtain ⟨token, inside, found⟩ := any_eq_true.mp marked
        simp only [bind, Except.bind, if_pos marked]
        constructor
        · intro failed
          cases failed
        · rintro ⟨_, same, clean, _⟩
          cases same
          rw [clean token inside] at found
          cases found
      · have clean : ∀ token ∈ (Derivation.phrase .program body).tokens,
            containsWord ambiguityMark token.text = false := by
          simpa using marked
        simp only [bind, Except.bind, if_neg marked, single, pure, Except.pure]
        constructor
        · intro shown
          cases shown
          exact ⟨_, rfl, clean, single⟩
        · rintro ⟨_, same, _, shown⟩
          cases same
          rw [single] at shown
          cases shown
          rfl

theorem exists_reading {tree : Tree} (parsed : parse text = .ok tree) :
    ∃ derivation, Reading text derivation ∧ derivation.trees false = [tree] := by
  obtain ⟨derivation, derived, _, shown⟩ := parse_eq_ok.mp parsed
  exact ⟨derivation, (derive_eq_ok.mp derived).1, shown⟩

end LeftHand
