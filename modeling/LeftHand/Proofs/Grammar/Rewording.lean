import LeftHand.Proofs.Grammar.Transplant
import LeftHand.Proofs.Source.Literals
import LeftHand.Proofs.Text.Quotes

/-! What a string holds does not matter to the parser, unless it is the mark of ambiguity. -/

namespace LeftHand

open List

namespace Token

/-- A token of a text in which a string gets other contents: the string itself holds them, and what
stands behind it moves. -/
def reworded (string : Token) (body : List Char) (token : Token) : Token :=
  if token.place < string.place then token
  else if token.place = string.place then { token with text := quotedWord body }
  else { token with place := token.place + (quotedWord body).length - string.text.length }

/-- A text with other contents of one of its strings. -/
def rewordIn (string : Token) (body text : List Char) : List Char :=
  text.take string.place ++ (quotedWord body ++ text.drop string.stop)

theorem kind_reworded (string : Token) (body : List Char) (token : Token) :
    (string.reworded body token).kind = token.kind := by
  rw [reworded]
  split
  · rfl
  · split <;> rfl

theorem rewordIn_eq (kind : Terminal) (front piece rest body : List Char) :
    rewordIn ⟨kind, piece, front.length⟩ body (front ++ (piece ++ rest)) =
      front ++ (quotedWord body ++ rest) := by
  change (front ++ (piece ++ rest)).take front.length ++ (quotedWord body ++
    (front ++ (piece ++ rest)).drop (front.length + piece.length)) = _
  rw [take_left, ← append_assoc front piece rest, ← length_append, drop_left]

theorem text_reworded (string : Token) (body : List Char) (token : Token) :
    (string.reworded body token).text = token.text ∨
      (string.reworded body token).text = quotedWord body := by
  rw [reworded]
  split
  · exact .inl rfl
  · split
    · exact .inr rfl
    · exact .inl rfl

end Token

section Pieces

variable {kind : Terminal} {before : Option Char} {piece rest text left body : List Char}

theorem count_quotedWord (inside : body.all isInside = true) : (quotedWord body).count '`' = 2 := by
  have absent : body.count '`' = 0 := count_eq_zero.mpr fun member =>
    absurd (all_eq_true.mp inside _ member) (by decide)
  simp [quotedWord, absent]

theorem tick_not_mem_gap (isGap : text.all Cursor.isGap = true) : '`' ∉ text := fun member =>
  absurd (all_eq_true.mp isGap _ member) (by decide)

theorem count_of_take? (taken : kind.spelling.take? before text = some (piece, rest)) :
    piece.count '`' = 0 ∨ piece.count '`' = 2 ∧ piece.head? = some '`' := by
  rcases Terminal.take?_cases taken with ⟨_, body, inside, rfl⟩ | ⟨_, typed⟩
  · exact .inr ⟨count_quotedWord inside, rfl⟩
  · exact .inl (count_eq_zero.mpr fun member =>
      absurd (all_eq_true.mp typed _ member) (by decide))

theorem isPaired_of_take? (taken : kind.spelling.take? before text = some (piece, rest)) :
    IsPaired piece := by
  rw [IsPaired]
  rcases count_of_take? taken with none | ⟨two, _⟩ <;> omega

/-- A token that starts before a string, where no string is open, ends before it. -/
theorem exists_left_of_paired (taken : kind.spelling.take? before (piece ++ rest) = some (piece, rest))
    (paired : IsPaired left) (filled : left ≠ []) (cut : piece ++ rest = left ++ '`' :: text) :
    ∃ more, left = piece ++ more ∧ rest = more ++ '`' :: text := by
  rcases append_eq_append_iff.mp cut with ⟨more, rfl, rfl⟩ | ⟨beyond, rfl, behind⟩
  · exact ⟨more, rfl, rfl⟩
  · cases beyond with
    | nil => exact ⟨[], by simp, behind.symm⟩
    | cons c beyond =>
      obtain ⟨rfl, -⟩ := List.cons.inj behind
      -- The token would be a string that starts at the first backtick of a pair and goes on behind it.
      rcases count_of_take? taken with none | ⟨two, starts⟩
      · simp at none
      · rw [head?_append_of_ne_nil _ filled] at starts
        have opened := count_pos_iff.mpr (mem_of_mem_head? starts)
        rw [count_append, count_cons_self] at two
        have even : left.count '`' % 2 = 0 := paired
        omega

end Pieces

/-- Places of two texts that differ in the contents of a string: before the string, where no other
string is open, or as far behind it. -/
inductive Cursor.Rewords (string : Nat) (old new out : List Char) : Cursor → Cursor → Prop where
  | ahead {place : Nat} {last : Option Char} {left : List Char} (paired : IsPaired left)
      (faces : place + left.length = string) :
      Rewords string old new out ⟨place, last, left ++ (quotedWord old ++ out)⟩
        ⟨place, last, left ++ (quotedWord new ++ out)⟩
  | behind {place other : Nat} {last : Option Char} {rest : List Char}
      (far : string + old.length < place) (shift : place + new.length = other + old.length) :
      Rewords string old new out ⟨place, last, rest⟩ ⟨other, last, rest⟩

section Places

variable {string : Nat} {old new out : List Char} {here there next last : Cursor} {kind : Terminal}
  {token : Token} {form : Form} {derivation : Derivation}

/-- The change of tokens that goes with other contents of a string. -/
abbrev rewording (string : Nat) (old new : List Char) : Token → Token :=
  Token.reworded ⟨.string, quotedWord old, string⟩ new

theorem rewording_ahead (before : token.place < string) : rewording string old new token = token :=
  if_pos before

theorem rewording_string {text : List Char} :
    rewording string old new ⟨kind, text, string⟩ = ⟨kind, quotedWord new, string⟩ := by
  rw [rewording, Token.reworded, if_neg (Nat.lt_irrefl _), if_pos rfl]

theorem rewording_behind {place other : Nat} {text : List Char} (far : string + old.length < place)
    (shift : place + new.length = other + old.length) :
    rewording string old new ⟨kind, text, place⟩ = ⟨kind, text, other⟩ := by
  have moved : place + (new.length + 2) - (old.length + 2) = other := by omega
  rw [rewording, Token.reworded, if_neg (by simp; omega), if_neg (by simp; omega)]
  simp [quotedWord, moved]

theorem getLast?_quotedWord (body : List Char) : (quotedWord body).getLast? = some '`' :=
  getLast?_concat ..

theorem Cursor.take?_string {place : Nat} {last : Option Char} {gap : List Char}
    (isGap : gap.all isGap = true) (inside : old.all isInside = true) :
    Cursor.take? ⟨place, last, gap ++ (quotedWord old ++ out)⟩ .string =
      some (⟨.string, quotedWord old, place + gap.length⟩,
        ⟨place + gap.length + (old.length + 2), some '`', out⟩) := by
  refine take?_iff.mpr ⟨gap, quotedWord old, out, isGap, rfl, ?_, rfl, ?_⟩
  · exact take?_quoted.mpr ⟨old, inside, rfl, rfl⟩
  · rw [getLast?_quotedWord]
    simp [quotedWord]

/-- A token is taken with the other contents, too, and gives the first one if they are changed
back. -/
theorem Cursor.Rewords.take (alike : Rewords string old new out here there)
    (inside : old.all isInside = true) (also : new.all isInside = true)
    (taken : here.take? kind = some (token, next)) :
    ∃ found last, there.take? kind = some (found, last) ∧
      (found = rewording string old new token ∧ rewording string new old found = token) ∧
        Rewords string old new out next last := by
  cases alike with
  | @behind place other last rest far shift =>
    -- Behind the string both texts go on alike, only farther to the right.
    obtain ⟨gap, piece, rest, isGap, cut, found, rfl, rfl⟩ := take?_iff.mp taken
    have farther : string + old.length < place + gap.length := by omega
    have moved : place + gap.length + new.length = other + gap.length + old.length := by omega
    have back : string + new.length < other + gap.length := by omega
    exact ⟨_, _, take?_iff.mpr ⟨gap, piece, rest, isGap, cut, found, rfl, rfl⟩,
      ⟨(rewording_behind farther moved).symm, rewording_behind back moved.symm⟩,
      .behind (show _ < place + gap.length + piece.length by omega)
        (show place + gap.length + piece.length + _ = other + gap.length + piece.length + _ by omega)⟩
  | @ahead place last left paired faces =>
    obtain ⟨gap, piece, rest, isGap, cut, found, tokenIs, nextIs⟩ := take?_iff.mp taken
    -- A gap ends at the string, at the latest.
    have foreign : ∀ c, (quotedWord old ++ out).head? = some c → c ∉ gap := by
      rintro _ ⟨⟩
      exact tick_not_mem_gap isGap
    obtain ⟨left, rfl, behind⟩ := (append_eq_append_of_head foreign).mp cut
    by_cases reached : left = []
    · -- The string is what is taken.
      subst reached
      simp only [List.append_nil, nil_append] at faces behind taken ⊢
      subst faces
      -- Nothing but a string is taken at a backtick.
      have isString : kind = .string := by
        rcases Terminal.take?_cases found with ⟨isString, _⟩ | ⟨filled, typed⟩
        · exact isString
        · cases piece with
          | nil => exact absurd rfl filled
          | cons c piece =>
            obtain ⟨rfl, -⟩ := List.cons.inj behind
            exact absurd (all_eq_true.mp typed _ mem_cons_self) (by decide)
      subst isString
      obtain ⟨rfl, rfl⟩ := Prod.mk.inj (Option.some.inj (taken.symm.trans (take?_string isGap inside)))
      exact ⟨_, _, take?_string isGap also, ⟨(rewording_string ..).symm, rewording_string ..⟩,
        .behind (by omega) (by omega)⟩
    · -- The token stands before the string, and at its start a terminal sees a backtick in both texts.
      subst tokenIs nextIs
      have whole : IsPaired left :=
        (isPaired_append (isPaired_of_not_mem (tick_not_mem_gap isGap))).mp paired
      obtain ⟨more, rfl, rfl⟩ := exists_left_of_paired found whole reached behind
      have alike : LooksAlike (quotedWord old ++ out) (quotedWord new ++ out) := ⟨rfl, rfl, rfl⟩
      have before : place + gap.length < string := by
        have filled := length_pos_iff.mpr reached
        rw [length_append] at faces
        omega
      refine ⟨_, _, take?_iff.mpr ⟨gap, piece, more ++ (quotedWord new ++ out), isGap, by simp,
        take?_of_looksAlike found (alike.append more), rfl, rfl⟩,
        ⟨(rewording_ahead before).symm, rewording_ahead before⟩, ?_⟩
      refine .ahead ((isPaired_append (isPaired_of_take? found)).mp whole) ?_
      simp only [length_append] at faces
      show place + gap.length + piece.length + more.length = string
      omega

theorem Derives.reworded (derived : Derives form here derivation there)
    (alike : here.Rewords string old new out next) (inside : old.all isInside = true)
    (also : new.all isInside = true) :
    ∃ last, Derives form next (derivation.mapTokens (rewording string old new)) last ∧
      there.Rewords string old new out last ∧
        (derivation.mapTokens (rewording string old new)).mapTokens (rewording string new old) =
          derivation := by
  obtain ⟨again, last, found, onward, same⟩ := derived.simulates
    (Cursor.Rewords string old new out) alike .refl fun alike taken _ => alike.take inside also taken
  have forth := same (rewording string old new) id fun _ _ image => image.1.symm
  have back := same id (rewording string new old) fun _ _ image => image.2.symm
  rw [Derivation.mapTokens_id] at forth back
  rw [forth]
  exact ⟨last, found, onward, back.symm⟩

end Places

section Texts

variable {front old new out text : List Char} {derivation : Derivation}

theorem Reading.reworded (reading : Reading (front ++ (quotedWord old ++ out)) derivation)
    (paired : IsPaired front) (inside : old.all isInside = true) (also : new.all isInside = true) :
    Reading (front ++ (quotedWord new ++ out)) (derivation.mapTokens (rewording front.length old new)) ∧
      (derivation.mapTokens (rewording front.length old new)).mapTokens
        (rewording front.length new old) = derivation := by
  obtain ⟨there, derived, ends⟩ := reading
  obtain ⟨last, again, alike, back⟩ := derived.reworded
    (.ahead paired (Nat.zero_add _) : (Cursor.start _).Rewords front.length old new out (.start _))
    inside also
  refine ⟨⟨last, again, ?_⟩, back⟩
  cases alike with
  | behind => exact ends
  | @ahead _ _ left =>
    -- A string is no gap.
    have tick : '`' ∈ left ++ (quotedWord old ++ out) := by simp [quotedWord]
    exact absurd tick (tick_not_mem_gap ends)

theorem derive_reworded (derived : derive (front ++ (quotedWord old ++ out)) = .ok derivation)
    (paired : IsPaired front) (inside : old.all isInside = true) (also : new.all isInside = true) :
    derive (front ++ (quotedWord new ++ out)) =
      .ok (derivation.mapTokens (rewording front.length old new)) := by
  obtain ⟨reading, unique⟩ := derive_eq_ok.mp derived
  refine derive_eq_ok.mpr ⟨(reading.reworded paired inside also).1, ?_⟩
  intro other found
  -- Another reading would be another one of the first text.
  obtain ⟨again, back⟩ := found.reworded paired also inside
  rw [unique _ again] at back
  exact back.symm

theorem Lexes.exists_front {here there : Cursor} {tokens : List Token} {token : Token}
    (lexes : Lexes here tokens there) (member : token ∈ tokens) :
    ∃ front rest, here.rest = front ++ (token.text ++ rest) ∧ IsPaired front ∧
      token.place = here.place + front.length := by
  induction lexes with
  | done => cases member
  | @token here next there kind first tokens taken _ ih =>
    obtain ⟨gap, piece, rest, isGap, cut, found, rfl, rfl⟩ := Cursor.take?_iff.mp taken
    have none : IsPaired gap := isPaired_of_not_mem (tick_not_mem_gap isGap)
    rcases mem_cons.mp member with rfl | later
    · exact ⟨gap, rest, cut, none, rfl⟩
    · -- Neither the gap nor the first token leaves a string open.
      obtain ⟨front, behind, onward, paired, place⟩ := ih later
      refine ⟨gap ++ (piece ++ front), behind, ?_, ?_, ?_⟩
      · rw [cut, show rest = _ from onward]
        simp
      · rwa [isPaired_append none, isPaired_append (isPaired_of_take? found)]
      · rw [place]
        simp [Nat.add_assoc]

end Texts

section Accepted

variable {text body : List Char} {tree : Tree} {string : Token} {derivation : Derivation}

/-- A string of a parse tree is a string of the text, and no other string is open before it. -/
theorem exists_string (derived : derive text = .ok derivation) (shown : derivation.trees false = [tree])
    (member : string ∈ tree.leaves) (isString : string.kind = .string) :
    ∃ front old rest, text = front ++ (quotedWord old ++ rest) ∧ IsPaired front ∧
      old.all isInside = true ∧ string = ⟨.string, quotedWord old, front.length⟩ ∧
        string ∈ derivation.tokens := by
  obtain ⟨⟨there, reading, _⟩, _⟩ := derive_eq_ok.mp derived
  have among := Derivation.mem_tokens shown member
  obtain ⟨front, rest, cut, paired, place⟩ := reading.lexes.exists_front among
  obtain ⟨before, around, after, taken⟩ := reading.lexes.isSpelled string among
  obtain ⟨kind, word, start⟩ := string
  obtain rfl : kind = .string := isString
  obtain ⟨old, inside, spelled, _⟩ := take?_quoted.mp taken
  obtain rfl : word = quotedWord old := spelled
  obtain rfl : start = front.length := place.trans (Nat.zero_add _)
  exact ⟨front, old, rest, cut, paired, inside, rfl, among⟩

/-- A token with the ambiguity mark spoils a text that has a single derivation. -/
theorem parse_eq_ambiguous (derived : derive text = .ok derivation)
    (marked : ∃ token ∈ derivation.tokens, containsWord ambiguityMark token.text = true) :
    parse text = .error .ambiguous := by
  have found : derivation.tokens.any (containsWord ambiguityMark ·.text) = true :=
    any_eq_true.mpr marked
  rw [parse, derived]
  simp only [bind, Except.bind, found]
  rfl

/-- The contents of a string are opaque to the parser: with any other contents the text is accepted,
too, and its parse tree is the same but for the string and the columns behind it, unless they hold
the ambiguity mark. Then the text counts as ambiguous. -/
theorem parse_rewordIn (accepted : parse text = .ok tree) (member : string ∈ tree.leaves)
    (isString : string.kind = .string) (noTick : '`' ∉ body) (oneLine : '\n' ∉ body) :
    parse (string.rewordIn body text) =
      if containsWord ambiguityMark body = true then .error .ambiguous
      else .ok (tree.mapTokens (string.reworded body)) := by
  obtain ⟨derivation, derived, clean, shown⟩ := parse_eq_ok.mp accepted
  obtain ⟨front, old, rest, rfl, paired, inside, rfl, among⟩ :=
    exists_string derived shown member isString
  have also : body.all isInside = true := all_eq_true.mpr fun c within => by
    have other : c ≠ '`' := fun same => noTick (same ▸ within)
    have onLine : c ≠ '\n' := fun same => oneLine (same ▸ within)
    simp [isInside, other, onLine]
  have again := derive_reworded derived paired inside also
  rw [Token.rewordIn_eq]
  split
  · rename_i marked
    -- The string itself has the mark.
    refine parse_eq_ambiguous again ⟨⟨.string, quotedWord body, front.length⟩, ?_, ?_⟩
    · rw [Derivation.tokens_mapTokens]
      exact mem_map.mpr ⟨_, among, rewording_string⟩
    · rwa [containsWord_quotedWord]
  · rename_i unmarked
    refine parse_eq_ok.mpr ⟨_, again, ?_, ?_⟩
    · -- Every other token has the text that it had.
      intro token member
      rw [Derivation.tokens_mapTokens] at member
      obtain ⟨original, found, rfl⟩ := mem_map.mp member
      rcases Token.text_reworded ⟨.string, quotedWord old, front.length⟩ body original with same | other
      · rw [same]
        exact clean original found
      · rw [other, containsWord_quotedWord]
        simpa using unmarked
    · rw [derivation.trees_mapTokens (Token.kind_reworded _ _), shown, map_singleton]

/-- With marks and a keyword in the string the program is accepted, and the end of its block
moves. -/
theorem parse_rewordIn_calling :
    let string : Token := ⟨.string, "`Hi, you $`".toList, 21⟩
    let body := "exec f %e!s".toList
    ∃ tree, parse calling = .ok tree ∧ string ∈ tree.leaves ∧
      string.rewordIn body calling = "def v@1d f%s exec f%e`exec f %e!s`!e$\t!s".toList ∧
        parse (string.rewordIn body calling) = .ok (tree.mapTokens (string.reworded body)) ∧
          string.reworded body ⟨.scopeEnd, ['!', 's'], 36⟩ = ⟨.scopeEnd, ['!', 's'], 38⟩ := by
  intro string body
  obtain ⟨tree, parsed, leaves⟩ := exists_parse_calling
  have member : string ∈ tree.leaves := by
    rw [leaves]
    decide
  have again := parse_rewordIn parsed member rfl (show '`' ∉ body by decide) (by decide)
  rw [if_neg (by decide)] at again
  exact ⟨tree, parsed, member, by decide, again, by decide⟩

/-- A program with a string of one letter is accepted, but with the ambiguity mark in its place it
is not. -/
theorem not_parse_marked :
    let string : Token := ⟨.string, "`x`".toList, 14⟩
    let text := "def v@1d f %s `x`$ !s".toList
    let marked := "def v@1d f %s `_ambig`$ !s".toList
    (∃ tree, parse text = .ok tree ∧ string ∈ tree.leaves) ∧
      string.rewordIn "_ambig".toList text = marked ∧ parse marked = .error .ambiguous := by
  intro string text marked
  refine ⟨exists_ok_of_any (by decide +kernel), by decide, ?_⟩
  obtain ⟨derivation, derived, found⟩ : ∃ derivation, derive marked = .ok derivation ∧
      ∃ token ∈ derivation.tokens, containsWord ambiguityMark token.text = true :=
    exists_ok_of_any (by decide +kernel)
  exact parse_eq_ambiguous derived found

end Accepted

end LeftHand
