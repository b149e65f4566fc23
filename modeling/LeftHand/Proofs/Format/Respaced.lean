import LeftHand.Proofs.Format.Laid
import LeftHand.Proofs.Grammar.Simulation

/-! Texts of the same chunks with other gaps between them. -/

namespace LeftHand

open List

/-- How a chunk may stand behind another one with either of two gaps between them. -/
structure ChunkRefits (prev gap other chunk : List Char) : Prop where
  isGap : gap.all Cursor.isGap = true
  otherIsGap : other.all Cursor.isGap = true
  isChunk : IsRun chunk ∨ IsMark chunk
  /-- Without a gap a run ends at a mark, and so does `%%`. -/
  parted : gap = [] ∨ other = [] → IsRun prev ∨ prev = ['%', '%'] → IsMark chunk
  /-- The chunk is joined to what stands before in both texts or in neither, if that matters to
  it. -/
  alike : (gap.isEmpty && prev.getLast?.any isJoining) = (other.isEmpty && prev.getLast?.any isJoining) ∨
    chunk ∉ apartWords

/-- Two texts behind a chunk, cut into the same chunks. -/
inductive Respaced : (prev one other : List Char) → Prop where
  | done {prev gap other : List Char} (isGap : gap.all Cursor.isGap = true)
      (otherIsGap : other.all Cursor.isGap = true) : Respaced prev gap other
  | chunk {prev gap other chunk rest more : List Char} (fits : ChunkRefits prev gap other chunk)
      (onward : Respaced chunk rest more) :
      Respaced prev (gap ++ (chunk ++ rest)) (other ++ (chunk ++ more))

section Chunks

variable {prev one other run again mark gap rest more piece left : List Char}
  {before behind : Option Char} {kind : Terminal}

theorem ChunkRefits.symm (fits : ChunkRefits prev gap other mark) : ChunkRefits prev other gap mark :=
  ⟨fits.otherIsGap, fits.isGap, fits.isChunk, fun empty => fits.parted empty.symm,
    fits.alike.imp Eq.symm id⟩

theorem Respaced.symm (respaced : Respaced prev one other) : Respaced prev other one := by
  induction respaced with
  | done isGap otherIsGap => exact .done otherIsGap isGap
  | chunk fits _ ih => exact .chunk fits.symm ih

theorem Respaced.startsApart (respaced : Respaced prev one other)
    (ends : IsRun prev ∨ prev = ['%', '%']) : StartsApart one := by
  cases respaced with
  | done isGap _ => exact startsApart_of_all isGap
  | @chunk _ gap other chunk _ _ fits _ =>
    by_cases empty : gap = []
    · rw [empty]
      exact (fits.parted (.inl empty) ends).startsApart
    · exact startsApart_of_isGap fits.isGap empty

theorem Respaced.of_run (respaced : Respaced run one other) (isRun : IsRun run) (also : IsRun again) :
    Respaced again one other := by
  cases respaced with
  | done isGap otherIsGap => exact .done isGap otherIsGap
  | chunk fits onward =>
    refine .chunk ⟨fits.isGap, fits.otherIsGap, fits.isChunk, fun empty _ =>
      fits.parted empty (.inl isRun), ?_⟩ onward
    -- Every run ends with a character that joins.
    have alike := fits.alike
    rw [isRun.any_getLast?] at alike
    rwa [also.any_getLast?]

theorem isSolid_of_isChunk (isChunk : IsRun piece ∨ IsMark piece) : IsSolid piece := by
  rcases isChunk with isRun | isMark
  · exact .inl ⟨isRun.1, all_eq_true.mpr fun c inside =>
      isLeftHand_of_isNameChar (all_eq_true.mp isRun.2 c inside)⟩
  · cases isMark with
    | fixed member =>
      have known : ∀ mark ∈ fixedMarks, (!mark.isEmpty && mark.all isLeftHand) = true := by decide
      exact isSolid_of_typed (known piece member)
    | @number digits _ digital =>
      have typed : digits.all isLeftHand = true := all_eq_true.mpr fun c inside =>
        isLeftHand_of_isNumeral (all_eq_true.mp digital c inside)
      refine .inl ⟨cons_ne_nil _ _, ?_⟩
      simp only [cons_append, all_cons, all_append, typed]
      decide
    | quoted inside => exact .inr ⟨_, inside, rfl⟩

theorem head?_isGap_of_isChunk (isChunk : IsRun piece ∨ IsMark piece) :
    (piece ++ rest).head?.any Cursor.isGap = false :=
  (isSolid_of_isChunk isChunk).head?_isGap rest

/-- A mark is taken wherever it stands, unless it must stand apart. -/
theorem IsMark.take?_other (isMark : IsMark mark)
    (taken : kind.spelling.take? before (mark ++ rest) = some (mark, rest))
    (alike : before.any isJoining = behind.any isJoining ∨ mark ∉ apartWords)
    (apart : mark = ['%', '%'] → StartsApart more) :
    kind.spelling.take? behind (mark ++ more) = some (mark, more) := by
  generalize spelled : kind.spelling = spelling at taken ⊢
  cases spelling with
  | plain word =>
    obtain ⟨rfl, _⟩ := take?_plain.mp taken
    exact take?_plain.mpr ⟨rfl, rfl⟩
  | apart words =>
    have clear := kind.clear_words spelled
    have among := mem_apartWords spelled
    obtain ⟨alone, member, _, _⟩ := (take?_apart clear).mp taken
    -- The mark is `%%`, so it stands apart in the other text, too.
    have joins := alike.resolve_right (absurd (among mark member))
    have starts := apart (eq_percent_of_mem_apartWords (among mark member) isMark)
    refine (take?_apart clear).mpr ⟨joins ▸ alone, member, rfl, ?_⟩
    cases more with
    | nil => rfl
    | cons c more => exact (isBreak_facts (starts c rfl)).1
  | number =>
    obtain ⟨digits, filled, digital, rfl, _⟩ := take?_number.mp taken
    exact take?_number.mpr ⟨digits, filled, digital, rfl, rfl⟩
  | quoted =>
    obtain ⟨body, inside, rfl, _⟩ := take?_quoted.mp taken
    exact take?_quoted.mpr ⟨body, inside, rfl, rfl⟩
  | name =>
    obtain ⟨⟨first, more, rfl, letter, named⟩, _⟩ := take?_name.mp taken
    exact absurd isMark (isRun_of_name letter named).not_isMark

theorem IsRun.take?_other (isRun : IsRun run)
    (taken : kind.spelling.take? before run = some (piece, left))
    (alike : before.any isJoining = behind.any isJoining ∨ run ∉ apartWords) :
    kind.spelling.take? behind run = some (piece, left) := by
  rcases alike with same | free
  · rwa [← take?_before same]
  · cases spelled : kind.spelling with
    | apart words =>
      -- A word that must stand apart would be the whole run.
      have among := mem_apartWords spelled
      rw [spelled] at taken
      obtain ⟨_, member, rfl, ends⟩ := of_take?_apart taken
      cases left with
      | nil => exact absurd (among piece member) (by simpa using free)
      | cons c left =>
        have named := all_eq_true.mp isRun.2 c (by simp)
        rw [head?_cons, Option.any_some, isJoining_of_isNameChar named] at ends
        cases ends
    | _ =>
      rw [spelled] at taken
      exact taken

end Chunks

namespace Cursor

section Matching

variable {here there next : Cursor} {gap text : List Char} {kind : Terminal} {token : Token}

theorem take?_behind (all : gap.all isGap = true) (solid : text.head?.any isGap = false)
    (cut : here.rest = gap ++ text) : here.take? kind = some (token, next) ↔
      ∃ piece rest, kind.spelling.take? (gap.getLast?.or here.before) text = some (piece, rest) ∧
        token = ⟨kind, piece, here.place + gap.length⟩ ∧
          next = ⟨here.place + gap.length + piece.length, piece.getLast?, rest⟩ := by
  have skipped := takeWhile_eq_and_dropWhile_eq.mpr ⟨cut, all, solid⟩
  rw [take?_iff]
  constructor
  · rintro ⟨found, piece, rest, isGap, again, taken, rfl, rfl⟩
    -- There is one way only to cut off a gap.
    have also := takeWhile_eq_and_dropWhile_eq.mpr ⟨again, isGap, head?_of_take? taken⟩
    obtain rfl := skipped.1.symm.trans also.1
    obtain rfl := skipped.2.symm.trans also.2
    exact ⟨piece, rest, taken, rfl, rfl⟩
  · rintro ⟨piece, rest, taken, rfl, rfl⟩
    obtain rfl := take?_append taken
    exact ⟨gap, piece, rest, all, cut, taken, rfl, rfl⟩

/-- Places of two texts from which both go on with the same chunks, or with the same part of a
run. -/
inductive Matches (here there : Cursor) : Prop where
  | between {prev : List Char} (joins : here.before.any isJoining = prev.getLast?.any isJoining)
      (also : there.before.any isJoining = prev.getLast?.any isJoining)
      (respaced : Respaced prev here.rest there.rest)
  | inside {run rest more : List Char} (isRun : IsRun run) (cut : here.rest = run ++ rest)
      (again : there.rest = run ++ more)
      (joins : here.before.any isJoining = there.before.any isJoining)
      (respaced : Respaced run rest more)

theorem Matches.behind_run {run piece left rest more : List Char} {before : Option Char}
    (isRun : IsRun run) (taken : kind.spelling.take? before run = some (piece, left))
    (respaced : Respaced run rest more) (place other : Nat) :
    Matches ⟨place, piece.getLast?, left ++ rest⟩ ⟨other, piece.getLast?, left ++ more⟩ := by
  obtain rfl := take?_append taken
  -- At the end of the run it is the chunk that stands before; inside of it the rest of it goes on.
  by_cases empty : left = []
  · subst empty
    rw [List.append_nil] at respaced
    exact .between rfl rfl respaced
  · have named : left.all isNameChar = true := by
      have all := isRun.2
      rw [all_append, Bool.and_eq_true] at all
      exact all.2
    exact .inside ⟨empty, named⟩ rfl rfl rfl (respaced.of_run isRun ⟨empty, named⟩)

/-- From matching places the same tokens can be taken. -/
theorem Matches.take (alike : here.Matches there) (taken : here.take? kind = some (token, next)) :
    ∃ other after, there.take? kind = some (other, after) ∧ other.unplaced = token.unplaced ∧
      next.Matches after := by
  cases alike with
  | @inside run rest more isRun cut again joins respaced =>
    have solid : ∀ {out : List Char}, (run ++ out).head?.any isGap = false :=
      head?_isGap_of_isChunk (.inl isRun)
    -- The run goes on at once, without a gap.
    have cut : here.rest = [] ++ (run ++ rest) := cut
    have again : there.rest = [] ++ (run ++ more) := again
    obtain ⟨piece, out, found, rfl, rfl⟩ := (take?_behind rfl solid cut).mp taken
    obtain ⟨left, part, rfl⟩ := (take?_run_iff isRun (respaced.startsApart (.inl isRun))).mp found
    have other := (take?_run_iff isRun (respaced.symm.startsApart (.inl isRun))).mpr
      ⟨left, isRun.take?_other part (.inl joins), rfl⟩
    exact ⟨_, _, (take?_behind rfl solid again).mpr ⟨piece, _, other, rfl, rfl⟩, rfl,
      .behind_run isRun part respaced _ _⟩
  | @between prev joins also respaced =>
    generalize cut : here.rest = one at respaced
    generalize again : there.rest = two at respaced
    cases respaced with
    | done isGap _ =>
      -- Nothing can be taken from a gap.
      obtain ⟨gap, piece, rest, _, whole, found, _, _⟩ := take?_iff.mp taken
      obtain ⟨last, ends, solid⟩ := exists_last found
      have inside : last ∈ here.rest := by
        rw [whole]
        exact mem_append_right _ (mem_append_left _ (mem_of_getLast? ends))
      rw [cut] at inside
      rw [all_eq_true.mp isGap last inside] at solid
      cases solid
    | @chunk _ gap other chunk rest more fits onward =>
      have solid : ∀ {out : List Char}, (chunk ++ out).head?.any isGap = false :=
        head?_isGap_of_isChunk fits.isChunk
      have alike : (gap.getLast?.or here.before).any isJoining =
          (other.getLast?.or there.before).any isJoining ∨ chunk ∉ apartWords := by
        rw [any_isJoining_behind fits.isGap, any_isJoining_behind fits.otherIsGap, joins, also]
        exact fits.alike
      obtain ⟨piece, out, found, rfl, rfl⟩ := (take?_behind fits.isGap solid cut).mp taken
      rcases fits.isChunk with isRun | isMark
      · obtain ⟨left, part, rfl⟩ := (take?_run_iff isRun (onward.startsApart (.inl isRun))).mp found
        have other := (take?_run_iff isRun (onward.symm.startsApart (.inl isRun))).mpr
          ⟨left, isRun.take?_other part alike, rfl⟩
        exact ⟨_, _, (take?_behind fits.otherIsGap solid again).mpr ⟨piece, _, other, rfl, rfl⟩, rfl,
          .behind_run isRun part onward _ _⟩
      · obtain ⟨rfl, rfl⟩ := isMark.eq_of_take? found
        have other := isMark.take?_other found alike fun percent =>
          onward.symm.startsApart (.inr percent)
        exact ⟨_, _, (take?_behind fits.otherIsGap solid again).mpr ⟨piece, _, other, rfl, rfl⟩, rfl,
          .between rfl rfl onward⟩

theorem Matches.isAtEnd (alike : here.Matches there) (ends : here.isAtEnd = true) :
    there.isAtEnd = true := by
  -- A chunk would not be part of a gap.
  have absurd_of_head {text : List Char} (all : text.all isGap = true) (filled : text ≠ [])
      (solid : text.head?.any isGap = false) : False := by
    cases text with
    | nil => exact filled rfl
    | cons c text =>
      rw [head?_cons, Option.any_some, all_eq_true.mp all c mem_cons_self] at solid
      cases solid
  rw [Cursor.isAtEnd] at ends ⊢
  cases alike with
  | @inside run rest more isRun cut =>
    rw [cut] at ends
    exact (absurd_of_head ends (by simp [isRun.1]) (head?_isGap_of_isChunk (.inl isRun))).elim
  | @between prev joins also respaced =>
    generalize here.rest = one at respaced ends
    generalize there.rest = two at respaced
    cases respaced with
    | done _ otherIsGap => exact otherIsGap
    | @chunk _ gap other chunk rest more fits onward =>
      have solid : (chunk ++ rest).head?.any isGap = false := head?_isGap_of_isChunk fits.isChunk
      have filled : chunk ++ rest ≠ [] := by
        rcases fits.isChunk with isRun | isMark
        · simp [isRun.1]
        · obtain ⟨c, more, rfl, _⟩ := isMark.head?
          exact cons_ne_nil _ _
      rw [all_append, Bool.and_eq_true] at ends
      exact (absurd_of_head ends.2 filled solid).elim

end Matching

end Cursor

/-- A derivation without the places of its tokens. -/
def Derivation.unplaced : Derivation → Derivation
  | empty => empty
  | token taken => token taken.unplaced
  | phrase rule body => phrase rule body.unplaced
  | seq first second => seq first.unplaced second.unplaced
  | left chosen => left chosen.unplaced
  | right chosen => right chosen.unplaced

section Derivations

variable {form other : Form} {here there next last : Cursor} {derivation one two : Derivation}

theorem Derivation.unplaced_eq (derivation : Derivation) :
    derivation.unplaced = derivation.mapTokens Token.unplaced := by
  induction derivation with
  | empty | token => rfl
  | phrase _ _ ih | left _ ih | right _ ih => rw [unplaced, mapTokens, ih]
  | seq _ _ before behind => rw [unplaced, mapTokens, before, behind]

mutual

theorem Tree.unplaced_eq (tree : Tree) : tree.unplaced = tree.mapTokens Token.unplaced := by
  cases tree with
  | leaf => rfl
  | node rule children => rw [unplaced, mapTokens, Tree.unplacedAll_eq]

theorem Tree.unplacedAll_eq (trees : List Tree) :
    Tree.unplacedAll trees = Tree.mapTokensAll Token.unplaced trees := by
  cases trees with
  | nil => rfl
  | cons tree trees =>
    rw [Tree.unplacedAll, Tree.mapTokensAll, Tree.unplaced_eq tree, Tree.unplacedAll_eq trees]

end

theorem Derivation.tokens_unplaced (derivation : Derivation) :
    derivation.unplaced.tokens = derivation.tokens.map Token.unplaced := by
  rw [unplaced_eq, tokens_mapTokens]

theorem Derivation.trees_unplaced (derivation : Derivation) (keepTokens : Bool) :
    derivation.unplaced.trees keepTokens = (derivation.trees keepTokens).map Tree.unplaced := by
  have kinds (token : Token) : token.unplaced.kind = token.kind := rfl
  rw [unplaced_eq, trees_mapTokens kinds]
  exact map_congr_left fun tree _ => tree.unplaced_eq.symm

/-- At matching places the same can be derived. -/
theorem Derives.respaced (derived : Derives form here derivation there) (alike : here.Matches next) :
    ∃ again last, Derives form next again last ∧ again.unplaced = derivation.unplaced ∧
      there.Matches last := by
  obtain ⟨again, last, found, onward, same⟩ :=
    derived.simulates Cursor.Matches alike .refl fun alike taken _ => alike.take taken
  refine ⟨again, last, found, ?_, onward⟩
  rw [Derivation.unplaced_eq, Derivation.unplaced_eq]
  exact (same _ _ fun _ _ image => image.symm).symm

theorem Derives.eq_of_unplaced (derived : Derives form here one there)
    (again : Derives other here two last) (same : one.unplaced = two.unplaced) : one = two := by
  induction derived generalizing other two last with
  | empty | none =>
    cases two with
    | empty => rfl
    | _ => cases same
  | @token _ _ token _ taken =>
    cases again with
    | @token _ _ found _ also =>
      -- A terminal takes one piece only.
      have tokens : token.unplaced = found.unplaced := Derivation.token.inj same
      have kinds : token.kind = found.kind :=
        show token.unplaced.kind = found.unplaced.kind from congrArg Token.kind tokens
      obtain rfl := (Cursor.kind_of_take? taken).symm.trans (kinds.trans (Cursor.kind_of_take? also))
      cases taken.symm.trans also
      rfl
    | _ => cases same
  | phrase _ ih =>
    cases again with
    | phrase derived =>
      obtain ⟨rfl, bodies⟩ := Derivation.phrase.inj same
      rw [ih derived bodies]
    | _ => cases same
  | left _ ih =>
    cases again with
    | left derived => rw [ih derived (Derivation.left.inj same)]
    | _ => cases same
  | right _ ih =>
    cases again with
    | right derived => rw [ih derived (Derivation.right.inj same)]
    | _ => cases same
  | seq first _ before behind | more first _ before behind =>
    cases again with
    | seq one two | more one two =>
      -- The first parts are equal, so the second ones start at the same place.
      obtain ⟨sameOne, sameTwo⟩ := Derivation.seq.inj same
      obtain rfl := before one sameOne
      obtain rfl := first.end_eq one
      rw [behind two sameTwo]
    | _ => cases same

end Derivations

section Texts

variable {one other : List Char} {derivation : Derivation} {tree : Tree}

theorem Reading.respaced (respaced : Respaced [] one other) (reading : Reading one derivation) :
    ∃ again, Reading other again ∧ again.unplaced = derivation.unplaced := by
  obtain ⟨there, derived, ends⟩ := reading
  obtain ⟨again, last, found, same, alike⟩ :=
    derived.respaced (.between rfl rfl respaced : (Cursor.start one).Matches (.start other))
  exact ⟨again, ⟨last, found, alike.isAtEnd ends⟩, same⟩

/-- A text is accepted with other gaps, and its parse tree is the same but for the places of
tokens. -/
theorem Respaced.parse (respaced : Respaced [] one other) (accepted : LeftHand.parse one = .ok tree) :
    ∃ again, LeftHand.parse other = .ok again ∧ again.unplaced = tree.unplaced := by
  obtain ⟨derivation, derived, clean, shown⟩ := parse_eq_ok.mp accepted
  obtain ⟨reading, unique⟩ := derive_eq_ok.mp derived
  obtain ⟨again, found, same⟩ := reading.respaced respaced
  -- Another reading of the second text would be another one of the first.
  have only : derive other = .ok again := by
    refine derive_eq_ok.mpr ⟨found, ?_⟩
    intro second also
    obtain ⟨back, found', same'⟩ := also.respaced respaced.symm
    rw [unique back found'] at same'
    obtain ⟨_, derived, _⟩ := found
    obtain ⟨_, derived', _⟩ := also
    exact derived'.eq_of_unplaced derived (same'.symm.trans same.symm)
  have trees : (again.trees false).map Tree.unplaced = [tree.unplaced] := by
    rw [← again.trees_unplaced, same, derivation.trees_unplaced, shown, map_singleton]
  obtain ⟨tree', shown', unplaced⟩ := map_eq_singleton_iff.mp trees
  refine ⟨tree', parse_eq_ok.mpr ⟨again, only, ?_, shown'⟩, unplaced⟩
  intro token member
  -- The tokens have the same texts.
  have texts : again.tokens.map (·.text) = derivation.tokens.map (·.text) := by
    have tokens := congrArg (·.tokens.map (·.text)) same
    simpa [Derivation.tokens_unplaced, Function.comp_def, Token.unplaced] using tokens
  obtain ⟨original, among, same⟩ : ∃ original ∈ derivation.tokens, original.text = token.text :=
    mem_map.mp (texts ▸ mem_map_of_mem member)
  rw [← same]
  exact clean original among

end Texts

end LeftHand
