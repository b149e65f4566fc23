import Mathlib.Data.List.DropRight
import LeftHand.Command.Format
import LeftHand.Proofs.Ast.Offence
import LeftHand.Proofs.Files.Directory
import LeftHand.Proofs.Format.Respaced

/-! Laying out a program changes its gaps only. -/

namespace LeftHand

open List

section Blanks

variable {c : Char} {gap piece text : List Char}

theorem isBlank_of_isGap (isGap : Cursor.isGap c = true) : isBlank c = true := by
  rw [Cursor.isGap, Bool.or_eq_true, beq_iff_eq, beq_iff_eq] at isGap
  rcases isGap with rfl | rfl <;> rfl

theorem not_isBlank (low : 33 ≤ c.toNat) (high : c.toNat ≤ 122) : isBlank c = false := by
  rw [isBlank, blankRanges]
  simp only [inRanges]
  -- The first two ranges lie below, and all the others above.
  rw [if_neg (by omega), if_neg (by omega), if_pos (by omega)]
  simp
  omega

theorem not_isBlank_of_isLeftHand (typed : isLeftHand c = true) : isBlank c = false := by
  rw [isLeftHand_iff, isLeftLetter_iff] at typed
  exact not_isBlank (by omega) (by omega)

theorem IsSolid.ends (solid : IsSolid piece) :
    (∃ first, piece.head? = some first ∧ isBlank first = false) ∧
      ∃ last, piece.getLast? = some last ∧ isBlank last = false := by
  rcases solid with ⟨filled, typed⟩ | ⟨body, _, rfl⟩
  · rw [all_eq_true] at typed
    constructor
    · exact ⟨_, head?_eq_some_head filled,
        not_isBlank_of_isLeftHand (typed _ (head_mem filled))⟩
    · exact ⟨_, getLast?_eq_some_getLast filled,
        not_isBlank_of_isLeftHand (typed _ (getLast_mem filled))⟩
  · exact ⟨⟨'`', rfl, by decide⟩, '`', getLast?_concat .., by decide⟩

theorem rdropWhile_gap (isGap : gap.all Cursor.isGap = true) : gap.rdropWhile isBlank = [] :=
  rdropWhile_eq_nil_iff.mpr fun c inside => isBlank_of_isGap (all_eq_true.mp isGap c inside)

theorem rdropWhile_append (solid : IsSolid piece) :
    (gap ++ (piece ++ text)).rdropWhile isBlank = gap ++ (piece ++ text.rdropWhile isBlank) := by
  obtain ⟨_, last, ends, visible⟩ := solid.ends
  obtain ⟨front, rfl⟩ := getLast?_eq_some_iff.mp ends
  -- The blanks go one by one, from the end of the text back to the chunk.
  induction text using List.reverseRecOn with
  | nil =>
    rw [rdropWhile_nil, List.append_nil, ← append_assoc]
    exact rdropWhile_concat_neg _ _ _ (by simp [visible])
  | append_singleton text c ih =>
    rw [rdropWhile_concat, ← append_assoc, ← append_assoc, rdropWhile_concat]
    split
    · rw [append_assoc, ih]
    · simp

theorem stripBlanks_append (isGap : gap.all Cursor.isGap = true) (solid : IsSolid piece) :
    stripBlanks (gap ++ (piece ++ text)) = piece ++ text.rdropWhile isBlank := by
  obtain ⟨⟨first, starts, visible⟩, _⟩ := solid.ends
  have dropped : (gap ++ (piece ++ text)).dropWhile isBlank = piece ++ text := by
    rw [dropWhile_append_of_pos fun c inside =>
      isBlank_of_isGap (all_eq_true.mp isGap c inside)]
    obtain ⟨more, rfl⟩ := head?_eq_some_iff.mp starts
    rw [cons_append, dropWhile_cons_of_neg (by simp [visible])]
  calc stripBlanks (gap ++ (piece ++ text))
    _ = (piece ++ text).rdropWhile isBlank := congrArg (List.rdropWhile isBlank) dropped
    _ = piece ++ text.rdropWhile isBlank := @rdropWhile_append [] piece text solid

theorem stripBlanks_gap (isGap : gap.all Cursor.isGap = true) : stripBlanks gap = [] := by
  have dropped : gap.dropWhile isBlank = [] :=
    dropWhile_eq_nil_iff.mpr fun c inside => isBlank_of_isGap (all_eq_true.mp isGap c inside)
  rw [stripBlanks, dropped]
  rfl

end Blanks

section Gaps

variable {prev one other gap chunk core tail : List Char}

theorem ChunkFits.refits (fits : ChunkFits prev gap chunk) : ChunkRefits prev gap gap chunk :=
  ⟨fits.isGap, fits.isGap, fits.isChunk, fun empty => fits.parted (empty.elim id id), .inl rfl⟩

/-- A gap may be put in the place of any gap, but at the start of the text only it may be empty. -/
theorem ChunkFits.refits_of (fits : ChunkFits prev gap chunk) (isGap : other.all Cursor.isGap = true)
    (filled : prev = [] ∨ other ≠ []) : ChunkRefits prev gap other chunk := by
  refine ⟨fits.isGap, isGap, fits.isChunk, ?_, ?_⟩
  · rintro (empty | empty) ends
    · exact fits.parted empty ends
    · obtain rfl := filled.resolve_right (absurd empty)
      rcases ends with ⟨filled, _⟩ | wrong
      · exact absurd rfl filled
      · cases wrong
  · by_cases joins : prev.getLast?.any isJoining = true
    · -- Something stands before, so the other gap is not empty.
      have apart : other ≠ [] := by
        refine filled.resolve_left ?_
        rintro rfl
        cases joins
      cases gap with
      | nil => exact .inr (fits.isApart rfl joins)
      | cons c gap =>
        cases other with
        | nil => exact absurd rfl apart
        | cons => exact .inl rfl
    · rw [Bool.not_eq_true] at joins
      rw [joins, Bool.and_false, Bool.and_false]
      exact .inl rfl

theorem Laid.respaced (laid : Laid prev core) (isGap : tail.all Cursor.isGap = true) :
    Respaced prev (core ++ tail) (core ++ tail) := by
  induction laid with
  | done => exact .done isGap isGap
  | chunk fits _ ih =>
    rw [append_assoc, append_assoc]
    exact .chunk fits.refits ih

/-- What follows a run, or `%%`, stands apart from it. -/
theorem Laid.startsApart (laid : Laid prev core) (isGap : tail.all Cursor.isGap = true)
    (ends : IsRun prev ∨ prev = ['%', '%']) : StartsApart (core ++ tail) :=
  (laid.respaced isGap).startsApart ends

theorem Respaced.rdropWhile (respaced : Respaced prev one other) :
    Respaced prev one (other.rdropWhile isBlank) := by
  induction respaced with
  | done isGap otherIsGap =>
    rw [rdropWhile_gap otherIsGap]
    exact .done isGap rfl
  | chunk fits _ ih =>
    rw [rdropWhile_append (isSolid_of_isChunk fits.isChunk)]
    exact .chunk fits ih

theorem Respaced.stripBlanks (respaced : Respaced [] one other) :
    Respaced [] one (LeftHand.stripBlanks other) := by
  cases respaced with
  | done isGap otherIsGap =>
    rw [stripBlanks_gap otherIsGap]
    exact .done isGap rfl
  | @chunk _ gap other chunk rest more fits onward =>
    rw [stripBlanks_append fits.otherIsGap (isSolid_of_isChunk fits.isChunk)]
    -- Nothing stands before the first chunk that it could be joined to.
    have refits : ChunkRefits [] gap [] chunk := by
      refine ⟨fits.isGap, rfl, fits.isChunk, ?_, .inl (by simp)⟩
      rintro _ (⟨filled, _⟩ | wrong)
      · exact absurd rfl filled
      · cases wrong
    have stripped := Respaced.chunk refits onward.rdropWhile
    rwa [nil_append] at stripped

end Gaps

/-- Whether a chunk is the last one of its statement. -/
def endsStatement (chunk : List Char) : Bool :=
  [['$'], ['%', 's'], ['!', 's']].contains chunk

/-- Whether a character goes on with a statement, whatever follows. -/
def isUnmarked (c : Char) : Bool :=
  c != '`' && c != '$' && c != '!' && c != '%'

section Splitting

variable {c : Char} {gap piece body digits rest chunk : List Char} {parts : List (List Char)}

theorem isUnmarked_iff :
    isUnmarked c = true ↔ c.toNat ≠ 96 ∧ c.toNat ≠ 36 ∧ c.toNat ≠ 33 ∧ c.toNat ≠ 37 := by
  simp [isUnmarked, ← Char.toNat_inj, and_assoc]

theorem isUnmarked_of (kind : Cursor.isGap c = true ∨ isNameChar c = true ∨ isNumeral c = true) :
    isUnmarked c = true := by
  rw [isGap_iff, isNameChar_iff, isLeftLetter_iff, isNumeral_iff] at kind
  rw [isUnmarked_iff]
  omega

/-- Characters in front of parts become part of the first one. -/
theorem foldr_consPart (filled : piece ≠ []) :
    piece.foldr consPart parts = (piece ++ parts.headD []) :: parts.tail := by
  induction piece with
  | nil => exact absurd rfl filled
  | cons c piece ih =>
    rw [foldr_cons]
    by_cases last : piece = []
    · subst last
      cases parts <;> rfl
    · rw [ih last]
      rfl

theorem splitFrom_cons (unmarked : isUnmarked c = true) :
    splitFrom false (c :: rest) = consPart c (splitFrom false rest) := by
  simp only [isUnmarked, Bool.and_eq_true, bne_iff_ne] at unmarked
  rw [splitFrom] <;> simp_all

theorem splitFrom_append (unmarked : piece.all isUnmarked = true) :
    splitFrom false (piece ++ rest) = piece.foldr consPart (splitFrom false rest) := by
  induction piece with
  | nil => rfl
  | cons c piece ih =>
    rw [all_cons, Bool.and_eq_true] at unmarked
    rw [cons_append, splitFrom_cons unmarked.1, ih unmarked.2, foldr_cons]

/-- Nothing inside a string ends a statement. -/
theorem splitFrom_quoted (inside : body.all isInside = true) :
    splitFrom true (body ++ '`' :: rest) =
      body.foldr consPart (consPart '`' (splitFrom false rest)) := by
  induction body with
  | nil => rfl
  | cons c body ih =>
    rw [all_cons, Bool.and_eq_true] at inside
    have other : c ≠ '`' := by
      rintro rfl
      exact absurd inside.1 (by decide)
    rw [cons_append, foldr_cons, ← ih inside.2, splitFrom]
    exact other

theorem splitFrom_percent (apart : rest.head? ≠ some 's') :
    splitFrom false ('%' :: rest) = consPart '%' (splitFrom false rest) := by
  cases rest with
  | nil => rfl
  | cons c rest =>
    have other : c ≠ 's' := fun same => apart (congrArg some same)
    rw [splitFrom] <;> simp_all

/-- A mark that ends no statement becomes part of the statement that goes on behind it. -/
theorem splitFrom_mark (isMark : IsMark piece) (goes : endsStatement piece = false)
    (apart : piece = ['%', '%'] → StartsApart rest) :
    splitFrom false (piece ++ rest) = piece.foldr consPart (splitFrom false rest) := by
  cases isMark with
  | fixed member =>
    simp only [fixedMarks, mem_cons, not_mem_nil, or_false] at member
    rcases member with rfl | rfl | rfl | rfl | rfl | rfl | rfl
    · cases goes
    · cases goes
    · cases goes
    · rfl
    · rfl
    · rfl
    · -- The second sign must not be taken for the start of `%s`.
      have other : rest.head? ≠ some 's' := fun starts =>
        absurd (apart rfl 's' starts) (by decide)
      show splitFrom false ('%' :: '%' :: rest) = _
      rw [splitFrom_percent (by simp), splitFrom_percent other]
      rfl
  | @number digits _ digital =>
    have unmarked : ('d' :: digits).all isUnmarked = true := by
      rw [all_cons, Bool.and_eq_true, all_eq_true]
      exact ⟨by decide, fun c inside =>
        isUnmarked_of (.inr (.inr (all_eq_true.mp digital c inside)))⟩
    have ends : splitFrom false ('!' :: 'd' :: rest) =
        consPart '!' (consPart 'd' (splitFrom false rest)) := rfl
    calc splitFrom false ('%' :: 'd' :: digits ++ ['!', 'd'] ++ rest)
      _ = splitFrom false ('%' :: ('d' :: digits ++ '!' :: 'd' :: rest)) := by simp
      _ = consPart '%' (('d' :: digits).foldr consPart (splitFrom false ('!' :: 'd' :: rest))) := by
        rw [splitFrom_percent (by simp), splitFrom_append unmarked]
      _ = ('%' :: 'd' :: digits ++ ['!', 'd']).foldr consPart (splitFrom false rest) := by
        rw [ends]
        simp
  | @quoted body inside =>
    calc splitFrom false ('`' :: body ++ ['`'] ++ rest)
      _ = consPart '`' (splitFrom true (body ++ '`' :: rest)) := by simp [splitFrom]
      _ = ('`' :: body ++ ['`']).foldr consPart (splitFrom false rest) := by
        rw [splitFrom_quoted inside]
        simp

/-- A chunk behind a gap starts a part. The part ends with the chunk, or goes on with the text
behind. -/
theorem splitFrom_chunk (isGap : gap.all Cursor.isGap = true) (isChunk : IsRun chunk ∨ IsMark chunk)
    (apart : chunk = ['%', '%'] → StartsApart rest) :
    ∃ more others, splitFrom false (gap ++ (chunk ++ rest)) = (gap ++ (chunk ++ more)) :: others ∧
      (more = [] ∧ others = splitFrom false rest ∨
        more = (splitFrom false rest).headD [] ∧ others = (splitFrom false rest).tail) := by
  have unmarked : gap.all isUnmarked = true := all_eq_true.mpr fun c inside =>
    isUnmarked_of (.inl (all_eq_true.mp isGap c inside))
  have filled : chunk ≠ [] := by
    rintro rfl
    rcases isChunk with ⟨filled, _⟩ | isMark
    · exact filled rfl
    · obtain ⟨_, _, wrong, _⟩ := isMark.head?
      cases wrong
  rw [splitFrom_append unmarked]
  by_cases ends : endsStatement chunk = true
  · -- The part ends with the chunk, and has nothing but the gap before it.
    have cut : splitFrom false (chunk ++ rest) = chunk :: splitFrom false rest := by
      have member := contains_iff_mem.mp ends
      simp only [mem_cons, not_mem_nil, or_false] at member
      rcases member with rfl | rfl | rfl <;> rfl
    refine ⟨[], splitFrom false rest, ?_, .inl ⟨rfl, rfl⟩⟩
    rw [cut, List.append_nil]
    cases gap with
    | nil => rfl
    | cons c gap => exact foldr_consPart (cons_ne_nil c gap)
  · -- All characters are put in front of what the text behind starts with.
    rw [Bool.not_eq_true] at ends
    have whole : splitFrom false (chunk ++ rest) = chunk.foldr consPart (splitFrom false rest) := by
      rcases isChunk with isRun | isMark
      · exact splitFrom_append (all_eq_true.mpr fun c inside =>
          isUnmarked_of (.inr (.inl (all_eq_true.mp isRun.2 c inside))))
      · exact splitFrom_mark isMark ends apart
    refine ⟨_, _, ?_, .inr ⟨rfl, rfl⟩⟩
    rw [whole, ← foldr_append, foldr_consPart (by simp [filled]), append_assoc]

end Splitting

/-- Statements without the blanks around them, and with gaps between them instead. -/
inductive Placed : (parts : List (List Char)) → (out : List Char) → Prop where
  | nil : Placed [] []
  | cons {part left right out : List Char} {parts : List (List Char)}
      (isGap : left.all Cursor.isGap = true) (padded : right.all Cursor.isGap = true)
      (filled : right ≠ []) (onward : Placed parts out) :
      Placed (part :: parts) (left ++ (stripBlanks part ++ (right ++ out)))

section Placing

variable {prev core tail : List Char} {width : Int}

theorem placed_placeAll (wide : 1 ≤ width) (indent : Int) (parts : List (List Char)) :
    Placed parts (placeAll width indent (parts.map stripBlanks)) := by
  induction parts generalizing indent with
  | nil => exact .nil
  | cons part parts ih =>
    have gaps (count : Int) : (blanks count).all Cursor.isGap = true := by
      rw [blanks, all_replicate]
      simp [Cursor.isGap]
    rw [map_cons, placeAll, placeStatement, append_assoc, append_assoc]
    refine .cons (gaps _) (gaps _) ?_ (ih _)
    -- What is used of the row is less than the row.
    have used := Int.fmod_lt_of_pos ((stripBlanks part).length +
      cappedIndent width (indent - 2 * countPair '!' 's' (stripBlanks part))) (show 0 < width by omega)
    intro empty
    have count := congrArg List.length empty
    rw [blanks, length_replicate, length_nil] at count
    omega

/-- Gaps alone make one part at most, with nothing in it. -/
theorem splitFrom_gap (isGap : tail.all Cursor.isGap = true) :
    splitFrom false tail = [] ∨ splitFrom false tail = [tail] := by
  have unmarked : tail.all isUnmarked = true := all_eq_true.mpr fun c inside =>
    isUnmarked_of (.inl (all_eq_true.mp isGap c inside))
  have whole : splitFrom false (tail ++ []) = tail.foldr consPart [] := splitFrom_append unmarked
  rw [List.append_nil] at whole
  by_cases empty : tail = []
  · rw [empty]
    exact .inl rfl
  · rw [whole, foldr_consPart empty, headD_nil, List.append_nil]
    exact .inr rfl

/-- Placing the statements of a text changes its gaps only, at the start of a statement and inside
of one. -/
theorem Laid.placed (laid : Laid prev core) (isGap : tail.all Cursor.isGap = true) :
    (∀ {lead out}, lead.all Cursor.isGap = true → prev = [] ∨ lead ≠ [] →
      Placed (splitFrom false (core ++ tail)) out → Respaced prev (core ++ tail) (lead ++ out)) ∧
    ∀ {right out}, right.all Cursor.isGap = true → right ≠ [] →
      Placed (splitFrom false (core ++ tail)).tail out → Respaced prev (core ++ tail)
        (((splitFrom false (core ++ tail)).headD []).rdropWhile isBlank ++ (right ++ out)) := by
  induction laid with
  | done =>
    rw [nil_append]
    -- Whatever is left is a gap, and is replaced by a gap.
    constructor
    · intro lead out leads _ placed
      refine .done isGap ?_
      rw [all_append, leads, Bool.true_and]
      rcases splitFrom_gap isGap with none | single
      · rw [none] at placed
        cases placed
        rfl
      · rw [single] at placed
        cases placed with
        | cons left padded _ onward =>
          cases onward
          simp [stripBlanks_gap isGap, left, padded]
    · intro right out padded _ placed
      refine .done isGap ?_
      rcases splitFrom_gap isGap with none | single
      · rw [none] at placed ⊢
        cases placed
        simpa using padded
      · rw [single] at placed ⊢
        cases placed
        simpa [rdropWhile_gap isGap] using padded
  | @chunk prev gap chunk rest fits onward ih =>
    obtain ⟨more, others, split, follows⟩ := splitFrom_chunk fits.isGap fits.isChunk
      fun percent => onward.startsApart isGap (.inr percent)
    -- Behind the chunk a new statement starts, or the statement goes on.
    have behind : ∀ {right out}, right.all Cursor.isGap = true → right ≠ [] → Placed others out →
        Respaced chunk (rest ++ tail) (more.rdropWhile isBlank ++ (right ++ out)) := by
      intro right out padded filled placed
      rcases follows with ⟨rfl, rfl⟩ | ⟨rfl, rfl⟩
      · rw [rdropWhile_nil, nil_append]
        exact ih.1 padded (.inr filled) placed
      · exact ih.2 padded filled placed
    have solid := isSolid_of_isChunk fits.isChunk
    have cut : gap ++ (chunk ++ rest) ++ tail = gap ++ (chunk ++ (rest ++ tail)) := by simp
    rw [cut, split]
    constructor
    · intro lead out leads apart placed
      cases placed with
      | @cons _ left right out _ isGap padded filled onward =>
        rw [stripBlanks_append fits.isGap solid, append_assoc, ← append_assoc lead]
        -- What stood before the statement makes up the gap, together with its indent.
        refine .chunk (fits.refits_of (by rw [all_append, leads, isGap]; rfl) ?_)
          (behind padded filled onward)
        exact apart.imp id fun filled empty => filled (append_eq_nil_iff.mp empty).1
    · intro right out padded filled placed
      -- Inside a statement the gap stays.
      rw [headD_cons, rdropWhile_append solid, append_assoc, append_assoc]
      exact .chunk fits.refits (behind padded filled placed)

end Placing

section Lines

variable {text : List Char}

theorem unifyNewlines_eq (plain : '\r' ∉ text) : unifyNewlines text = text := by
  induction text with
  | nil => rfl
  | cons c text ih =>
    rw [mem_cons, not_or] at plain
    rw [unifyNewlines, ih plain.2]
    · exact fun _ same => absurd same.symm plain.1
    · exact Ne.symm plain.1

theorem linesOf_eq (oneLine : '\n' ∉ text) (filled : text ≠ []) : linesOf text = [text] := by
  induction text with
  | nil => exact absurd rfl filled
  | cons c text ih =>
    rw [mem_cons, not_or] at oneLine
    rw [linesOf]
    · by_cases last : text = []
      · rw [last]
        rfl
      · rw [ih oneLine.2 last]
    · exact Ne.symm oneLine.1

theorem statementsOf_line (plain : '\r' ∉ text) (oneLine : '\n' ∉ text) :
    statementsOf text = (splitStatements (stripBlanks text)).map stripBlanks := by
  rw [statementsOf, unifyNewlines_eq plain]
  by_cases filled : text = []
  · rw [filled]
    rfl
  · rw [linesOf_eq oneLine filled, flatMap_singleton]

end Lines

/-- The program that an item is. -/
def Item.asProgram : Item → Except SourceError Program
  | .program whole => .ok whole
  | _ => .error (.visit ⟨Rule.program.name, .mismatch⟩)

section Accepted

variable {text : List Char} {tree : Tree} {width : Int}

section

variable (accepted : parse text = .ok tree)

include accepted

theorem laid_of_accepted :
    ∃ core tail, text = core ++ tail ∧ tail.all Cursor.isGap = true ∧ Laid [] core := by
  obtain ⟨derivation, ⟨there, reading, ends⟩, _⟩ := exists_reading accepted
  exact reading.lexes.laid ends

theorem item_unplaced : tree.unplaced.item = tree.item.map Item.unplaced := by
  obtain ⟨derivation, ⟨there, reading, _⟩, shown⟩ := exists_reading accepted
  -- The one tree makes one item in both places, or fails alike.
  have alike := (reading.checked false).alike
  rw [shown, map_singleton, Tree.items, Tree.items, Tree.items] at alike
  cases here : tree.item with
  | error error =>
    rw [here] at alike
    cases moved : tree.unplaced.item with
    | error other =>
      rw [moved] at alike
      cases alike
      rfl
    | ok item =>
      rw [moved] at alike
      cases alike
  | ok item =>
    rw [here] at alike
    cases moved : tree.unplaced.item with
    | error other =>
      rw [moved] at alike
      cases alike
    | ok other =>
      rw [moved] at alike
      cases alike
      rfl

/-- The program of a text depends on places only in its own places. -/
theorem readProgram_unplaced :
    (readProgram text).map Program.unplaced =
      (tree.unplaced.item.mapError .visit).bind Item.asProgram := by
  rw [item_unplaced accepted]
  simp only [readProgram, accepted, Except.mapError, bind, Except.bind]
  cases tree.item with
  | error error => rfl
  | ok item => cases item <;> rfl

end

/-- The layout of a program is the program with other gaps. -/
theorem respaced_layoutText? (accepted : parse (stripBlanks text) = .ok tree) (plain : '\r' ∉ text)
    (oneLine : '\n' ∉ text) (wide : 1 ≤ width) :
    ∃ layout, layoutText? width text = some layout ∧ Respaced [] (stripBlanks text) layout := by
  obtain ⟨core, tail, cut, isGap, laid⟩ := laid_of_accepted accepted
  have placed := placed_placeAll wide 0 (splitStatements (stripBlanks text))
  refine ⟨stripBlanks (placeAll width 0 (statementsOf text)), ?_, ?_⟩
  · rw [layoutText?, if_neg fun none => absurd none.1 (by omega)]
  · rw [statementsOf_line plain oneLine]
    rw [cut] at placed ⊢
    exact (@(laid.placed isGap).1 [] _ rfl (.inl rfl) placed).stripBlanks

end Accepted

section Main

variable {text : List Char} {tree : Tree} {width : Int}

/-- The layout of a program is a program, and the same one but for places. -/
theorem exists_parse_layoutText? (accepted : parse text = .ok tree) (plain : '\r' ∉ text)
    (wide : 1 ≤ width) :
    ∃ layout again, layoutText? width text = some layout ∧ parse layout = .ok again ∧
      again.unplaced = tree.unplaced := by
  -- The blanks around the text go first, and then those around statements.
  obtain ⟨core, tail, cut, isGap, laid⟩ := laid_of_accepted accepted
  have stripped : Respaced [] text (stripBlanks text) := by
    rw [cut]
    exact (laid.respaced isGap).stripBlanks
  obtain ⟨middle, parsed, sameMiddle⟩ := stripped.parse accepted
  obtain ⟨layout, laidOut, respaced⟩ :=
    respaced_layoutText? parsed plain (newline_not_mem accepted) wide
  obtain ⟨again, reparsed, sameAgain⟩ := respaced.parse parsed
  exact ⟨layout, again, laidOut, reparsed, sameAgain.trans sameMiddle⟩

/-- Laying out a program keeps its meaning: the layout, which is what the command writes, is
accepted, and its parse tree and its program are those of the text but for columns. -/
theorem layout_keeps_meaning (accepted : parse text = .ok tree) (plain : '\r' ∉ text)
    (wide : 1 ≤ width) :
    ∃ layout again, layoutText? width text = some layout ∧ parse layout = .ok again ∧
      again.unplaced = tree.unplaced ∧
        (readProgram layout).map Program.unplaced = (readProgram text).map Program.unplaced ∧
          ∀ (suffix : String) (directory : Directory) (file target : Path),
            directory.read file = .ok (String.ofList text) → file.withSuffix suffix = .ok target →
              directory.isDirectory target = false →
                ∃ after, formatFile ⟨suffix, width⟩ directory file = .ok after ∧
                  after.read target = .ok (String.ofList layout) := by
  obtain ⟨layout, again, laidOut, reparsed, same⟩ := exists_parse_layoutText? accepted plain wide
  refine ⟨layout, again, laidOut, reparsed, same, ?_, ?_⟩
  · rw [readProgram_unplaced reparsed, readProgram_unplaced accepted, same]
  · intro suffix directory file target found named free
    obtain ⟨after, written⟩ := Directory.exists_write found named free (String.ofList layout)
    refine ⟨after, ?_, Directory.read_write written⟩
    rw [formatFile, found]
    simp only [Except.mapError, bind, Except.bind, String.toList_ofList, laidOut, named, written]

/-- The tab goes, and the statement between the marks of the block gets a row of its own. The
command writes the layout to a file beside the program. -/
theorem layout_keeps_meaning_calling :
    let layout := "def v@1d f%s      exec f%e`Hi, you $`!e$        !s".toList
    let file : Path := ⟨false, [['f']]⟩
    ∃ tree again after, parse calling = .ok tree ∧ layoutText? 16 calling = some layout ∧
      parse layout = .ok again ∧ again.unplaced = tree.unplaced ∧
        (readProgram layout).map Program.unplaced = (readProgram calling).map Program.unplaced ∧
          formatFile ⟨".new", 16⟩ (.holding [(file, String.ofList calling)]) file = .ok after ∧
            after.read ⟨false, [['f', '.', 'n', 'e', 'w']]⟩ = .ok (String.ofList layout) := by
  intro layout file
  obtain ⟨tree, parsed, _⟩ := exists_parse_calling
  obtain ⟨found, again, laidOut, reparsed, same, program, writes⟩ :=
    layout_keeps_meaning parsed (by decide) (show (1 : Int) ≤ 16 by decide)
  have shown : layoutText? 16 calling = some layout := by decide +kernel
  obtain rfl : found = layout := Option.some.inj (laidOut.symm.trans shown)
  obtain ⟨after, formatted, written⟩ := writes ".new" (.holding [(file, String.ofList calling)]) file
    ⟨false, [['f', '.', 'n', 'e', 'w']]⟩ rfl (by decide +kernel) (by decide +kernel)
  exact ⟨tree, again, after, parsed, shown, reparsed, same, program, formatted, written⟩

end Main

end LeftHand
