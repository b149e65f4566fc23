import LeftHand.Proofs.Format.Kept

/-! Where the statements of a text stand in its layout. -/

namespace LeftHand

open List

/-- A text that neither starts nor ends with a blank, and is not empty. -/
structure IsTrim (text : List Char) : Prop where
  starts : ∃ c, text.head? = some c ∧ isBlank c = false
  ends : ∃ c, text.getLast? = some c ∧ isBlank c = false

section Trimming

variable {isQuoted : Bool} {c : Char} {text lead core trail line part statement : List Char}
  {parts : List (List Char)}

theorem IsTrim.stripBlanks_eq (trim : IsTrim core) (leads : lead.all isBlank = true)
    (trails : trail.all isBlank = true) : stripBlanks (lead ++ (core ++ trail)) = core := by
  obtain ⟨first, starts, visible⟩ := trim.starts
  obtain ⟨last, ends, alsoVisible⟩ := trim.ends
  -- From the left the first character of the core is met, ...
  have front : (lead ++ (core ++ trail)).dropWhile isBlank = core ++ trail := by
    rw [dropWhile_append_of_pos (all_eq_true.mp leads)]
    obtain ⟨more, rfl⟩ := head?_eq_some_iff.mp starts
    rw [cons_append, dropWhile_cons_of_neg (by simp [visible])]
  -- ... and from the right its last one.
  have back : (core ++ trail).reverse.dropWhile isBlank = core.reverse := by
    rw [reverse_append, dropWhile_append_of_pos fun c inside =>
      all_eq_true.mp trails c (mem_reverse.mp inside)]
    obtain ⟨others, rfl⟩ := getLast?_eq_some_iff.mp ends
    rw [reverse_concat, dropWhile_cons_of_neg (by simp [alsoVisible])]
  rw [stripBlanks, front, back, reverse_reverse]

theorem isTrim_stripBlanks (filled : stripBlanks text ≠ []) : IsTrim (stripBlanks text) := by
  have dropped : stripBlanks text = (text.dropWhile isBlank).rdropWhile isBlank := rfl
  have start := head?_dropWhile_not isBlank text
  constructor
  · -- Taking blanks away at the end does not change where the text starts.
    obtain ⟨rest, whole⟩ := rdropWhile_prefix isBlank (text.dropWhile isBlank)
    rw [← dropped] at whole
    have first := head?_eq_some_head filled
    refine ⟨_, first, ?_⟩
    rw [← whole, head?_append, first] at start
    exact start
  · refine ⟨_, getLast?_eq_some_getLast filled, ?_⟩
    exact Bool.not_eq_true _ ▸ rdropWhile_last_not isBlank (text.dropWhile isBlank) filled

theorem visible_of_getLast? (last : (stripBlanks text).getLast? = some c) : isBlank c = false := by
  have filled : stripBlanks text ≠ [] := by
    intro empty
    rw [empty] at last
    cases last
  obtain ⟨other, ends, visible⟩ := (isTrim_stripBlanks filled).ends
  rw [last] at ends
  cases ends
  exact visible

theorem stripBlanks_ne_nil (visible : ∃ c ∈ text, isBlank c = false) : stripBlanks text ≠ [] := by
  obtain ⟨lead, trail, cut, leads, trails⟩ := exists_blanks text
  obtain ⟨c, inside, shown⟩ := visible
  intro empty
  rw [cut, empty, nil_append, mem_append] at inside
  -- The character would be one of the blanks around.
  rcases inside with before | behind
  · rw [all_eq_true.mp leads c before] at shown
    cases shown
  · rw [all_eq_true.mp trails c behind] at shown
    cases shown

theorem isTrim_of_endsStatement {mark : List Char} (ends : endsStatement mark = true) : IsTrim mark := by
  rcases endsStatement_iff.mp ends with rfl | rfl | rfl
  · exact ⟨⟨'$', rfl, by decide⟩, '$', rfl, by decide⟩
  · exact ⟨⟨'%', rfl, by decide⟩, 's', rfl, by decide⟩
  · exact ⟨⟨'!', rfl, by decide⟩, 's', rfl, by decide⟩

/-- No part of a line is blank, if the line does not end with a blank. -/
theorem Cut.exists_visible (cut : Cut isQuoted parts)
    (ends : ∀ c, parts.flatten.getLast? = some c → isBlank c = false) :
    ∀ part ∈ parts, ∃ c ∈ part, isBlank c = false := by
  induction cut with
  | nil => exact fun _ none => nomatch none
  | @last _ part filled _ =>
    -- The last part ends where the line ends.
    have last := getLast?_eq_some_getLast filled
    refine forall_mem_singleton.mpr ⟨_, getLast_mem filled, ends _ ?_⟩
    rw [flatten_singleton, last]
  | @more _ part parts ended _ _ ih =>
    refine forall_mem_cons.mpr ⟨?_, ih fun c last => ends c ?_⟩
    · -- The end of a statement is not blank.
      obtain ⟨front, mark, rfl, marks, _⟩ := ended
      obtain ⟨c, first, shown⟩ := (isTrim_of_endsStatement marks).starts
      exact ⟨c, mem_append_right front (mem_of_mem_head? first), shown⟩
    · rw [flatten_cons, getLast?_append, last]
      rfl

theorem visible_of_mem_split (member : part ∈ splitStatements (stripBlanks line)) :
    ∃ c ∈ part, isBlank c = false := by
  refine (cut_splitFrom false (stripBlanks line)).exists_visible ?_ part member
  -- The parts make up the line, and its last character is not blank.
  intro c last
  rw [flatten_splitFrom] at last
  exact visible_of_getLast? last

theorem isTrim_of_mem_statementsOf (member : statement ∈ statementsOf text) : IsTrim statement := by
  obtain ⟨line, _, inside⟩ := mem_flatMap.mp member
  obtain ⟨part, among, rfl⟩ := mem_map.mp inside
  exact isTrim_stripBlanks (stripBlanks_ne_nil (visible_of_mem_split among))

end Trimming

/-- Statements one after the other in a text that goes on from an offset: each starts where it is
said to, and nothing but spaces stands before it. -/
inductive SpreadOut : (offset : Nat) → (starts : List Nat) → (statements : List (List Char)) →
    (text : List Char) → Prop where
  | nil {offset : Nat} : SpreadOut offset [] [] []
  | cons {offset count : Nat} {starts : List Nat} {statement text : List Char}
      {statements : List (List Char)}
      (onward : SpreadOut (offset + count + statement.length) starts statements text) :
      SpreadOut offset ((offset + count) :: starts) (statement :: statements)
        (List.replicate count ' ' ++ (statement ++ text))

/-- The indent of a statement, before it is capped; `indent` is that of the scopes open before
it. -/
def indentAt (indent : Int) (statement : List Char) : Int :=
  indent - 2 * countPair '!' 's' statement

/-- The indent of the scopes open behind a statement. -/
def indentBehind (indent : Int) (statement : List Char) : Int :=
  indentAt indent statement + 2 * countPair '%' 's' statement

/-- Where statements come to stand in a layout that goes on from an offset. -/
def startsFrom (width : Int) : (offset : Nat) → (indent : Int) → List (List Char) → List Nat
  | _, _, [] => []
  | offset, indent, statement :: statements =>
    (offset + (cappedIndent width (indentAt indent statement)).toNat) ::
      startsFrom width (offset + (placeStatement width (indentAt indent statement) statement).length)
        (indentBehind indent statement) statements

section Spreading

variable {width indent : Int} {offset count : Nat} {starts : List Nat} {text statement : List Char}
  {statements : List (List Char)}

theorem SpreadOut.indented (spread : SpreadOut (offset + count) starts statements text)
    (filled : statements ≠ []) : SpreadOut offset starts statements (List.replicate count ' ' ++ text) := by
  cases spread with
  | nil => exact absurd rfl filled
  | @cons _ more starts statement text statements onward =>
    rw [← append_assoc, replicate_append_replicate, Nat.add_assoc]
    rw [Nat.add_assoc offset count more] at onward
    exact .cons onward

/-- Placing statements spreads them, and leaves the padding of the last one. -/
theorem exists_spread_placeAll (width : Int) (offset : Nat) (indent : Int)
    (statements : List (List Char)) :
    ∃ text count, placeAll width indent statements = text ++ List.replicate count ' ' ∧
      SpreadOut offset (startsFrom width offset indent statements) statements text := by
  induction statements generalizing offset indent with
  | nil => exact ⟨[], 0, rfl, .nil⟩
  | cons statement statements ih =>
    let here := indentAt indent statement
    let shown := (cappedIndent width here).toNat
    let padding := (width - (statement.length + cappedIndent width here).fmod width).toNat
    have placed : placeStatement width here statement =
        List.replicate shown ' ' ++ (statement ++ List.replicate padding ' ') := append_assoc ..
    have length : offset + (placeStatement width here statement).length =
        offset + shown + statement.length + padding := by
      rw [placed]
      simp [Nat.add_assoc]
    obtain ⟨text, count, cut, spread⟩ := ih
      (offset + (placeStatement width here statement).length) (indentBehind indent statement)
    by_cases last : statements = []
    · -- Behind the last statement there is only its own padding.
      subst last
      refine ⟨List.replicate shown ' ' ++ (statement ++ []), padding, ?_, .cons .nil⟩
      change placeStatement width here statement ++ [] = _
      rw [placed]
      simp
    · -- The padding of a statement stands before the next one.
      refine ⟨List.replicate shown ' ' ++ (statement ++ (List.replicate padding ' ' ++ text)), count,
        ?_, .cons (SpreadOut.indented ?_ last)⟩
      · change placeStatement width here statement ++
          placeAll width (indentBehind indent statement) statements = _
        rw [placed, cut]
        simp
      · change SpreadOut (offset + shown + statement.length + padding) _ _ _
        rw [← length]
        exact spread

theorem SpreadOut.ends (spread : SpreadOut offset starts statements text)
    (trim : ∀ statement ∈ statements, IsTrim statement) (filled : statements ≠ []) :
    ∃ c, text.getLast? = some c ∧ isBlank c = false := by
  induction spread with
  | nil => exact absurd rfl filled
  | @cons _ _ _ statement text statements onward ih =>
    rw [forall_mem_cons] at trim
    rw [getLast?_append, getLast?_append]
    by_cases last : statements = []
    · -- Nothing follows, so the text ends with this statement.
      subst last
      cases onward
      obtain ⟨c, ends, visible⟩ := trim.1.ends
      exact ⟨c, by rw [ends]; rfl, visible⟩
    · obtain ⟨c, ends, visible⟩ := ih trim.2 last
      exact ⟨c, by rw [ends]; rfl, visible⟩

/-- A text that starts with its first statement and is spread otherwise is trim. -/
theorem SpreadOut.isTrim (spread : SpreadOut offset (offset :: starts) (statement :: statements) text)
    (trim : ∀ other ∈ statement :: statements, IsTrim other) : IsTrim text := by
  refine ⟨?_, spread.ends trim (cons_ne_nil _ _)⟩
  obtain ⟨c, starts, visible⟩ := (trim statement mem_cons_self).starts
  refine ⟨c, ?_, visible⟩
  generalize first : offset :: _ = places at spread
  cases spread with
  | @cons _ count =>
    -- No space stands before the first statement.
    obtain rfl : count = 0 := by
      have := (List.cons.inj first).1
      omega
    rw [replicate_zero, nil_append, head?_append, starts]
    rfl

theorem startsFrom_cons (width : Int) (statement : List Char) (statements : List (List Char)) :
    ∃ others, startsFrom width 0 0 (statement :: statements) = 0 :: others := by
  refine ⟨_, congrArg (· :: _) ?_⟩
  simp only [cappedIndent, indentAt]
  omega

theorem spread_stripBlanks (width : Int) (trim : ∀ statement ∈ statements, IsTrim statement) :
    SpreadOut 0 (startsFrom width 0 0 statements) statements
      (stripBlanks (placeAll width 0 statements)) := by
  cases statements with
  | nil => exact .nil
  | cons statement statements =>
    obtain ⟨text, count, cut, spread⟩ := exists_spread_placeAll width 0 0 (statement :: statements)
    obtain ⟨others, first⟩ := startsFrom_cons width statement statements
    -- What is taken away is the padding of the last statement.
    have stripped : stripBlanks (placeAll width 0 (statement :: statements)) = text := by
      rw [cut]
      refine @IsTrim.stripBlanks_eq [] text _ (SpreadOut.isTrim (first ▸ spread) trim) rfl ?_
      rw [all_replicate]
      simp [show isBlank ' ' = true from by decide]
    rwa [stripped]

end Spreading

/-- The command writes the layout wherever it finds the text, and goes on with the other files. -/
def Writes (width : Int) (text layout : List Char) : Prop :=
  layoutText? width text = some layout ∧
    ∀ (suffix : String) (directory : Directory) (file target : Path),
      directory.read file = .ok (String.ofList text) → file.withSuffix suffix = .ok target →
        directory.isDirectory target = false → ∀ files,
          ∃ after, after.read target = .ok (String.ofList layout) ∧
            formatFiles ⟨suffix, width⟩ directory (file :: files) =
              formatFiles ⟨suffix, width⟩ after files

theorem writes_placeAll {width : Int} (wide : width ≠ 0) (text : List Char) :
    Writes width text (stripBlanks (placeAll width 0 (statementsOf text))) := by
  refine ⟨layoutText?_of_wide wide, ?_⟩
  intro suffix directory file target found named free
  exact formatFiles_cons (layoutText?_of_wide wide) found named free

end LeftHand
