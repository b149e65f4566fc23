import LeftHand.Proofs.Format.Spread

/-! Laying out a layout again changes nothing. -/

namespace LeftHand

open List

section Around

variable {lead core trail part : List Char} {parts : List (List Char)}

/-- Taking blanks away before a part and anything behind it makes no new ends of statements. -/
theorem Clear.inside (clear : Clear false (lead ++ (core ++ trail))) (leads : lead.all isBlank = true) :
    Clear false core := by
  intro front mark rest cut ends outside
  -- An end inside the core is one inside the whole part.
  have last := clear (lead ++ front) mark (rest ++ trail) (by rw [cut]; simp) ends (by
    rwa [quotedBehind_append, (isPaired_of_blank leads).quotedBehind])
  exact (append_eq_nil_iff.mp last).1

theorem Clear.behind (clear : Clear false core) (leads : lead.all isBlank = true) :
    Clear false (lead ++ core) := by
  induction lead with
  | nil => exact clear
  | cons c lead ih =>
    rw [all_cons, Bool.and_eq_true] at leads
    refine .cons ?_ ?_
    · rw [beq_tick_of_isBlank leads.1]
      exact ih leads.2
    · -- No end of a statement starts with a blank.
      intro _ mark rest ends same
      obtain ⟨first, starts, visible⟩ := (isTrim_of_endsStatement ends).starts
      obtain ⟨more, rfl⟩ := head?_eq_some_iff.mp starts
      obtain ⟨rfl, _⟩ := List.cons.inj same
      rw [leads.1] at visible
      cases visible

theorem Ended.behind (ended : Ended false core) (leads : lead.all isBlank = true) :
    Ended false (lead ++ core) := by
  obtain ⟨front, mark, rfl, ends, outside⟩ := ended
  refine ⟨lead ++ front, mark, (append_assoc ..).symm, ends, ?_⟩
  rwa [quotedBehind_append, (isPaired_of_blank leads).quotedBehind]

theorem Ended.stripBlanks (ended : Ended false part) : Ended false (stripBlanks part) := by
  obtain ⟨front, mark, rfl, ends, outside⟩ := ended
  have trim := isTrim_of_endsStatement ends
  -- Only blanks before the mark can go, for the mark itself is not blank.
  have cut : front = front.takeWhile isBlank ++ front.dropWhile isBlank :=
    takeWhile_append_dropWhile.symm
  have leads : (front.takeWhile isBlank).all isBlank = true := all_takeWhile
  have whole : IsTrim (front.dropWhile isBlank ++ mark) := by
    obtain ⟨last, ended, alsoVisible⟩ := trim.ends
    refine ⟨?_, last, by rw [getLast?_append, ended]; rfl, alsoVisible⟩
    have start := head?_dropWhile_not isBlank front
    cases found : (front.dropWhile isBlank).head? with
    | none =>
      rw [head?_eq_none_iff.mp found]
      exact trim.starts
    | some c =>
      rw [found] at start
      exact ⟨c, by rw [head?_append, found]; rfl, start⟩
  have stripped := @IsTrim.stripBlanks_eq _ _ [] whole leads rfl
  rw [List.append_nil, ← append_assoc, ← cut] at stripped
  rw [stripped]
  refine ⟨front.dropWhile isBlank, mark, rfl, ends, ?_⟩
  rwa [cut, quotedBehind_append, (isPaired_of_blank leads).quotedBehind] at outside

theorem Cut.map_stripBlanks (cut : Cut false parts)
    (visible : ∀ part ∈ parts, ∃ c ∈ part, isBlank c = false) :
    Cut false (parts.map stripBlanks) := by
  have clearer {part : List Char} (clear : Clear false part) : Clear false (stripBlanks part) := by
    obtain ⟨lead, trail, around, leads, _⟩ := exists_blanks part
    rw [around] at clear
    exact clear.inside leads
  generalize start : false = isQuoted at cut
  induction cut with
  | nil => exact .nil
  | last _ clear =>
    subst start
    rw [forall_mem_singleton] at visible
    exact .last (stripBlanks_ne_nil visible) (clearer clear)
  | more ended clear _ ih =>
    subst start
    rw [forall_mem_cons] at visible
    exact .more ended.stripBlanks (clearer clear) (ih visible.2 rfl)

end Around

section Splitting

variable {offset : Nat} {starts : List Nat} {text line : List Char} {statements : List (List Char)}

theorem isBlank_spaces (count : Nat) : (List.replicate count ' ').all isBlank = true := by
  rw [all_replicate]
  simp [show isBlank ' ' = true from by decide]

variable (spread : SpreadOut offset starts statements text)

include spread

/-- A text in which statements are spread is cut into them, each with the spaces before it. -/
theorem SpreadOut.map_splitStatements (cut : Cut false statements)
    (trim : ∀ statement ∈ statements, IsTrim statement) :
    (splitStatements text).map stripBlanks = statements := by
  suffices parted : ∃ parts, parts.flatten = text ∧ Cut false parts ∧
      parts.map stripBlanks = statements by
    obtain ⟨parts, rfl, found, same⟩ := parted
    rw [splitStatements, found.splitFrom_flatten, same]
  induction spread with
  | nil => exact ⟨[], rfl, .nil, rfl⟩
  | @cons _ count _ statement text statements onward ih =>
    rw [forall_mem_cons] at trim
    have leads := isBlank_spaces count
    have stripped := @trim.1.stripBlanks_eq _ _ [] leads rfl
    rw [List.append_nil] at stripped
    cases cut with
    | last filled clear =>
      -- Nothing stands behind the last statement.
      cases onward
      refine ⟨[List.replicate count ' ' ++ statement], by simp, .last ?_ (clear.behind leads), ?_⟩
      · simp [filled]
      · rw [map_singleton, stripped]
    | more ended clear cut =>
      obtain ⟨parts, rfl, found, same⟩ := ih cut trim.2
      refine ⟨(List.replicate count ' ' ++ statement) :: parts, by simp,
        .more (ended.behind leads) (clear.behind leads) found, ?_⟩
      rw [map_cons, stripped, same]

theorem SpreadOut.mem {c : Char} (inside : c ∈ text) :
    c = ' ' ∨ ∃ statement ∈ statements, c ∈ statement := by
  induction spread with
  | nil => cases inside
  | cons onward ih =>
    rcases mem_append.mp inside with space | behind
    · exact .inl (eq_of_mem_replicate space)
    · rcases mem_append.mp behind with first | later
      · exact .inr ⟨_, mem_cons_self, first⟩
      · refine (ih later).imp id ?_
        rintro ⟨statement, member, among⟩
        exact ⟨statement, mem_cons_of_mem _ member, among⟩

end Splitting

section Lines

variable {c : Char} {text line statement : List Char}

/-- The statements of a line are cut as the line is. -/
theorem cut_map_stripBlanks (line : List Char) :
    Cut false ((splitStatements (stripBlanks line)).map stripBlanks) :=
  (cut_splitFrom false (stripBlanks line)).map_stripBlanks fun _ member => visible_of_mem_split member

theorem stripBlanks_stripBlanks (text : List Char) : stripBlanks (stripBlanks text) = stripBlanks text := by
  by_cases filled : stripBlanks text = []
  · rw [filled]
    rfl
  · have stripped := @(isTrim_stripBlanks filled).stripBlanks_eq [] _ [] rfl rfl
    rwa [List.append_nil, nil_append] at stripped

theorem mem_of_mem_stripBlanks (inside : c ∈ stripBlanks text) : c ∈ text := by
  obtain ⟨lead, trail, cut, _⟩ := exists_blanks text
  rw [cut]
  exact mem_append_right lead (mem_append_left trail inside)

theorem stripBlanks_concat (blank : isBlank c = true) : stripBlanks (text ++ [c]) = stripBlanks text := by
  obtain ⟨lead, trail, cut, leads, trails⟩ := exists_blanks text
  by_cases filled : stripBlanks text = []
  · -- The text is blank, with the character and without it.
    rw [filled] at cut ⊢
    by_contra other
    obtain ⟨d, first, visible⟩ := (isTrim_stripBlanks other).starts
    have inside := mem_of_mem_stripBlanks (mem_of_mem_head? first)
    rw [cut, nil_append, mem_append, mem_append, mem_singleton] at inside
    rcases inside with (before | behind) | rfl
    · rw [all_eq_true.mp leads d before] at visible
      cases visible
    · rw [all_eq_true.mp trails d behind] at visible
      cases visible
    · rw [blank] at visible
      cases visible
  · have trailing : (trail ++ [c]).all isBlank = true := by
      rw [all_append, trails, all_cons, blank]
      rfl
    have stripped := (isTrim_stripBlanks filled).stripBlanks_eq leads trailing
    rwa [← append_assoc (stripBlanks text), ← append_assoc, ← cut] at stripped

theorem exists_body (member : line ∈ linesOf text) :
    ∃ body, '\n' ∉ body ∧ (line = body ∨ line = body ++ ['\n']) := by
  induction text generalizing line with
  | nil => cases member
  | cons c text ih =>
    by_cases ends : c = '\n'
    · subst ends
      rcases mem_cons.mp member with rfl | later
      · exact ⟨[], by simp, .inr rfl⟩
      · exact ih later
    · rw [linesOf_cons ends] at member
      cases lines : linesOf text with
      | nil =>
        rw [lines] at member
        obtain rfl := mem_singleton.mp member
        exact ⟨[c], by simpa using Ne.symm ends, .inl rfl⟩
      | cons first others =>
        rw [lines] at member ih
        rcases mem_cons.mp member with rfl | later
        · -- The character is put in front of the first line.
          obtain ⟨body, oneLine, cut⟩ := ih mem_cons_self
          refine ⟨c :: body, by simpa [Ne.symm ends] using oneLine, ?_⟩
          exact cut.imp (congrArg (c :: ·)) (congrArg (c :: ·))
        · exact ih (mem_cons_of_mem _ later)

theorem newline_not_mem_stripBlanks (member : line ∈ linesOf text) : '\n' ∉ stripBlanks line := by
  obtain ⟨body, oneLine, rfl | rfl⟩ := exists_body member
  · exact fun inside => oneLine (mem_of_mem_stripBlanks inside)
  · rw [stripBlanks_concat (by decide)]
    exact fun inside => oneLine (mem_of_mem_stripBlanks inside)

theorem return_not_mem_unifyNewlines (text : List Char) : '\r' ∉ unifyNewlines text := by
  fun_induction unifyNewlines text with
  | case1 => simp
  | case2 rest ih | case3 rest _ ih => simpa using ih
  | case4 c rest _ other ih =>
    rw [mem_cons, not_or]
    exact ⟨fun same => other same.symm, ih⟩

theorem oneLine_of_mem_statementsOf (member : statement ∈ statementsOf text) :
    '\n' ∉ statement ∧ '\r' ∉ statement := by
  obtain ⟨line, among, inside⟩ := mem_flatMap.mp member
  obtain ⟨part, parted, rfl⟩ := mem_map.mp inside
  -- Every character of a statement is one of its line.
  have within {c : Char} (shown : c ∈ stripBlanks part) : c ∈ stripBlanks line := by
    rw [← flatten_splitFrom false (stripBlanks line)]
    exact mem_flatten.mpr ⟨part, parted, mem_of_mem_stripBlanks shown⟩
  refine ⟨fun shown => newline_not_mem_stripBlanks among (within shown), fun shown => ?_⟩
  refine return_not_mem_unifyNewlines text ?_
  rw [← flatten_linesOf (unifyNewlines text)]
  exact mem_flatten.mpr ⟨line, among, mem_of_mem_stripBlanks (within shown)⟩

end Lines

section Main

variable {width : Int} {text : List Char}

theorem spread_layout (width : Int) (text : List Char) :
    SpreadOut 0 (startsFrom width 0 0 (statementsOf text)) (statementsOf text)
      (stripBlanks (placeAll width 0 (statementsOf text))) :=
  spread_stripBlanks width fun _ member => isTrim_of_mem_statementsOf member

theorem oneLine_layout (width : Int) (text : List Char) :
    '\n' ∉ stripBlanks (placeAll width 0 (statementsOf text)) ∧
      '\r' ∉ stripBlanks (placeAll width 0 (statementsOf text)) := by
  have spread := spread_layout width text
  -- Spaces end no line, and neither does anything in a statement.
  constructor
  · intro inside
    rcases spread.mem inside with space | ⟨statement, member, among⟩
    · cases space
    · exact (oneLine_of_mem_statementsOf member).1 among
  · intro inside
    rcases spread.mem inside with space | ⟨statement, member, among⟩
    · cases space
    · exact (oneLine_of_mem_statementsOf member).2 among

/-- The layout of a line has the statements of the line. -/
theorem statementsOf_layout (width : Int) (oneLine : '\n' ∉ text) (plain : '\r' ∉ text) :
    statementsOf (stripBlanks (placeAll width 0 (statementsOf text))) = statementsOf text := by
  obtain ⟨newline, return_⟩ := oneLine_layout width text
  have cut : Cut false (statementsOf text) := by
    rw [statementsOf_line plain oneLine]
    exact cut_map_stripBlanks text
  rw [statementsOf_line return_ newline, stripBlanks_stripBlanks]
  exact (spread_layout width text).map_splitStatements cut fun _ member =>
    isTrim_of_mem_statementsOf member

/-- The layout of a line is its own layout. -/
theorem writes_layout (wide : width ≠ 0) (oneLine : '\n' ∉ text) (plain : '\r' ∉ text) :
    Writes width (stripBlanks (placeAll width 0 (statementsOf text)))
      (stripBlanks (placeAll width 0 (statementsOf text))) := by
  have again := writes_placeAll wide (stripBlanks (placeAll width 0 (statementsOf text)))
  rwa [statementsOf_layout width oneLine plain] at again

/-- Laying out is idempotent on lines. The layout of any text is a line, so after two times nothing
changes any more. -/
theorem layout_settles (wide : width ≠ 0) :
    (∀ text, '\n' ∉ text → '\r' ∉ text →
      ∃ layout, Writes width text layout ∧ Writes width layout layout) ∧
    ∀ text, ∃ layout again, Writes width text layout ∧ '\n' ∉ layout ∧ '\r' ∉ layout ∧
      Writes width layout again ∧ Writes width again again := by
  constructor
  · intro text oneLine plain
    exact ⟨_, writes_placeAll wide text, writes_layout wide oneLine plain⟩
  · intro text
    obtain ⟨newline, return_⟩ := oneLine_layout width text
    exact ⟨_, _, writes_placeAll wide text, newline, return_, writes_placeAll wide _,
      writes_layout wide newline return_⟩

/-- A scope that was never opened and a string that is never closed do no harm. Only lines that make
a statement together are not settled at once. -/
theorem layout_settles_open :
    let layout := "!s      a%s     `b".toList
    let first := "x%s       a     !s      b$".toList
    let second := "x%s     a     !s        b$".toList
    (Writes 6 "!s a%s `b  ".toList layout ∧ Writes 6 layout layout) ∧
      Writes 8 "x%s\na\r\n!s b$".toList first ∧ Writes 8 first second ∧ Writes 8 second second := by
  intro layout first second
  obtain ⟨found, writes, settled⟩ :=
    (layout_settles (show (6 : Int) ≠ 0 by decide)).1 "!s a%s `b  ".toList (by decide) (by decide)
  obtain ⟨one, two, writesOne, _, _, writesTwo, settles⟩ :=
    (layout_settles (show (8 : Int) ≠ 0 by decide)).2 "x%s\na\r\n!s b$".toList
  -- What is written is found by evaluation.
  have shown : layoutText? 6 "!s a%s `b  ".toList = some layout := by decide +kernel
  have shownOne : layoutText? 8 "x%s\na\r\n!s b$".toList = some first := by decide +kernel
  have shownTwo : layoutText? 8 first = some second := by decide +kernel
  obtain rfl : found = layout := Option.some.inj (writes.1.symm.trans shown)
  obtain rfl : one = first := Option.some.inj (writesOne.1.symm.trans shownOne)
  obtain rfl : two = second := Option.some.inj (writesTwo.1.symm.trans shownTwo)
  exact ⟨⟨writes, settled⟩, writesOne, writesTwo, settles⟩

end Main

end LeftHand
