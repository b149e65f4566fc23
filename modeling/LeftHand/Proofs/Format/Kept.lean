import LeftHand.Proofs.Format.Statements
import LeftHand.Proofs.Typing.Accepted

/-!
Laying out a text keeps all of its characters, in their order, but the blanks outside strings.
-/

namespace LeftHand

open List

/-- A text that starts inside or outside a string, without the blanks outside strings. -/
def squeezeFrom : (isQuoted : Bool) → List Char → List Char
  | _, [] => []
  | isQuoted, c :: rest =>
    let behind := squeezeFrom (isQuoted ^^ (c == '`')) rest
    if !isQuoted && isBlank c then behind else c :: behind

/-- A text without the blanks outside its strings. -/
def squeeze (text : List Char) : List Char :=
  squeezeFrom false text

/-- What the strings hold in a text that starts inside or outside one. The last one may be open. -/
def stringsFrom : (isQuoted : Bool) → List Char → List (List Char)
  | false, [] => []
  | true, [] => [[]]
  | false, c :: rest => stringsFrom (c == '`') rest
  | true, c :: rest => if c = '`' then [] :: stringsFrom false rest else consPart c (stringsFrom true rest)

/-- What the strings of a text hold, from left to right. -/
def stringsOf (text : List Char) : List (List Char) :=
  stringsFrom false text

section Squeezing

variable {isQuoted : Bool} {text gap one two : List Char} {parts : List (List Char)}

theorem squeezeFrom_append : squeezeFrom isQuoted (one ++ two) =
    squeezeFrom isQuoted one ++ squeezeFrom (quotedBehind isQuoted one) two := by
  induction one generalizing isQuoted with
  | nil => rfl
  | cons c one ih =>
    rw [cons_append, squeezeFrom, squeezeFrom, ih, quotedBehind_cons]
    split <;> rfl

theorem squeeze_append (paired : IsPaired one) : squeeze (one ++ two) = squeeze one ++ squeeze two := by
  rw [squeeze, squeezeFrom_append, paired.quotedBehind]
  rfl

theorem squeeze_flatten (paired : ∀ part ∈ parts, IsPaired part) :
    squeeze parts.flatten = parts.flatMap squeeze := by
  induction parts with
  | nil => rfl
  | cons part parts ih =>
    rw [forall_mem_cons] at paired
    rw [flatten_cons, squeeze_append paired.1, ih paired.2, flatMap_cons]

theorem beq_tick_of_isBlank {c : Char} (blank : isBlank c = true) : (c == '`') = false := by
  rw [beq_eq_false_iff_ne]
  rintro rfl
  exact absurd blank (by decide)

theorem squeezeFrom_blank {c : Char} (blank : isBlank c = true) :
    squeezeFrom false (c :: text) = squeezeFrom false text := by
  rw [squeezeFrom, beq_tick_of_isBlank blank, blank]
  rfl

theorem squeeze_blank (blank : gap.all isBlank = true) : squeeze gap = [] := by
  induction gap with
  | nil => rfl
  | cons c gap ih =>
    rw [all_cons, Bool.and_eq_true] at blank
    rw [squeeze, squeezeFrom_blank blank.1]
    exact ih blank.2

theorem stringsFrom_squeezeFrom (isQuoted : Bool) (text : List Char) :
    stringsFrom isQuoted (squeezeFrom isQuoted text) = stringsFrom isQuoted text := by
  induction text generalizing isQuoted with
  | nil => rfl
  | cons c text ih =>
    cases isQuoted with
    | true =>
      -- Inside a string every character is kept.
      by_cases tick : c = '`'
      · simp [squeezeFrom, stringsFrom, tick, ih]
      · simp [squeezeFrom, stringsFrom, tick, ih, beq_eq_false_iff_ne.mpr tick]
    | false =>
      -- Outside one only blanks go, and they open no string.
      by_cases blank : isBlank c = true
      · simp [squeezeFrom, stringsFrom, blank, ih, beq_tick_of_isBlank blank]
      · simp [squeezeFrom, stringsFrom, blank, ih]

theorem isPaired_of_blank (blank : gap.all isBlank = true) : IsPaired gap := by
  refine isPaired_of_not_mem fun member => ?_
  exact absurd (all_eq_true.mp blank _ member) (by decide)

theorem exists_blanks (text : List Char) :
    ∃ lead trail, text = lead ++ (stripBlanks text ++ trail) ∧ lead.all isBlank = true ∧
      trail.all isBlank = true := by
  have trails := @takeWhile_append_dropWhile _ isBlank (text.dropWhile isBlank).reverse
  refine ⟨text.takeWhile isBlank, ((text.dropWhile isBlank).reverse.takeWhile isBlank).reverse, ?_,
    all_takeWhile, ?_⟩
  · rw [stripBlanks, ← reverse_append, trails, reverse_reverse,
      takeWhile_append_dropWhile]
  · rw [all_reverse]
    exact all_takeWhile

theorem stripBlanks_kept (paired : IsPaired text) :
    IsPaired (stripBlanks text) ∧ squeeze (stripBlanks text) = squeeze text := by
  obtain ⟨lead, trail, cut, leads, trails⟩ := exists_blanks text
  generalize stripBlanks text = core at cut
  subst cut
  -- The blanks around have no backtick, so all of them are in what is left.
  have core_paired : IsPaired core :=
    (isPaired_append_left (isPaired_of_blank trails)).mp
      ((isPaired_append (isPaired_of_blank leads)).mp paired)
  refine ⟨core_paired, ?_⟩
  rw [squeeze_append (isPaired_of_blank leads), squeeze_append core_paired, squeeze_blank leads,
    squeeze_blank trails, nil_append, List.append_nil]

end Squeezing

section Lines

variable {isQuoted : Bool} {text front rest : List Char}

theorem linesOf_cons {c : Char} (other : c ≠ '\n') : linesOf (c :: rest) = consPart c (linesOf rest) := by
  rw [linesOf]
  · cases linesOf rest <;> rfl
  · exact other

theorem flatten_linesOf (text : List Char) : (linesOf text).flatten = text := by
  induction text with
  | nil => rfl
  | cons c text ih =>
    by_cases ends : c = '\n'
    · subst ends
      rw [linesOf, flatten_cons, ih]
      rfl
    · rw [linesOf_cons ends, flatten_consPart, ih]

theorem linesOf_append_newline (front rest : List Char) :
    linesOf (front ++ '\n' :: rest) = linesOf (front ++ ['\n']) ++ linesOf rest := by
  induction front with
  | nil => rfl
  | cons c front ih =>
    by_cases ends : c = '\n'
    · subst ends
      rw [cons_append, cons_append, linesOf, linesOf, ih, cons_append]
    · -- There is a first line for the character to go on with.
      have filled : linesOf (front ++ ['\n']) ≠ [] := by
        intro none
        have whole := flatten_linesOf (front ++ ['\n'])
        rw [none] at whole
        simp at whole
      rw [cons_append, cons_append, linesOf_cons ends, linesOf_cons ends, ih,
        consPart_append filled]

/-- Where a line ends no string is open, if the strings of each line are whole. -/
theorem isPaired_of_newline (paired : ∀ line ∈ linesOf text, IsPaired line)
    (cut : text = front ++ '\n' :: rest) : IsPaired front := by
  subst cut
  rw [linesOf_append_newline, forall_mem_append] at paired
  -- The lines up to this one make up what stands before its end.
  have whole := isPaired_flatten paired.1
  rw [flatten_linesOf] at whole
  exact (isPaired_append_left (by decide)).mp whole

/-- All line ends are blanks, so outside strings it does not matter which of them is used. -/
theorem squeezeFrom_unifyNewlines (isQuoted : Bool) (text : List Char)
    (outside : ∀ front rest, unifyNewlines text = front ++ '\n' :: rest →
      quotedBehind isQuoted front = false) :
    squeezeFrom isQuoted (unifyNewlines text) = squeezeFrom isQuoted text := by
  fun_induction unifyNewlines text generalizing isQuoted with
  | case1 => rfl
  | case2 rest ih =>
    -- A line end of two characters: both are blanks, and so is the one that they become.
    obtain rfl : isQuoted = false := outside [] _ rfl
    rw [squeezeFrom_blank (by decide), squeezeFrom_blank (by decide), squeezeFrom_blank (by decide)]
    exact ih false fun front rest cut => outside ('\n' :: front) rest (congrArg ('\n' :: ·) cut)
  | case3 rest _ ih =>
    obtain rfl : isQuoted = false := outside [] _ rfl
    rw [squeezeFrom_blank (by decide), squeezeFrom_blank (by decide)]
    exact ih false fun front rest cut => outside ('\n' :: front) rest (congrArg ('\n' :: ·) cut)
  | case4 c rest _ _ ih =>
    rw [squeezeFrom, squeezeFrom,
      ih _ fun front rest cut => outside (c :: front) rest (congrArg (c :: ·) cut)]

end Lines

section Placing

variable {line text : List Char} {statements parts : List (List Char)} {width : Int}

theorem Cut.isPaired_of_mem (cut : Cut false parts) (paired : IsPaired parts.flatten) :
    ∀ part ∈ parts, IsPaired part := by
  generalize start : false = isQuoted at cut
  induction cut with
  | nil => exact fun _ none => nomatch none
  | last => exact forall_mem_singleton.mpr (by simpa using paired)
  | more ended _ _ ih =>
    subst start
    exact forall_mem_cons.mpr ⟨ended.isPaired, ih ((isPaired_append ended.isPaired).mp paired) rfl⟩

/-- The statements of a line make up the line, but for blanks outside strings. -/
theorem statements_kept (paired : IsPaired line) :
    (∀ statement ∈ (splitStatements (stripBlanks line)).map stripBlanks, IsPaired statement) ∧
      ((splitStatements (stripBlanks line)).map stripBlanks).flatMap squeeze = squeeze line := by
  obtain ⟨whole, kept⟩ := stripBlanks_kept paired
  -- Lines are cut outside strings only.
  have parts : ∀ part ∈ splitStatements (stripBlanks line), IsPaired part := by
    refine (cut_splitFrom false _).isPaired_of_mem ?_
    rwa [flatten_splitFrom]
  constructor
  · rintro statement member
    obtain ⟨part, among, rfl⟩ := mem_map.mp member
    exact (stripBlanks_kept (parts part among)).1
  · calc ((splitStatements (stripBlanks line)).map stripBlanks).flatMap squeeze
      _ = (splitStatements (stripBlanks line)).flatMap (fun part => squeeze (stripBlanks part)) :=
        flatMap_map ..
      _ = (splitStatements (stripBlanks line)).flatMap squeeze :=
        flatMap_congr fun part among => (stripBlanks_kept (parts part among)).2
      _ = squeeze (splitStatements (stripBlanks line)).flatten := (squeeze_flatten parts).symm
      _ = squeeze line := by rw [splitStatements, flatten_splitFrom, kept]

theorem placeAll_kept (indent : Int) (paired : ∀ statement ∈ statements, IsPaired statement) :
    IsPaired (placeAll width indent statements) ∧
      squeeze (placeAll width indent statements) = statements.flatMap squeeze := by
  have blank (count : Int) : (blanks count).all isBlank = true := by
    rw [blanks, all_replicate]
    simp [show isBlank ' ' = true from by decide]
  induction statements generalizing indent with
  | nil => exact ⟨isPaired_nil, rfl⟩
  | cons statement statements ih =>
    rw [forall_mem_cons] at paired
    obtain ⟨onward, kept⟩ := ih _ paired.2
    rw [placeAll, placeStatement, append_assoc, append_assoc]
    constructor
    · rw [isPaired_append (isPaired_of_blank (blank _)), isPaired_append paired.1,
        isPaired_append (isPaired_of_blank (blank _))]
      exact onward
    · rw [squeeze_append (isPaired_of_blank (blank _)), squeeze_append paired.1,
        squeeze_append (isPaired_of_blank (blank _)), squeeze_blank (blank _), squeeze_blank (blank _),
        kept, flatMap_cons]
      rfl

/-- The statements of a text make up the text, but for blanks outside strings. -/
theorem statementsOf_kept (paired : ∀ line ∈ linesOf (unifyNewlines text), IsPaired line) :
    (∀ statement ∈ statementsOf text, IsPaired statement) ∧
      (statementsOf text).flatMap squeeze = squeeze text := by
  constructor
  · intro statement member
    obtain ⟨line, among, inside⟩ := mem_flatMap.mp member
    exact (statements_kept (paired line among)).1 statement inside
  · calc (statementsOf text).flatMap squeeze
      _ = (linesOf (unifyNewlines text)).flatMap fun line =>
          ((splitStatements (stripBlanks line)).map stripBlanks).flatMap squeeze := flatMap_assoc ..
      _ = (linesOf (unifyNewlines text)).flatMap squeeze :=
        flatMap_congr fun line among => (statements_kept (paired line among)).2
      _ = squeeze (linesOf (unifyNewlines text)).flatten := (squeeze_flatten paired).symm
      _ = squeezeFrom false (unifyNewlines text) := by rw [flatten_linesOf, squeeze]
      _ = squeeze text := squeezeFrom_unifyNewlines false text fun front rest cut =>
        quotedBehind_eq_false.mpr (isPaired_of_newline paired cut)

end Placing

section Main

variable {text : List Char} {width : Int}

theorem layoutText?_of_wide (wide : width ≠ 0) :
    layoutText? width text = some (stripBlanks (placeAll width 0 (statementsOf text))) := by
  rw [layoutText?, if_neg fun none => wide none.1]

theorem formatFiles_cons {layout : List Char} {suffix : String} {directory : Directory}
    {file target : Path} (laidOut : layoutText? width text = some layout)
    (found : directory.read file = .ok (String.ofList text))
    (named : file.withSuffix suffix = .ok target) (free : directory.isDirectory target = false)
    (files : List Path) :
    ∃ after, after.read target = .ok (String.ofList layout) ∧
      formatFiles ⟨suffix, width⟩ directory (file :: files) = formatFiles ⟨suffix, width⟩ after files := by
  obtain ⟨after, written⟩ := Directory.exists_write found named free (String.ofList layout)
  refine ⟨after, Directory.read_write written, ?_⟩
  rw [formatFiles, if_neg (by simp [Directory.contains_of_read found])]
  simp only [formatFile, found, Except.mapError, bind, Except.bind, String.toList_ofList, laidOut, named,
    written]

/-- Laying out a text loses and invents nothing but blanks outside strings: the layout, which is
what the command writes, has the characters of the text in their order, and its strings hold what
those of the text hold. -/
theorem layout_keeps_characters (wide : width ≠ 0)
    (paired : ∀ line ∈ linesOf (unifyNewlines text), line.count '`' % 2 = 0) :
    ∃ layout, layoutText? width text = some layout ∧ squeeze layout = squeeze text ∧
      stringsOf layout = stringsOf text ∧
        ∀ (suffix : String) (directory : Directory) (file target : Path),
          directory.read file = .ok (String.ofList text) → file.withSuffix suffix = .ok target →
            directory.isDirectory target = false → ∀ files,
              ∃ after, after.read target = .ok (String.ofList layout) ∧
                formatFiles ⟨suffix, width⟩ directory (file :: files) =
                  formatFiles ⟨suffix, width⟩ after files := by
  obtain ⟨whole, kept⟩ := statementsOf_kept paired
  obtain ⟨placed, same⟩ := @placeAll_kept _ width 0 whole
  have squeezed : squeeze (stripBlanks (placeAll width 0 (statementsOf text))) = squeeze text := by
    rw [(stripBlanks_kept placed).2, same, kept]
  refine ⟨_, layoutText?_of_wide wide, squeezed, ?_, ?_⟩
  · -- Squeezing keeps the strings, so they can be read off what both texts have in common.
    rw [stringsOf, ← stringsFrom_squeezeFrom]
    exact (congrArg stringsOf squeezed).trans (stringsFrom_squeezeFrom false text)
  · intro suffix directory file target found named free
    exact formatFiles_cons (layoutText?_of_wide wide) found named free

/-- In rows of negative width statements follow each other at once. The blanks in the string stay,
and so does the one behind it, for it stands inside a statement. -/
theorem layout_keeps_characters_narrow :
    let text := " a%s\r\n\t`b  $` $ !s\n".toList
    let layout := "a%s`b  $` $!s".toList
    let file : Path := ⟨false, [['f']]⟩
    (∀ line ∈ linesOf (unifyNewlines text), line.count '`' % 2 = 0) ∧
      layoutText? (-3) text = some layout ∧ squeeze layout = squeeze text ∧
        stringsOf text = ["b  $".toList] ∧ stringsOf layout = stringsOf text ∧
          ∃ after : Directory, after.read ⟨false, [['f', '.', 'n', 'e', 'w']]⟩ = .ok (String.ofList layout) ∧
            formatFiles ⟨".new", -3⟩ (.holding [(file, String.ofList text)]) [file] = { directory := after } := by
  intro text layout file
  have paired : ∀ line ∈ linesOf (unifyNewlines text), line.count '`' % 2 = 0 := by decide +kernel
  obtain ⟨found, laidOut, same, strings, writes⟩ :=
    layout_keeps_characters (show (-3 : Int) ≠ 0 by decide) paired
  have shown : layoutText? (-3) text = some layout := by decide +kernel
  obtain rfl : found = layout := Option.some.inj (laidOut.symm.trans shown)
  obtain ⟨after, written, formatted⟩ := writes ".new" (.holding [(file, String.ofList text)]) file
    ⟨false, [['f', '.', 'n', 'e', 'w']]⟩ rfl (by decide +kernel) (by decide +kernel) []
  exact ⟨paired, shown, same, by decide +kernel, strings, after, written, formatted⟩

end Main

end LeftHand
