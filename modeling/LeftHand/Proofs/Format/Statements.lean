import LeftHand.Proofs.Format.Layout
import LeftHand.Proofs.Text.Quotes

/-!
The cut of a line into statements is the only one of its kind: every part but the last ends with the
end of a statement outside strings, and no part has one anywhere else.
-/

namespace LeftHand

open List

/-- A text starts with the end of a statement. -/
def StartsEnd (text : List Char) : Prop :=
  ∃ mark rest, endsStatement mark = true ∧ text = mark ++ rest

/-- A part, read from inside or outside a string, ends with the end of a statement outside
strings. -/
def Ended (isQuoted : Bool) (part : List Char) : Prop :=
  ∃ front mark, part = front ++ mark ∧ endsStatement mark = true ∧ quotedBehind isQuoted front = false

/-- No statement ends outside strings in a part, unless the part ends there, too. -/
def Clear (isQuoted : Bool) (part : List Char) : Prop :=
  ∀ front mark rest, part = front ++ (mark ++ rest) → endsStatement mark = true →
    quotedBehind isQuoted front = false → rest = []

section Ends

variable {isQuoted : Bool} {c : Char} {mark front rest part : List Char}

theorem endsStatement_iff :
    endsStatement mark = true ↔ mark = ['$'] ∨ mark = ['%', 's'] ∨ mark = ['!', 's'] := by
  simp [endsStatement]

section

variable (ends : endsStatement mark = true)

include ends

theorem ne_nil_of_endsStatement : mark ≠ [] := by
  rintro rfl
  cases ends

theorem isPaired_of_endsStatement : IsPaired mark := by
  rcases endsStatement_iff.mp ends with rfl | rfl | rfl <;> decide

theorem startsEnd_of_append (starts : StartsEnd (c :: (front ++ (mark ++ rest)))) :
    StartsEnd (c :: front) := by
  obtain ⟨other, more, also, cut⟩ := starts
  -- The second character of an end is an `s`, which no end starts with.
  have second : ∀ {more}, front ++ (mark ++ rest) = 's' :: more → ∃ others, front = 's' :: others := by
    intro more same
    cases front with
    | cons d front => exact ⟨front, congrArg (· :: front) (List.cons.inj same).1⟩
    | nil => rcases endsStatement_iff.mp ends with rfl | rfl | rfl <;> cases same
  rcases endsStatement_iff.mp also with rfl | rfl | rfl
  · exact ⟨['$'], front, rfl, congrArg (· :: front) (List.cons.inj cut).1⟩
  · obtain ⟨rfl, behind⟩ := List.cons.inj cut
    obtain ⟨others, rfl⟩ := second behind
    exact ⟨['%', 's'], others, rfl, rfl⟩
  · obtain ⟨rfl, behind⟩ := List.cons.inj cut
    obtain ⟨others, rfl⟩ := second behind
    exact ⟨['!', 's'], others, rfl, rfl⟩

end

theorem clear_of_length (short : part.length ≤ 1) : Clear isQuoted part := by
  intro front mark rest cut ends _
  -- The end itself takes up the one character that there is.
  have filled := length_pos_iff.mpr (ne_nil_of_endsStatement ends)
  have lengths := congrArg List.length cut
  simp only [length_append] at lengths
  exact length_eq_zero_iff.mp (by omega)

theorem Clear.tail (clear : Clear isQuoted (c :: part)) : Clear (isQuoted ^^ (c == '`')) part := by
  intro front mark rest cut
  exact clear (c :: front) mark rest (congrArg (c :: ·) cut)

/-- A part is clear if it is clear behind its first character, and at it. -/
theorem Clear.cons (clear : Clear (isQuoted ^^ (c == '`')) part)
    (first : isQuoted = false → ∀ mark rest, endsStatement mark = true → c :: part = mark ++ rest →
      rest = []) : Clear isQuoted (c :: part) := by
  intro front mark rest cut ends outside
  cases front with
  | nil => exact first outside mark rest ends cut
  | cons d front =>
    obtain ⟨rfl, behind⟩ := List.cons.inj cut
    exact clear front mark rest behind ends outside

/-- The end of a statement is clear of others. -/
theorem clear_of_endsStatement (ends : endsStatement mark = true) : Clear false mark := by
  have alone : ∀ one ∈ [['$'], ['%', 's'], ['!', 's']], ∀ two ∈ [['$'], ['%', 's'], ['!', 's']],
      one <+: two → one = two := by decide
  have first : ∀ other rest, endsStatement other = true → mark = other ++ rest → rest = [] := by
    intro other rest also cut
    have same := alone other (contains_iff_mem.mp also) mark (contains_iff_mem.mp ends)
      ⟨rest, cut.symm⟩
    simpa [same] using cut
  -- Behind its first character there is at most one more.
  rcases endsStatement_iff.mp ends with rfl | rfl | rfl
  · exact clear_of_length (by decide)
  · exact .cons (clear_of_length (by decide)) fun _ => first
  · exact .cons (clear_of_length (by decide)) fun _ => first

end Ends

section Steps

variable {isQuoted : Bool} {c : Char} {mark front rest part : List Char} {parts more : List (List Char)}

theorem flatten_consPart : (consPart c parts).flatten = c :: parts.flatten := by
  cases parts <;> rfl

theorem consPart_append (filled : parts ≠ []) :
    consPart c (parts ++ more) = consPart c parts ++ more := by
  cases parts with
  | nil => exact absurd rfl filled
  | cons part parts => rfl

theorem splitFrom_end (ends : endsStatement mark = true) :
    splitFrom false (mark ++ rest) = mark :: splitFrom false rest := by
  rcases endsStatement_iff.mp ends with rfl | rfl | rfl <;> rfl

/-- A part goes on where no statement ends. -/
theorem splitFrom_step (goes : isQuoted = true ∨ ¬ StartsEnd (c :: rest)) :
    splitFrom isQuoted (c :: rest) = consPart c (splitFrom (isQuoted ^^ (c == '`')) rest) := by
  by_cases tick : c = '`'
  · -- A backtick opens a string or closes one, and ends no statement.
    subst tick
    rw [splitFrom]
    simp
  · rw [beq_eq_false_iff_ne.mpr tick, Bool.xor_false]
    cases isQuoted with
    | true =>
      rw [splitFrom]
      exact tick
    | false =>
      have noEnd : ∀ mark out, endsStatement mark = true → c :: rest ≠ mark ++ out := by
        intro mark out ends cut
        rcases goes with inside | none
        · cases inside
        · exact none ⟨mark, out, ends, cut⟩
      -- None of the three ends is there, so what is left is the last equation.
      rw [splitFrom]
      · exact tick
      · rintro rfl
        exact noEnd ['$'] rest rfl rfl
      · rintro out rfl rfl
        exact noEnd ['!', 's'] out rfl rfl
      · rintro out rfl rfl
        exact noEnd ['%', 's'] out rfl rfl

/-- A text is read from its start, one end of a statement or one other character at a time. -/
theorem split_induction {motive : Bool → List Char → Prop} (nil : ∀ isQuoted, motive isQuoted [])
    (ended : ∀ mark rest, endsStatement mark = true → motive false rest → motive false (mark ++ rest))
    (step : ∀ isQuoted c rest, isQuoted = true ∨ ¬ StartsEnd (c :: rest) →
      motive (isQuoted ^^ (c == '`')) rest → motive isQuoted (c :: rest))
    (isQuoted : Bool) (text : List Char) : motive isQuoted text := by
  -- An end may be two characters long, so the induction is on the length and not on the text.
  induction size : text.length using Nat.strongRecOn generalizing isQuoted text with
  | ind size ih =>
    subst size
    cases text with
    | nil => exact nil isQuoted
    | cons c rest =>
      by_cases goes : isQuoted = true ∨ ¬ StartsEnd (c :: rest)
      · exact step isQuoted c rest goes (ih rest.length (by simp) _ rest rfl)
      · rw [not_or, not_not, Bool.not_eq_true] at goes
        obtain ⟨rfl, mark, out, ends, cut⟩ := goes
        have filled := length_pos_iff.mpr (ne_nil_of_endsStatement ends)
        rw [cut]
        exact ended mark out ends (ih out.length (by rw [cut, length_append]; omega) _ out rfl)

/-- Nothing of a text is lost. -/
theorem flatten_splitFrom (isQuoted : Bool) (text : List Char) :
    (splitFrom isQuoted text).flatten = text := by
  induction isQuoted, text using split_induction with
  | nil isQuoted => cases isQuoted <;> rfl
  | ended mark rest ends ih => rw [splitFrom_end ends, flatten_cons, ih]
  | step isQuoted c rest goes ih => rw [splitFrom_step goes, flatten_consPart, ih]

theorem splitFrom_ne_nil {text : List Char} (filled : text ≠ []) : splitFrom isQuoted text ≠ [] := by
  intro none
  have whole := flatten_splitFrom isQuoted text
  rw [none] at whole
  exact filled whole.symm

/-- Behind the end of a statement a text is cut as if it started there. -/
theorem splitFrom_append_end (ends : endsStatement mark = true)
    (outside : quotedBehind isQuoted front = false) :
    splitFrom isQuoted (front ++ (mark ++ rest)) =
      splitFrom isQuoted (front ++ mark) ++ splitFrom false rest := by
  induction isQuoted, front using split_induction with
  | nil isQuoted =>
    -- Nothing stands before the mark, which is a part of its own.
    obtain rfl : isQuoted = false := outside
    have alone : splitFrom false (mark ++ []) = [mark] := splitFrom_end ends
    rw [List.append_nil] at alone
    rw [nil_append, nil_append, splitFrom_end ends, alone]
    rfl
  | ended other front also ih =>
    -- An earlier end is cut off on both sides.
    rw [quotedBehind_append, (isPaired_of_endsStatement also).quotedBehind] at outside
    rw [append_assoc, append_assoc, splitFrom_end also, splitFrom_end also, ih outside,
      cons_append]
  | step isQuoted c front goes ih =>
    -- The mark does not make an end out of the character before it, whatever follows.
    have onward {rest} : isQuoted = true ∨ ¬ StartsEnd (c :: (front ++ (mark ++ rest))) :=
      goes.imp id fun none starts => none (startsEnd_of_append ends starts)
    have last := @onward []
    rw [List.append_nil] at last
    have filled : front ++ mark ≠ [] := by simp [ne_nil_of_endsStatement ends]
    rw [cons_append, cons_append, splitFrom_step onward, splitFrom_step last, ih outside,
      consPart_append (splitFrom_ne_nil filled)]

theorem splitFrom_clear (clear : Clear isQuoted part) (filled : part ≠ []) :
    splitFrom isQuoted part = [part] := by
  induction isQuoted, part using split_induction with
  | nil => exact absurd rfl filled
  | ended mark rest ends ih =>
    -- The part is clear, so nothing follows the end.
    obtain rfl := clear [] mark rest rfl ends rfl
    rw [splitFrom_end ends, List.append_nil]
    rfl
  | step isQuoted c rest goes ih =>
    rw [splitFrom_step goes]
    by_cases last : rest = []
    · subst last
      cases isQuoted ^^ (c == '`') <;> rfl
    · rw [ih clear.tail last]
      rfl

end Steps

/-- Parts, the first of which is read from inside or outside a string: each of them is clear and
ends a statement, but the last one may go on. -/
inductive Cut : (isQuoted : Bool) → (parts : List (List Char)) → Prop where
  | nil {isQuoted : Bool} : Cut isQuoted []
  | last {isQuoted : Bool} {part : List Char} (filled : part ≠ []) (clear : Clear isQuoted part) :
      Cut isQuoted [part]
  | more {isQuoted : Bool} {part : List Char} {parts : List (List Char)} (ended : Ended isQuoted part)
      (clear : Clear isQuoted part) (onward : Cut false parts) : Cut isQuoted (part :: parts)

section Cuts

variable {isQuoted : Bool} {c : Char} {rest part : List Char} {parts : List (List Char)}

theorem Ended.ne_nil (ended : Ended isQuoted part) : part ≠ [] := by
  obtain ⟨front, mark, rfl, ends, _⟩ := ended
  simp [ne_nil_of_endsStatement ends]

theorem Ended.cons (ended : Ended (isQuoted ^^ (c == '`')) part) : Ended isQuoted (c :: part) := by
  obtain ⟨front, mark, rfl, ends, outside⟩ := ended
  exact ⟨c :: front, mark, rfl, ends, outside⟩

/-- A character at which no statement ends is put in front of the first part. -/
theorem Cut.consPart (cut : Cut (isQuoted ^^ (c == '`')) parts)
    (goes : isQuoted = true ∨ ¬ StartsEnd (c :: parts.flatten)) :
    Cut isQuoted (LeftHand.consPart c parts) := by
  -- What starts the first part starts all the text.
  have first : ∀ part others, parts = part :: others → isQuoted = false → ∀ mark rest,
      endsStatement mark = true → c :: part = mark ++ rest → rest = [] := by
    rintro part others rfl isOutside mark rest ends same
    refine (goes.resolve_left (by simp [isOutside]) ⟨mark, rest ++ others.flatten, ends, ?_⟩).elim
    rw [flatten_cons, ← cons_append, same, append_assoc]
  cases cut with
  | nil => exact .last (cons_ne_nil _ _) (clear_of_length (Nat.le_refl 1))
  | last filled clear => exact .last (cons_ne_nil _ _) (clear.cons (first _ _ rfl))
  | more ended clear onward => exact .more ended.cons (clear.cons (first _ _ rfl)) onward

theorem cut_splitFrom (isQuoted : Bool) (text : List Char) : Cut isQuoted (splitFrom isQuoted text) := by
  induction isQuoted, text using split_induction with
  | nil isQuoted =>
    exact .nil
  | ended mark rest ends ih =>
    rw [splitFrom_end ends]
    exact .more ⟨[], mark, rfl, ends, rfl⟩ (clear_of_endsStatement ends) ih
  | step isQuoted c rest goes ih =>
    rw [splitFrom_step goes]
    refine ih.consPart ?_
    rwa [flatten_splitFrom]

/-- Parts of this kind are those that their text is cut into. -/
theorem Cut.splitFrom_flatten (cut : Cut isQuoted parts) : splitFrom isQuoted parts.flatten = parts := by
  induction cut with
  | nil => rw [flatten_nil, splitFrom]
  | last filled clear => rw [flatten_singleton, splitFrom_clear clear filled]
  | more ended clear _ ih =>
    -- The first part is cut off behind its end, and being clear it is cut nowhere else.
    have whole := splitFrom_clear clear ended.ne_nil
    obtain ⟨front, mark, rfl, ends, outside⟩ := ended
    rw [flatten_cons, append_assoc, splitFrom_append_end ends outside, whole, ih]
    rfl

end Cuts

/-- How a line is cut into statements. -/
structure IsSplit (line : List Char) (parts : List (List Char)) : Prop where
  joined : parts.flatten = line
  filled : ∀ part ∈ parts, part ≠ []
  /-- Every part ends a statement, but the last one may go on. -/
  ended : ∀ part ∈ parts.dropLast, Ended false part
  clear : ∀ part ∈ parts, Clear false part
  /-- No string is cut. -/
  whole : ∀ earlier later, parts = earlier ++ later → later ≠ [] → IsPaired earlier.flatten

section Canonical

variable {line part : List Char} {parts : List (List Char)}

theorem Ended.isPaired (ended : Ended false part) : IsPaired part := by
  obtain ⟨front, mark, rfl, ends, outside⟩ := ended
  exact (isPaired_append (quotedBehind_eq_false.mp outside)).mpr (isPaired_of_endsStatement ends)

theorem Cut.clear_of_mem (cut : Cut false parts) : ∀ part ∈ parts, part ≠ [] ∧ Clear false part := by
  generalize start : false = isQuoted at cut
  induction cut with
  | nil => exact fun _ none => nomatch none
  | last filled clear =>
    subst start
    exact forall_mem_singleton.mpr ⟨filled, clear⟩
  | more ended clear _ ih =>
    subst start
    exact forall_mem_cons.mpr ⟨⟨ended.ne_nil, clear⟩, ih rfl⟩

theorem Cut.ended_of_mem (cut : Cut false parts) : ∀ part ∈ parts.dropLast, Ended false part := by
  generalize start : false = isQuoted at cut
  induction cut with
  | nil | last => exact fun _ none => nomatch none
  | @more _ part parts ended _ _ ih =>
    subst start
    cases parts with
    | nil => exact fun _ none => nomatch none
    | cons next parts => exact forall_mem_cons.mpr ⟨ended, ih rfl⟩

theorem Cut.isSplit (cut : Cut false parts) : IsSplit parts.flatten parts where
  joined := rfl
  filled part member := (cut.clear_of_mem part member).1
  ended := cut.ended_of_mem
  clear part member := (cut.clear_of_mem part member).2
  whole := by
    rintro earlier later rfl filled
    -- All the parts before the cut end a statement, so none of them ends inside a string.
    refine isPaired_flatten fun part member => (cut.ended_of_mem part ?_).isPaired
    rw [dropLast_append_of_ne_nil filled]
    exact mem_append_left _ member

theorem IsSplit.cut (split : IsSplit line parts) : Cut false parts := by
  -- What is asked of each part is kept along the list, while the line is not.
  have filled := split.filled
  have ended := split.ended
  have clear := split.clear
  clear split
  induction parts with
  | nil => exact .nil
  | cons part parts ih =>
    rw [forall_mem_cons] at filled clear
    cases parts with
    | nil => exact .last filled.1 clear.1
    | cons next parts =>
      rw [dropLast_cons_cons, forall_mem_cons] at ended
      exact .more ended.1 clear.1 (ih filled.2 ended.2 clear.2)

/-- A line is cut into statements in the only way in which it can be, each statement is cut no
further, and a line that ends with a statement is cut on its own, whatever follows it. -/
theorem splitStatements_canonical (line : List Char) :
    IsSplit line (splitStatements line) ∧
      (∀ parts, IsSplit line parts → parts = splitStatements line) ∧
        (∀ part ∈ splitStatements line, splitStatements part = [part]) ∧
          (Ended false line → ∀ more,
            splitStatements (line ++ more) = splitStatements line ++ splitStatements more) := by
  have cut := cut_splitFrom false line
  refine ⟨?_, ?_, ?_, ?_⟩
  · have split := cut.isSplit
    rwa [flatten_splitFrom] at split
  · -- Both are the cut of what the parts are joined to.
    intro parts split
    rw [splitStatements, ← split.joined, split.cut.splitFrom_flatten]
  · intro part member
    obtain ⟨filled, clear⟩ := cut.clear_of_mem part member
    exact splitFrom_clear clear filled
  · rintro ⟨front, mark, rfl, ends, outside⟩ more
    rw [append_assoc]
    exact splitFrom_append_end ends outside

/-- Signs before a mark belong to its statement, and marks inside a string do not count. -/
theorem splitStatements_canonical_marks :
    let line := "a%%s`b$`!!sc$".toList
    Ended false line ∧ IsSplit line ["a%%s".toList, "`b$`!!s".toList, "c$".toList] ∧
      splitStatements (line ++ "`!s".toList) =
        ["a%%s".toList, "`b$`!!s".toList, "c$".toList, "`!s".toList] := by
  intro line
  have ended : Ended false line := ⟨"a%%s`b$`!!sc".toList, ['$'], by decide, by decide, by decide⟩
  have found : splitStatements line = ["a%%s".toList, "`b$`!!s".toList, "c$".toList] := by decide
  obtain ⟨split, _, _, onward⟩ := splitStatements_canonical line
  rw [found] at split onward
  exact ⟨ended, split, onward ended _⟩

end Canonical

end LeftHand
