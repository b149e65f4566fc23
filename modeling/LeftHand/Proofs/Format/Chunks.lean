import LeftHand.Proofs.Source.Words

/-!
Program texts as chunks with gaps between them: runs of the characters that names are made of, and
marks.
-/

namespace LeftHand

open List

/-- Characters that names are made of, one after the other. -/
def IsRun (run : List Char) : Prop :=
  run ≠ [] ∧ run.all isNameChar = true

/-- The marks that are always spelled alike. -/
def fixedMarks : List (List Char) :=
  [['$'], ['%', 's'], ['!', 's'], ['%', 'e'], ['!', 'e'], ['#'], ['%', '%']]

/-- A mark: a fixed one, a number or a string. -/
inductive IsMark : List Char → Prop where
  | fixed {mark : List Char} (member : mark ∈ fixedMarks) : IsMark mark
  | number {digits : List Char} (filled : digits ≠ []) (digital : digits.all isNumeral = true) :
      IsMark ('%' :: 'd' :: digits ++ ['!', 'd'])
  | quoted {body : List Char} (inside : body.all isInside = true) : IsMark ('`' :: body ++ ['`'])

/-- The characters that marks and gaps start with. -/
def isBreak (c : Char) : Bool :=
  [' ', '\t', '`', '$', '%', '!', '#'].contains c

/-- A text is empty, or does not go on with a run. -/
def StartsApart (text : List Char) : Prop :=
  ∀ c, text.head? = some c → isBreak c = true

section Characters

variable {c : Char}

theorem isBreak_facts (break_ : isBreak c = true) :
    isJoining c = false ∧ isNameChar c = false ∧ isWordChar c = false := by
  have code : isJoining c = false ∧ isNameChar c = false ∧ c.toNat < 128 ∧
      ¬ ((48 ≤ c.toNat ∧ c.toNat ≤ 57) ∨ (65 ≤ c.toNat ∧ c.toNat ≤ 90) ∨ c.toNat = 95 ∨
        (97 ≤ c.toNat ∧ c.toNat ≤ 122)) := by
    have known : [' ', '\t', '`', '$', '%', '!', '#'].all (fun c => isJoining c = false ∧
        isNameChar c = false ∧ c.toNat < 128 ∧
          ¬ ((48 ≤ c.toNat ∧ c.toNat ≤ 57) ∨ (65 ≤ c.toNat ∧ c.toNat ≤ 90) ∨ c.toNat = 95 ∨
            (97 ≤ c.toNat ∧ c.toNat ≤ 122))) = true := by
      decide
    exact of_decide_eq_true (all_eq_true.mp known c (contains_iff_mem.mp break_))
  refine ⟨code.1, code.2.1, ?_⟩
  rw [← Bool.not_eq_true, isWordChar_iff code.2.2.1]
  exact code.2.2.2

theorem isBreak_of_isGap (gap : Cursor.isGap c = true) : isBreak c = true := by
  rw [Cursor.isGap, Bool.or_eq_true, beq_iff_eq, beq_iff_eq] at gap
  rcases gap with rfl | rfl <;> decide

end Characters

section Chunks

variable {run mark other piece rest out left : List Char} {before : Option Char} {kind : Terminal}

theorem IsMark.head? (isMark : IsMark mark) : ∃ c more, mark = c :: more ∧ isBreak c = true := by
  cases isMark with
  | fixed member =>
    have known : ∀ mark ∈ fixedMarks, mark.head?.any isBreak = true := by decide
    have break_ := known mark member
    cases mark with
    | nil => cases break_
    | cons c more => exact ⟨c, more, rfl, break_⟩
  | number => exact ⟨_, _, rfl, by decide⟩
  | quoted => exact ⟨_, _, rfl, by decide⟩

theorem IsRun.head? (isRun : IsRun run) : ∃ c more, run = c :: more ∧ isNameChar c = true := by
  obtain ⟨filled, named⟩ := isRun
  cases run with
  | nil => exact absurd rfl filled
  | cons c more => exact ⟨c, more, rfl, all_eq_true.mp named c mem_cons_self⟩

theorem isRun_of_name {first : Char} {more : List Char} (letter : isLeftLetter first = true)
    (named : more.all isNameChar = true) : IsRun (first :: more) := by
  refine ⟨cons_ne_nil _ _, ?_⟩
  rw [all_cons, isNameChar_of_isLeftLetter letter, named]
  rfl

theorem IsRun.append_ne (isRun : IsRun run) (isMark : IsMark mark) : run ++ rest ≠ mark ++ out := by
  intro same
  obtain ⟨c, more, rfl, named⟩ := isRun.head?
  obtain ⟨d, others, rfl, break_⟩ := isMark.head?
  obtain ⟨rfl, _⟩ := List.cons.inj same
  rw [(isBreak_facts break_).2.1] at named
  cases named

theorem IsRun.not_isMark (isRun : IsRun run) : ¬ IsMark run := fun isMark =>
  (isRun.append_ne isMark : run ++ [] ≠ run ++ []) rfl

theorem fixedMarks_apart (member : mark ∈ fixedMarks) :
    mark ++ rest ≠ '%' :: 'd' :: out ∧ mark ++ rest ≠ '`' :: out := by
  simp only [fixedMarks, mem_cons, not_mem_nil, or_false] at member
  rcases member with rfl | rfl | rfl | rfl | rfl | rfl | rfl <;> simp

theorem IsMark.unique (isMark : IsMark mark) (also : IsMark other) (same : mark ++ rest = other ++ out) :
    mark = other ∧ rest = out := by
  cases isMark with
  | fixed member =>
    cases also with
    | fixed among =>
      have clear : ∀ one ∈ fixedMarks, ∀ other ∈ fixedMarks, one <+: other → one = other := by decide
      have equal : mark = other := by
        rcases prefix_or_prefix_of_prefix ⟨rest, rfl⟩ ⟨out, same.symm⟩ with shorter | longer
        · exact clear mark member other among shorter
        · exact (clear other among mark member longer).symm
      subst equal
      exact ⟨rfl, append_cancel_left same⟩
    | number => exact absurd same (fixedMarks_apart member).1
    | quoted => exact absurd same (fixedMarks_apart member).2
  | number filled digital =>
    cases also with
    | fixed among => exact absurd same.symm (fixedMarks_apart among).1
    | number some_ others =>
      -- Both are what a number takes from the text.
      have one := (@take?_number _ _ rest none).mpr ⟨_, filled, digital, rfl, rfl⟩
      have two := (@take?_number _ _ out none).mpr ⟨_, some_, others, rfl, same⟩
      exact Prod.mk.inj (Option.some.inj (one.symm.trans two))
    | quoted => cases (List.cons.inj same).1
  | quoted inside =>
    cases also with
    | fixed among => exact absurd same.symm (fixedMarks_apart among).2
    | number => cases (List.cons.inj same).1
    | quoted others =>
      have one := (@take?_quoted _ _ rest none).mpr ⟨_, inside, rfl, rfl⟩
      have two := (@take?_quoted _ _ out none).mpr ⟨_, others, rfl, same⟩
      exact Prod.mk.inj (Option.some.inj (one.symm.trans two))

/-- What a terminal takes is a run or a mark. -/
theorem isRun_or_isMark_of_take? {text : List Char}
    (taken : kind.spelling.take? before text = some (piece, rest)) : IsRun piece ∨ IsMark piece := by
  have words : ∀ word ∈ kind.spelling.words, (word ≠ [] ∧ word.all isNameChar = true) ∨
      word ∈ fixedMarks := by
    cases kind <;> decide
  generalize spelled : kind.spelling = spelling at taken words
  cases spelling with
  | plain word =>
    obtain ⟨rfl, _⟩ := take?_plain.mp taken
    exact (words piece mem_cons_self).imp id .fixed
  | apart fixed => exact (words piece (of_take?_apart taken).2.1).imp id .fixed
  | number =>
    obtain ⟨digits, filled, digital, rfl, _⟩ := take?_number.mp taken
    exact .inr (.number filled digital)
  | quoted =>
    obtain ⟨body, inside, rfl, _⟩ := take?_quoted.mp taken
    exact .inr (.quoted inside)
  | name =>
    obtain ⟨⟨first, more, rfl, letter, named⟩, _⟩ := take?_name.mp taken
    exact .inl (isRun_of_name letter named)

theorem looksAlike_of_startsApart (apart : StartsApart rest) : LooksAlike (left ++ rest) left := by
  cases left with
  | cons c left => exact ⟨rfl, rfl, rfl⟩
  | nil =>
    cases rest with
    | nil => exact ⟨rfl, rfl, rfl⟩
    | cons c rest =>
      obtain ⟨joining, name, word⟩ := isBreak_facts (apart c rfl)
      exact ⟨joining, name, word⟩

/-- What is taken from a run depends on the run alone. -/
theorem take?_run_iff (isRun : IsRun run) (apart : StartsApart rest) :
    kind.spelling.take? before (run ++ rest) = some (piece, out) ↔
      ∃ left, kind.spelling.take? before run = some (piece, left) ∧ out = left ++ rest := by
  constructor
  · intro taken
    have cut := take?_append taken
    rcases isRun_or_isMark_of_take? taken with ⟨_, named⟩ | isMark
    · have foreign : ∀ c, rest.head? = some c → c ∉ piece := by
        intro c starts inside
        have name := all_eq_true.mp named c inside
        rw [(isBreak_facts (apart c starts)).2.1] at name
        cases name
      obtain ⟨left, rfl, rfl⟩ := (append_eq_append_of_head foreign).mp cut
      rw [append_assoc] at taken
      exact ⟨left, take?_of_looksAlike taken (looksAlike_of_startsApart apart), rfl⟩
    · exact absurd cut (isRun.append_ne isMark)
  · rintro ⟨left, taken, rfl⟩
    obtain rfl := take?_append taken
    rw [append_assoc]
    exact take?_of_looksAlike taken (looksAlike_of_startsApart apart).symm

theorem IsMark.eq_of_take? (isMark : IsMark mark)
    (taken : kind.spelling.take? before (mark ++ rest) = some (piece, out)) :
    piece = mark ∧ out = rest := by
  have cut := take?_append taken
  rcases isRun_or_isMark_of_take? taken with isRun | also
  · exact absurd cut.symm (isRun.append_ne isMark)
  · exact also.unique isMark cut.symm

end Chunks

end LeftHand
