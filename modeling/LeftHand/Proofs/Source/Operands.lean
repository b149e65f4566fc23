import LeftHand.Proofs.Source.Names

/-! Readings of operands: names, addresses, calls, dereferences and reversals. -/

namespace LeftHand

open List

/-- Words at which no operand starts. -/
def NoOperand (after : List (List Char)) : Prop :=
  ∀ word more, after = word :: more → (Form.phrase .factor).refuses word = true

section Names

variable {stop : Cursor → Prop} {keep : Bool} {name : List Char} {rest : List (List Char)}

theorem NoOperand.rejects (none : NoOperand rest) : Rejects stop (.phrase .factor) rest := by
  cases rest with
  | nil => exact rejects_nil rfl
  | cons word more => exact rejects_of_refuses (none word more rfl)

theorem NoOperand.not_starts (none : NoOperand rest) {here : Cursor} (faces : here.Faces rest) :
    ¬ here.Starts [.parenStart] := by
  cases rest with
  | nil =>
    rintro ⟨_, _, _, taken⟩
    rw [faces.take?_nil] at taken
    cases taken
  | cons word more =>
    have refused := none word more rfl
    rw [Form.refuses, Bool.and_eq_true, all_eq_true] at refused
    refine LeftHand.not_starts (all_eq_true.mpr fun kind member => refused.2 kind ?_) faces
    rw [mem_singleton.mp member]
    decide

/-- A name that starts with the word of a call is no call, if no parenthesis follows. -/
theorem rejects_execExpr (isName : IsName name) (none : NoOperand rest) :
    Rejects stop (.phrase .execExpr) (name :: rest) := by
  refine .phrase ?_
  rintro here faces ⟨_, there, derived, ends⟩
  have solid : AllSolid rest :=
    fun word inside => faces.solid word (mem_cons_of_mem _ inside)
  cases derived with
  | seq keyword behind =>
    cases keyword with
    | token taken =>
      obtain ⟨piece, tail, found, _, rfl⟩ := faces.take?_iff.mp taken
      obtain ⟨rfl, cut⟩ := take?_plain.mp found
      -- The word of a call is no name, so there is more of the name.
      have filled : tail ≠ [] := by
        rintro rfl
        rw [cut] at isName
        exact absurd isName (by decide)
      have named : tail.all isNameChar = true := all_eq_true.mpr fun c inside =>
        all_eq_true.mp isName.all_isNameChar c (cut ▸ mem_append_right _ inside)
      cases behind with
      | seq called behind =>
        cases called with
        | token taken =>
          obtain ⟨piece, left, found, rfl⟩ := Cursor.take?_inside filled named rfl taken
          obtain ⟨_, split, ended, _⟩ := take?_name.mp found
          -- The called name goes on to the end of the word.
          have empty : left = [] := by
            cases left with
            | nil => rfl
            | cons c left =>
              have more := all_eq_true.mp named c (split ▸ by simp)
              rw [head?_cons, Option.any_some, more] at ended
              cases ended
          rw [empty, nil_append] at behind
          have leads : Leads _ stop _ := ⟨_, there, behind, ends⟩
          exact none.not_starts (Cursor.faces_after solid) (leads.starts rfl)

theorem take?_at (kind : Terminal) (text : List Char) :
    kind.spelling.take? (some '@') ('@' :: text) = none := by
  cases kind <;> rfl

theorem IsName.head?_of_neg {tail : List Char} (isName : IsName (['s', 'f', '@'] ++ tail)) :
    tail = [] ∨ ∃ more, tail = '@' :: more := by
  cases tail with
  | nil => exact .inl rfl
  | cons c tail =>
    have free := (isName_iff.mp isName).2
    have named := all_eq_true.mp isName.all_isNameChar c (by simp)
    -- A letter or a digit would make the mark end at a word boundary.
    have apart : isWordChar c = false := by
      rw [← Bool.not_eq_true] at free ⊢
      intro joins
      refine free (startsReserved_iff.mpr ⟨['s', 'f', '@'], by decide, c :: tail, rfl, ?_⟩)
      change isWordBoundary (some '@') (some c) = true
      have mark : isWordChar '@' = false := by
        rw [← Bool.not_eq_true, isWordChar_iff (by decide)]
        decide
      rw [isWordBoundary, Option.any_some, Option.any_some, joins, mark]
      rfl
    refine .inr ⟨tail, ?_⟩
    have code : c = Char.ofNat c.toNat := (Char.ofNat_toNat c).symm
    rw [isNameChar_iff, isLeftLetter_iff] at named
    rw [← Bool.not_eq_true, isWordChar_iff (by omega)] at apart
    have isAt : c.toNat = 64 := by omega
    rw [code, isAt]

/-- A name that starts with the mark of a negation is no negation, if no operand follows. -/
theorem rejects_negExpr (isName : IsName name) (none : NoOperand rest) :
    Rejects stop (.phrase .negExpr) (name :: rest) := by
  refine .phrase ?_
  rintro here faces ⟨_, there, derived, ends⟩
  cases derived with
  | seq keyword behind =>
    cases keyword with
    | token taken =>
      obtain ⟨piece, tail, found, _, rfl⟩ := faces.take?_iff.mp taken
      obtain ⟨rfl, cut⟩ := take?_plain.mp found
      have named : tail.all isNameChar = true := all_eq_true.mpr fun c inside =>
        all_eq_true.mp isName.all_isNameChar c (cut ▸ mem_append_right _ inside)
      rw [cut] at isName
      rcases isName.head?_of_neg with rfl | ⟨more, rfl⟩
      · -- The name is the mark itself, and the next word is no operand.
        have behind_faces := @Cursor.faces_after here.skipGap ['s', 'f', '@'] rest
          fun word inside => faces.solid word (mem_cons_of_mem _ inside)
        exact none.rejects _ behind_faces ⟨_, there, behind, ends⟩
      · have leads : Leads _ stop _ := ⟨_, there, behind, ends⟩
        obtain ⟨kind, _, ⟨token, last⟩, taken⟩ := leads.starts rfl
        obtain ⟨_, _, found, _⟩ := Cursor.take?_inside (cons_ne_nil _ _) named rfl taken
        change Spelling.take? (some '@') ('@' :: more) kind.spelling = _ at found
        rw [take?_at] at found
        cases found

/-- A name is read as an operand where no operand follows it. -/
theorem Reads.nameExpr (isName : IsName name) (none : NoOperand rest) :
    Reads stop keep (.phrase .factor) (name :: rest) [.expr (.name .start ⟨.start, .ofList name⟩)]
      rest := by
  have plain : Reads stop false (.phrase .nameExpr) (name :: rest)
      [.expr (.name .start ⟨.start, .ofList name⟩)] rest := by
    refine Reads.phrase .nameExpr (.seq (.right .empty (rejects_of_refuses ?_)) (.named isName)) rfl nofun
    exact isName.onlyFor.refuses (by decide)
  refine Reads.phrase .factor (plain.oneOf (by decide) ?_) rfl nofun
  intro form inside
  by_cases avoids : form.avoids nameTakers = true
  · exact rejects_of_refuses (isName.onlyFor.refuses avoids)
  · have either : form = .phrase .execExpr ∨ form = .phrase .negExpr := by
      revert avoids inside
      revert form
      decide
    rcases either with rfl | rfl
    · exact rejects_execExpr isName none
    · exact rejects_negExpr isName none

end Names

section Operands

variable {stop : Cursor → Prop} {keep : Bool} {rest words : List (List Char)} {value : Expr}

theorem Reads.addressOf {name : List Char} (isName : IsName name) :
    Reads stop keep (.phrase .factor) (['a', 'd', 'd', 'r'] :: name :: rest)
      [.expr (.addressOf .start ⟨.start, .ofList name⟩)] rest := by
  have addressed : Reads stop false (.phrase .nameExpr) (['a', 'd', 'd', 'r'] :: name :: rest)
      [.expr (.addressOf .start ⟨.start, .ofList name⟩)] rest := by
    refine Reads.phrase .nameExpr (.seq (.left (.shown rfl rfl) ?_) (.named isName)) rfl nofun
    -- The word of an address is no name.
    rintro here faces ⟨_, there, derived, leads⟩
    cases derived
    exact not_starts (by decide) faces (leads.starts rfl)
  exact Reads.phrase .factor (addressed.choose (by decide) (by decide)) rfl nofun

section

variable (operand : Reads stop false (.phrase .factor) words [.expr value] rest)

include operand

theorem Reads.derefExpr :
    Reads stop keep (.phrase .derefExpr) (['#'] :: words) [.expr (.deref .start value)] rest :=
  Reads.phrase .derefExpr (.seq (.shown rfl rfl) operand) rfl nofun

theorem Reads.deref :
    Reads stop keep (.phrase .factor) (['#'] :: words) [.expr (.deref .start value)] rest :=
  Reads.phrase .factor (operand.derefExpr.choose (by decide) (by decide)) rfl nofun

theorem Reads.rev (placed : value.pos = .start) :
    Reads stop keep (.phrase .factor) (['r', 'e', 'v'] :: words) [.expr (.rev .start value)] rest := by
  have reversed : Reads stop false (.phrase .revExpr) (['r', 'e', 'v'] :: words)
      [.expr (.rev .start value)] rest := by
    refine Reads.phrase .revExpr (.seq (.hidden rfl rfl) operand) ?_ nofun
    rw [← placed]
    rfl
  exact Reads.phrase .factor (reversed.choose (by decide) (by decide)) rfl nofun

end

theorem Reads.exec {name : List Char} (isName : IsName name) {values : List Expr}
    (arguments : Reads (Cursor.Starts [.parenEnd]) false (.many (.phrase .expr))
      (words ++ ['!', 'e'] :: rest) (values.map .expr) (['!', 'e'] :: rest)) :
    Reads stop keep (.phrase .factor)
      (['e', 'x', 'e', 'c'] :: name :: ['%', 'e'] :: (words ++ ['!', 'e'] :: rest))
      [.expr (.exec .start ⟨.start, .ofList name⟩ values)] rest := by
  have called : Reads stop false (.phrase .execExpr)
      (['e', 'x', 'e', 'c'] :: name :: ['%', 'e'] :: (words ++ ['!', 'e'] :: rest))
      [.expr (.exec .start ⟨.start, .ofList name⟩ values)] rest := by
    refine Reads.phrase .execExpr (.seq (.hidden rfl rfl) (.seq (.named isName) (.seq (.hidden rfl rfl)
      (.seq (arguments.mono ?_) (.hidden rfl rfl))))) ?_ nofun
    · intro there leads
      exact leads.starts rfl
    · rw [List.append_nil]
      exact (Rule.Forms.exec _ values).construct
  exact Reads.phrase .factor (called.choose (by decide) (by decide)) rfl nofun

end Operands

end LeftHand
