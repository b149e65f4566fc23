import LeftHand.Proofs.Format.Respaced

/-!
A stretch of text is read alike wherever it stands, as long as what surrounds it looks alike.
-/

namespace LeftHand

variable {out : List Char}

theorem LooksAlike.append {other : List Char} (alike : LooksAlike out other) (text : List Char) :
    LooksAlike (text ++ out) (text ++ other) := by
  cases text with
  | nil => exact alike
  | cons c text => exact ⟨rfl, rfl, rfl⟩

section Elsewhere

variable {form : Form} {here there next last : Cursor} {derivation : Derivation} {kind : Terminal}
  {token : Token} {text other : List Char}

theorem Cursor.LeadsTo.ends_before (leads : here.LeadsTo there)
    (ends : ∃ left, there.rest = left ++ out) : ∃ left, here.rest = left ++ out := by
  obtain ⟨text, rest, cut, rfl⟩ := leads
  obtain ⟨left, same⟩ := ends
  refine ⟨text ++ left, ?_⟩
  rw [cut, show rest = left ++ out from same, List.append_assoc]

theorem Cursor.LeadsTo.eq_of_rest (leads : here.LeadsTo there) (also : here.LeadsTo last)
    (same : there.rest = last.rest) : there = last := by
  apply leads.eq_of_place also
  have first := leads.place_add_length
  have second := also.place_add_length
  rw [same] at first
  omega

/-- A stretch of text behind one place stands behind another one, with alike surroundings. -/
structure Cursor.Shares (here next : Cursor) (text out other : List Char) : Prop where
  rest : here.rest = text ++ out
  again : next.rest = text ++ other
  joins : here.before.any isJoining = next.before.any isJoining
  alike : LooksAlike out other

theorem Cursor.Shares.symm (shares : here.Shares next text out other) :
    next.Shares here text other out :=
  ⟨shares.again, shares.rest, shares.joins.symm, shares.alike.symm⟩

/-- A token that ends with the stretch, or before, is taken at the other place, too. -/
theorem Cursor.Shares.take (shares : here.Shares next text out other)
    (taken : here.take? kind = some (token, there)) (ends : ∃ left, there.rest = left ++ out) :
    ∃ found last, next.take? kind = some (found, last) ∧ found.unplaced = token.unplaced ∧
      ∃ left, there.Shares last left out other := by
  obtain ⟨gap, piece, rest, isGap, cut, spelled, rfl, rfl⟩ := take?_iff.mp taken
  obtain ⟨left, rfl⟩ := ends
  -- The stretch is the gap, the piece and what is left of it.
  obtain rfl : text = gap ++ (piece ++ left) := by
    have whole := shares.rest.symm.trans cut
    simp only [← List.append_assoc] at whole
    rw [List.append_cancel_right whole, List.append_assoc]
  have spelled := take?_of_looksAlike spelled (shares.alike.append left)
  have joins : (gap.getLast?.or here.before).any isJoining =
      (gap.getLast?.or next.before).any isJoining := by
    cases gap.getLast? with
    | none => exact shares.joins
    | some => rfl
  rw [take?_before joins] at spelled
  have again : next.rest = gap ++ (piece ++ (left ++ other)) := by
    rw [shares.again]
    simp
  exact ⟨_, _, take?_iff.mpr ⟨gap, piece, left ++ other, isGap, again, spelled, rfl, rfl⟩, rfl, left,
    ⟨rfl, rfl, rfl, shares.alike⟩⟩

/-- What a stretch of text is read as, it is read as at the other place, too. -/
theorem Derives.moved (derived : Derives form here derivation there)
    (shares : here.Shares next text out other) (ends : there.rest = out) :
    ∃ again last, Derives form next again last ∧ again.unplaced = derivation.unplaced ∧
      last.rest = other := by
  obtain ⟨again, last, found, ⟨left, onward⟩, same⟩ := derived.simulates
    (fun here next => ∃ text, here.Shares next text out other) ⟨text, shares⟩ .refl
    fun ⟨_, shares⟩ taken leads => shares.take taken (leads.ends_before ⟨[], ends⟩)
  have none : left = [] := by simpa [ends] using onward.rest
  refine ⟨again, last, found, ?_, ?_⟩
  · rw [Derivation.unplaced_eq, Derivation.unplaced_eq]
    exact (same _ _ fun _ _ image => image.symm).symm
  · rw [onward.again, none, List.nil_append]

/-- If a stretch can also be read as several phrases at one place, it can be at the other one. -/
theorem DerivesAll.moved {out : List Char} {one two : Derivation} {values : List Derivation}
    (all : DerivesAll form here values there) (shares : here.Shares next text out other)
    (ends : there.rest = out) (alsoEnds : last.rest = other) (first : Derives form here one there)
    (second : Derives form next two last) (same : two.unplaced = one.unplaced) (differ : values ≠ [one]) :
    ∃ others, DerivesAll form next others last ∧ others ≠ [two] := by
  have row := derives_many.mpr ⟨values, rfl, all⟩
  obtain ⟨_, stop, moved, alike, rest⟩ := row.moved shares ends
  obtain ⟨others, rfl, found⟩ := derives_many.mp moved
  obtain rfl := moved.leadsTo.eq_of_rest second.leadsTo (rest.trans alsoEnds.symm)
  refine ⟨others, found, ?_⟩
  rintro rfl
  -- Rows that are alike are one row.
  apply differ
  apply Derivation.row_injective
  have single : Derives (.many form) here (.row [one]) there :=
    derives_many.mpr ⟨[one], rfl, .cons first .nil⟩
  refine row.eq_of_unplaced single (alike.symm.trans ?_)
  show Derivation.seq .empty two.unplaced = Derivation.seq .empty one.unplaced
  rw [same]

end Elsewhere

end LeftHand
