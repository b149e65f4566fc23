import LeftHand.Proofs.Grammar.Terminal

/-! Places of one text in order: taking a token leads on to a later place. -/

namespace LeftHand

open List

namespace Cursor

variable {here middle there other : Cursor} {piece more rest : List Char}

/-- A place lies here or further on in the same text. -/
def LeadsTo (here there : Cursor) : Prop :=
  ∃ piece rest, here.rest = piece ++ rest ∧ there = here.after piece rest

@[simp] theorem after_nil : here.after [] here.rest = here := by
  simp [after]

theorem after_after : (here.after piece (more ++ rest)).after more rest =
    here.after (piece ++ more) rest := by
  simp [after, getLast?_append, Option.or_assoc, Nat.add_assoc]

namespace LeadsTo

theorem refl : here.LeadsTo here :=
  ⟨[], here.rest, rfl, after_nil.symm⟩

theorem trans (leads : here.LeadsTo middle) (onward : middle.LeadsTo there) :
    here.LeadsTo there := by
  obtain ⟨piece, behind, cut, rfl⟩ := leads
  obtain ⟨more, rest, again, rfl⟩ := onward
  -- The second piece is cut from what the first one left.
  obtain rfl : behind = more ++ rest := again
  exact ⟨piece ++ more, rest, by simp [cut], after_after⟩

variable (leads : here.LeadsTo there)

include leads

/-- All places of a text have the same distance from the end of the text. -/
theorem place_add_length : there.place + there.rest.length = here.place + here.rest.length := by
  obtain ⟨piece, rest, cut, rfl⟩ := leads
  simp [after, cut, Nat.add_assoc]

theorem place_le : here.place ≤ there.place := by
  obtain ⟨piece, rest, _, rfl⟩ := leads
  exact Nat.le_add_right _ _

/-- The number of characters before a place says which one it is. -/
theorem eq_of_place (also : here.LeadsTo other) (same : there.place = other.place) :
    there = other := by
  obtain ⟨piece, rest, cut, rfl⟩ := leads
  obtain ⟨more, behind, again, rfl⟩ := also
  -- Both cut the same text, and after the same number of characters.
  have lengths : piece.length = more.length := Nat.add_left_cancel same
  obtain ⟨rfl, rfl⟩ := append_inj (cut.symm.trans again) lengths
  rfl

end LeadsTo

theorem leadsTo_skipGap : here.LeadsTo here.skipGap :=
  ⟨_, _, takeWhile_append_dropWhile.symm, rfl⟩

/-- A token is what its terminal takes behind the gap. -/
theorem take?_eq_some {kind : Terminal} {token : Token} : here.take? kind = some (token, there) ↔
    ∃ piece rest, kind.spelling.take? here.skipGap.before here.skipGap.rest = some (piece, rest) ∧
      token = ⟨kind, piece, here.skipGap.place⟩ ∧ there = here.skipGap.after piece rest := by
  simp only [take?, Option.map_eq_some_iff, Prod.exists, Prod.mk.injEq]
  constructor
  · rintro ⟨piece, rest, taken, rfl, rfl⟩
    exact ⟨piece, rest, taken, rfl, rfl⟩
  · rintro ⟨piece, rest, taken, rfl, rfl⟩
    exact ⟨piece, rest, taken, rfl, rfl⟩

/-- A piece does not end in a gap. -/
theorem exists_last {kind : Terminal} {before : Option Char} {text : List Char}
    (taken : kind.spelling.take? before text = some (piece, rest)) :
    ∃ last, piece.getLast? = some last ∧ isGap last = false := by
  rcases Terminal.take?_cases taken with ⟨_, body, _, rfl⟩ | ⟨filled, all⟩
  · exact ⟨'`', getLast?_concat .., by decide⟩
  · refine ⟨piece.getLast filled, getLast?_eq_some_getLast filled, ?_⟩
    have typed := all_eq_true.mp all _ (getLast_mem filled)
    rw [isLeftHand_iff, isLeftLetter_iff] at typed
    rw [← Bool.not_eq_true, isGap_iff]
    omega

variable {kind : Terminal} {token : Token}

variable (taken : here.take? kind = some (token, there))

include taken

theorem leadsTo_of_take? : here.LeadsTo there := by
  obtain ⟨piece, rest, found, _, rfl⟩ := take?_eq_some.mp taken
  exact leadsTo_skipGap.trans ⟨piece, rest, take?_append found, rfl⟩

theorem place_lt_of_take? : here.place < there.place := by
  obtain ⟨piece, rest, found, _, rfl⟩ := take?_eq_some.mp taken
  obtain ⟨last, ends, _⟩ := exists_last found
  have filled : 0 < piece.length := length_pos_iff.mpr fun empty => by
    rw [empty] at ends
    cases ends
  have gap : here.place ≤ here.skipGap.place := leadsTo_skipGap.place_le
  change here.place < here.skipGap.place + piece.length
  omega

theorem before_of_take? : ∃ last, there.before = some last ∧ isGap last = false := by
  obtain ⟨piece, rest, found, _, rfl⟩ := take?_eq_some.mp taken
  obtain ⟨last, ends, solid⟩ := exists_last found
  exact ⟨last, by simp [after, ends], solid⟩

theorem kind_of_take? : token.kind = kind := by
  obtain ⟨_, _, _, rfl, _⟩ := take?_eq_some.mp taken
  rfl

end Cursor

end LeftHand
