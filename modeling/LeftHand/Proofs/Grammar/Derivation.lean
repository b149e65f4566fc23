import LeftHand.Grammar.Derivation
import LeftHand.Proofs.Grammar.Cursor

/-! Derivations and the text that they stand for. -/

namespace LeftHand

/-- Whether a phrase can stand for no text at all. -/
def Rule.isNullable (rule : Rule) : Bool :=
  rule == .params

/-- Whether a form can stand for no text at all. -/
def Form.isNullable : Form → Bool
  | empty | many _ => true
  | token _ => false
  | phrase rule => rule.isNullable
  | seq first second => first.isNullable && second.isNullable
  | alt left right => left.isNullable || right.isNullable

theorem Rule.isNullable_body (rule : Rule) : rule.body.isNullable = rule.isNullable := by
  cases rule <;> rfl

namespace Derives

variable {form other item : Form} {here middle there last : Cursor} {derivation : Derivation}

variable (derived : Derives form here derivation there)

include derived

theorem leadsTo : here.LeadsTo there := by
  induction derived with
  | empty | none => exact .refl
  | token taken => exact Cursor.leadsTo_of_take? taken
  | phrase _ ih | left _ ih | right _ ih => exact ih
  | seq _ _ before behind | more _ _ before behind => exact before.trans behind

theorem place_lt (solid : form.isNullable = false) : here.place < there.place := by
  induction derived with
  | empty | none | more => cases solid
  | token taken => exact Cursor.place_lt_of_take? taken
  | phrase _ ih => exact ih ((Rule.isNullable_body _).trans solid)
  | seq before behind first second =>
    -- One of the two leads on, and the other one never leads back.
    rw [Form.isNullable, Bool.and_eq_false_iff] at solid
    rcases solid with solid | solid
    · exact Nat.lt_of_lt_of_le (first solid) behind.leadsTo.place_le
    · exact Nat.lt_of_le_of_lt before.leadsTo.place_le (second solid)
  | left _ ih => exact ih (Bool.or_eq_false_iff.mp solid).1
  | right _ ih => exact ih (Bool.or_eq_false_iff.mp solid).2

/-- A derivation says where it ends, whatever the form that it derives. -/
theorem end_eq (again : Derives other here derivation last) : there = last := by
  induction derived generalizing other last with
  | empty | none => cases again <;> rfl
  | token taken =>
    cases again with
    | token also =>
      -- The token names its terminal, and a terminal takes one piece only.
      obtain rfl := (Cursor.kind_of_take? taken).symm.trans (Cursor.kind_of_take? also)
      cases taken.symm.trans also
      rfl
  | phrase _ ih =>
    cases again with
    | phrase derived => exact ih derived
  | left _ ih =>
    cases again with
    | left derived => exact ih derived
  | right _ ih =>
    cases again with
    | right derived => exact ih derived
  | seq _ _ first second | more _ _ first second =>
    cases again with
    | seq before behind =>
      obtain rfl := first before
      exact second behind
    | more before behind =>
      obtain rfl := first before
      exact second behind

end Derives

section Inversion

variable {first second : Form} {here there : Cursor} {derivation : Derivation}

theorem derives_token {kind : Terminal} : Derives (.token kind) here derivation there ↔
    ∃ token, derivation = .token token ∧ here.take? kind = some (token, there) := by
  constructor
  · intro derived
    cases derived with
    | token taken => exact ⟨_, rfl, taken⟩
  · rintro ⟨token, rfl, taken⟩
    exact .token taken

namespace Derives

theorem of_phrase {rule : Rule} (derived : Derives (.phrase rule) here derivation there) :
    ∃ body, derivation = .phrase rule body ∧ Derives rule.body here body there := by
  cases derived with
  | phrase derived => exact ⟨_, rfl, derived⟩

theorem of_seq (derived : Derives (.seq first second) here derivation there) :
    ∃ one two middle, derivation = .seq one two ∧ Derives first here one middle ∧
      Derives second middle two there := by
  cases derived with
  | seq before behind => exact ⟨_, _, _, rfl, before, behind⟩

theorem of_alt (derived : Derives (.alt first second) here derivation there) :
    (∃ chosen, derivation = .left chosen ∧ Derives first here chosen there) ∨
      ∃ chosen, derivation = .right chosen ∧ Derives second here chosen there := by
  cases derived with
  | left derived => exact .inl ⟨_, rfl, derived⟩
  | right derived => exact .inr ⟨_, rfl, derived⟩

end Derives

end Inversion

/-- The derivations of items one after the other, from left to right. -/
inductive DerivesAll (item : Form) : Cursor → List Derivation → Cursor → Prop where
  | nil {here} : DerivesAll item here [] here
  | cons {here middle there first items} (derived : Derives item here first middle)
      (onward : DerivesAll item middle items there) : DerivesAll item here (first :: items) there

section Rows

variable {item : Form} {here middle there : Cursor} {derivation : Derivation}
  {items more : List Derivation}

/-- The derivation of repeated items that is made of these. -/
def Derivation.row (items : List Derivation) : Derivation :=
  items.foldl .seq .empty

theorem Derivation.row_concat (items : List Derivation) (last : Derivation) :
    row (items ++ [last]) = .seq (row items) last := by
  simp [row]

theorem Derivation.row_injective {one other : List Derivation} (same : row one = row other) :
    one = other := by
  -- Read from the last item on, a row is a list.
  have unwind : ∀ one other : List Derivation,
      one.foldr (fun last row => .seq row last) .empty =
        other.foldr (fun last row => Derivation.seq row last) .empty → one = other := by
    intro one
    induction one with
    | nil =>
      intro other same
      cases other with
      | nil => rfl
      | cons => cases same
    | cons last one ih =>
      intro other same
      cases other with
      | nil => cases same
      | cons otherLast other =>
        obtain ⟨rows, rfl⟩ := Derivation.seq.inj same
        rw [ih other rows]
  rw [row, row, List.foldl_eq_foldr_reverse, List.foldl_eq_foldr_reverse] at same
  exact List.reverse_inj.mp (unwind _ _ same)

theorem DerivesAll.concat {last : Derivation} (derived : DerivesAll item here items middle)
    (behind : Derives item middle last there) : DerivesAll item here (items ++ [last]) there := by
  induction derived with
  | nil => exact .cons behind .nil
  | cons derived _ ih => exact .cons derived (ih behind)

theorem derives_many : Derives (.many item) here derivation there ↔
    ∃ items, derivation = .row items ∧ DerivesAll item here items there := by
  constructor
  · intro derived
    generalize repeated : Form.many item = form at derived
    induction derived with
    | empty | token | phrase | seq | left | right => cases repeated
    | none => exact ⟨[], rfl, .nil⟩
    | more _ behind ih _ =>
      cases repeated
      obtain ⟨items, rfl, derived⟩ := ih rfl
      exact ⟨items ++ [_], (Derivation.row_concat _ _).symm, derived.concat behind⟩
  · rintro ⟨items, rfl, derived⟩
    -- Each item is put behind what has been derived so far.
    have gather : ∀ {start sofar}, Derives (.many item) start sofar here →
        Derives (.many item) start (items.foldl .seq sofar) there := by
      induction derived with
      | nil => exact id
      | cons derived _ ih => exact fun sofar => ih (.more sofar derived)
    exact gather .none

end Rows

end LeftHand
