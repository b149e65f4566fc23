import LeftHand.Ast.Outline
import LeftHand.Proofs.Grammar.Terminal
import LeftHand.Proofs.Text.Quoted
import Mathlib

/-!
Outlines can be read back: data of the shape that nodes demand have one outline each.

A label shows the kind of a node and its place, and the labels below it show its fields. The items
of a list stand among the fields without a mark of their own, so which of them they are is known
only because a node has at most one list, at a place that its kind fixes.
-/

namespace LeftHand

open List

variable {one other : Datum}

/-- The position of the field of a kind that is a list. -/
def NodeKind.listField? : NodeKind → Option Nat
  | program | block => some 0
  | exec => some 1
  | function | branch => some 2
  | _ => none

/-- The fields of a node of a kind, and what they are with the items of the list among them instead
of the list. -/
inductive NodeKind.Splices (kind : NodeKind) : List Datum → List Datum → Prop where
  | plain {values} (noList : kind.listField? = none) : Splices kind values values
  | listed (front items back : List Datum) (before : kind.listField? = some front.length)
      (behind : front.length + 1 + back.length = kind.fields.length) :
      Splices kind (front ++ .list items :: back) (front ++ items ++ back)

/-- Data whose nodes have a list exactly in the field of their kind that is one. -/
inductive Datum.Shaped : Datum → Prop where
  | null : Shaped .null
  | bool {value} : Shaped (.bool value)
  | int {value} : Shaped (.int value)
  | text {value} : Shaped (.text value)
  | node {kind pos values parts} (splices : kind.Splices values parts)
      (each : ∀ part ∈ parts, Shaped part) : Shaped (.node kind pos values)

section Labels

/-- The place that the label of a datum shows. -/
def Datum.shownPlace : Datum → String
  | .node _ pos _ => toString pos.line ++ " " ++ toString pos.column
  | _ => " "

/-- What stands below the label of a datum. -/
def Datum.shownBelow : Datum → List Outline
  | .node _ _ values => fieldOutlines values
  | datum => [.mk ("[red]" ++ datum.written ++ "[/red]") []]

theorem Datum.outline_eq (datum : Datum) : datum.outline =
    .mk (datum.typeName ++ (": [yellow]" ++ datum.shownPlace ++ "[/yellow]")) datum.shownBelow := by
  cases datum <;> simp [outline, plainOutline, typeName, shownPlace, shownBelow, String.append_assoc]

/-- A label shows the name of a type before its first colon, and a place between two marks. -/
theorem Datum.of_outline_eq (same : one.outline = other.outline) :
    one.typeName = other.typeName ∧ one.shownPlace = other.shownPlace ∧
      one.shownBelow = other.shownBelow := by
  have noColon (datum : Datum) : datum.typeName.toList.all (· != ':') = true := by
    cases datum with
    | node kind =>
      rw [typeName]
      cases kind <;> decide
    | _ =>
      rw [typeName]
      decide
  rw [outline_eq, outline_eq] at same
  obtain ⟨label, below⟩ := Outline.mk.inj same
  have chars := congrArg String.toList label
  simp only [String.toList_append] at chars
  obtain ⟨name, rest⟩ := cut_unique (noColon one) (noColon other) rfl rfl chars
  refine ⟨String.toList_inj.mp name, String.toList_inj.mp ?_, below⟩
  simpa using rest

theorem Pos.of_shown_eq {one other : Pos}
    (same : toString one.line ++ " " ++ toString one.column =
      toString other.line ++ " " ++ toString other.column) : one = other := by
  have solid (n : Nat) : n.repr.toList.all (· != ' ') = true := by
    rw [Nat.toList_repr, all_eq_true]
    intro c member
    have digit := Nat.isDigit_of_mem_toDigits (by decide) (by decide) member
    rw [bne_iff_ne]
    rintro rfl
    cases digit
  have noSpace (n : Int) : n.repr.toList.all (· != ' ') = true := by
    rw [Int.repr_eq_if]
    split
    · exact solid _
    · rw [String.toList_append, all_append, solid]
      rfl
  have chars := congrArg String.toList same
  simp only [String.append_assoc, String.toList_append] at chars
  obtain ⟨line, rest⟩ := cut_unique (noSpace _) (noSpace _) rfl rfl chars
  have lines := Int.repr_inj.mp (String.toList_inj.mp line)
  have columns : one.column.repr = other.column.repr := String.toList_inj.mp (by simpa using rest)
  cases one
  cases other
  simp_all [Int.repr_inj]

/-- The name of a type is that of a kind of node exactly for nodes. -/
theorem Datum.ofLabel?_typeName (datum : Datum) : NodeKind.ofLabel? datum.typeName = datum.kind? := by
  cases datum with
  | node kind =>
    rw [typeName, kind?]
    cases kind <;> decide
  | _ =>
    simp only [typeName, kind?]
    decide

end Labels

section Fields

variable {kind : NodeKind} {values others parts : List Datum}

theorem Datum.itemOutlines_eq_map (items : List Datum) : itemOutlines items = items.map outline := by
  induction items with
  | nil => rfl
  | cons item items ih => rw [itemOutlines, ih, map_cons]

theorem Datum.fieldOutlines_append (front back : List Datum) :
    fieldOutlines (front ++ back) = fieldOutlines front ++ fieldOutlines back := by
  induction front with
  | nil => rfl
  | cons value front ih => cases value <;> simp [fieldOutlines, ih]

/-- A field that has the shape of a datum is no list, and has a label of its own. -/
theorem Datum.fieldOutlines_eq_map (each : ∀ value ∈ values, value.Shaped) :
    fieldOutlines values = values.map outline := by
  induction values with
  | nil => rfl
  | cons value values ih =>
    rw [forall_mem_cons] at each
    rw [map_cons, ← ih each.2]
    cases each.1 <;> rfl

theorem NodeKind.Splices.fieldOutlines (splices : kind.Splices values parts)
    (each : ∀ part ∈ parts, part.Shaped) : Datum.fieldOutlines values = parts.map Datum.outline := by
  cases splices with
  | plain => exact Datum.fieldOutlines_eq_map each
  | listed front items back =>
    simp only [forall_mem_append] at each
    rw [Datum.fieldOutlines_append, Datum.fieldOutlines, Datum.itemOutlines_eq_map,
      Datum.fieldOutlines_eq_map each.1.1, Datum.fieldOutlines_eq_map each.2, map_append, map_append,
      append_assoc]

/-- The kind fixes how many fields stand before the list and behind it. -/
theorem NodeKind.Splices.unique (splices : kind.Splices values parts) (also : kind.Splices others parts) :
    values = others := by
  generalize given : parts = inner at also
  cases splices with
  | plain noList =>
    cases also with
    | plain => exact given
    | listed _ _ _ before => simp [noList] at before
  | listed front items back before behind =>
    cases also with
    | plain noList => simp [noList] at before
    | listed front' items' back' before' behind' =>
      have fronts : front.length = front'.length := Option.some.inj (before.symm.trans before')
      obtain ⟨ahead, rfl⟩ := append_inj' given (by omega)
      obtain ⟨rfl, rfl⟩ := append_inj ahead fronts
      rfl

/-- Plain values of one type are told apart by how they are written. -/
theorem Datum.Shaped.eq_of_written_eq (shaped : one.Shaped) (also : other.Shaped)
    (isPlain : one.kind? = none) (isPlainToo : other.kind? = none)
    (name : one.typeName = other.typeName) (same : one.written = other.written) : one = other := by
  cases shaped with
  | node => cases isPlain
  | @bool value =>
    cases value <;> cases also with
    | @bool value' => cases value' <;> simp_all [written]
    | _ => simp_all [typeName, kind?]
  | _ => cases also <;> simp_all [typeName, written, kind?, Int.repr_inj, quoteText_injective.eq_iff]

theorem Datum.shownBelow_of_plain {datum : Datum} (isPlain : datum.kind? = none) :
    datum.shownBelow = [.mk ("[red]" ++ datum.written ++ "[/red]") []] := by
  cases datum with
  | node => cases isPlain
  | _ => rfl

/-- What tells each item of one list apart tells lists apart. -/
theorem eq_of_map_eq {α β : Type} {f : α → β} {holds : α → Prop} {one other : List α}
    (apart : ∀ a ∈ one, ∀ b, holds b → f a = f b → a = b) (each : ∀ b ∈ other, holds b)
    (same : one.map f = other.map f) : one = other := by
  have length : one.length = other.length := by simpa using congrArg List.length same
  refine List.ext_getElem length fun i inside insideToo => ?_
  refine apart _ (getElem_mem inside) _ (each _ (getElem_mem insideToo)) ?_
  simpa [inside, insideToo] using congrArg (·[i]?) same

/-- Data of the demanded shape have one outline each. -/
theorem Datum.Shaped.eq_of_outline_eq (shaped : one.Shaped) (also : other.Shaped)
    (same : one.outline = other.outline) : one = other := by
  have kinds {one other : Datum} (same : one.outline = other.outline) : one.kind? = other.kind? := by
    rw [← ofLabel?_typeName, (of_outline_eq same).1, ofLabel?_typeName]
  have plain {one other : Datum} (shaped : one.Shaped) (also : other.Shaped) (isPlain : one.kind? = none)
      (same : one.outline = other.outline) : one = other := by
    have isPlainToo := (kinds same).symm.trans isPlain
    obtain ⟨name, -, below⟩ := of_outline_eq same
    rw [shownBelow_of_plain isPlain, shownBelow_of_plain isPlainToo] at below
    exact shaped.eq_of_written_eq also isPlain isPlainToo name (by simpa using below)
  induction shaped generalizing other with
  | @node kind pos values parts splices each ih =>
    cases also with
    | @node kind' pos' others parts' splicesToo eachToo =>
      obtain ⟨-, place, below⟩ := of_outline_eq same
      cases kinds same
      cases Pos.of_shown_eq place
      have outlines : parts.map outline = parts'.map outline := by
        rw [← splices.fieldOutlines each, ← splicesToo.fieldOutlines eachToo]
        exact below
      obtain rfl := eq_of_map_eq (fun part member other => @ih part member other) eachToo outlines
      rw [splices.unique splicesToo]
    | _ => cases kinds same
  | _ => exact plain (by constructor) also rfl same

end Fields

end LeftHand
