import LeftHand.Proofs.Grammar.Terminal

/-!
Strings in a text: which places lie inside of one, and which texts consist of whole strings and what
stands between them.
-/

namespace LeftHand

open List

/-- Whether the place behind a text lies inside a string, if the text starts inside or outside
one. -/
def quotedBehind (isQuoted : Bool) (text : List Char) : Bool :=
  text.foldl (fun isQuoted c => isQuoted ^^ (c == '`')) isQuoted

/-- The strings of a text are whole: its backticks come in pairs. -/
def IsPaired (text : List Char) : Prop :=
  text.count '`' % 2 = 0

instance (text : List Char) : Decidable (IsPaired text) :=
  inferInstanceAs (Decidable (_ = _))

section Behind

variable {isQuoted : Bool} {c : Char} {text more : List Char}

@[simp] theorem quotedBehind_nil : quotedBehind isQuoted [] = isQuoted := rfl

@[simp] theorem quotedBehind_cons :
    quotedBehind isQuoted (c :: text) = quotedBehind (isQuoted ^^ (c == '`')) text := rfl

@[simp] theorem quotedBehind_append :
    quotedBehind isQuoted (text ++ more) = quotedBehind (quotedBehind isQuoted text) more :=
  foldl_append

/-- A place behind an odd number of backticks is inside where one behind an even number is
outside. -/
theorem quotedBehind_eq : quotedBehind isQuoted text = (isQuoted ^^ (text.count '`' % 2 == 1)) := by
  induction text generalizing isQuoted with
  | nil => simp
  | cons c text ih =>
    rw [quotedBehind_cons, ih, count_cons, Bool.xor_assoc]
    congr 1
    by_cases tick : c = '`'
    · subst tick
      rcases Nat.mod_two_eq_zero_or_one (text.count '`') with even | odd
      · simp [even, Nat.add_mod]
      · simp [odd, Nat.add_mod]
    · simp [beq_eq_false_iff_ne.mpr tick]

theorem quotedBehind_eq_false : quotedBehind false text = false ↔ IsPaired text := by
  rw [quotedBehind_eq, IsPaired, Bool.false_xor, beq_eq_false_iff_ne]
  omega

theorem IsPaired.quotedBehind (paired : IsPaired text) : quotedBehind isQuoted text = isQuoted := by
  rw [quotedBehind_eq, show text.count '`' % 2 = 0 from paired]
  simp

theorem isPaired_nil : IsPaired [] := rfl

theorem isPaired_of_not_mem (absent : '`' ∉ text) : IsPaired text := by
  rw [IsPaired, count_eq_zero.mpr absent]

theorem isPaired_append (paired : IsPaired text) : IsPaired (text ++ more) ↔ IsPaired more := by
  rw [IsPaired, IsPaired, count_append]
  have even : text.count '`' % 2 = 0 := paired
  omega

theorem isPaired_append_left (paired : IsPaired more) : IsPaired (text ++ more) ↔ IsPaired text := by
  rw [IsPaired, IsPaired, count_append]
  have even : more.count '`' % 2 = 0 := paired
  omega

theorem isPaired_flatten {parts : List (List Char)} (paired : ∀ part ∈ parts, IsPaired part) :
    IsPaired parts.flatten := by
  induction parts with
  | nil => exact isPaired_nil
  | cons part parts ih =>
    rw [forall_mem_cons] at paired
    exact (isPaired_append paired.1).mpr (ih paired.2)

end Behind

end LeftHand
