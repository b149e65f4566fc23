import Mathlib
import LeftHand.Text.Quoted

/-!
Quoted text can be read back: a character is told from what follows it. An escape starts with a
backslash, which is never written otherwise, and its second character says how it goes on.
-/

namespace LeftHand

open List

/-- The number that hexadecimal digits in lower case stand for. -/
def hexValue (digits : List Char) : Nat :=
  digits.foldl (fun n digit => 16 * n + "0123456789abcdef".toList.idxOf digit) 0

theorem hexValue_hexDigits {width n : Nat} (fits : n < 16 ^ width) : hexValue (hexDigits width n) = n := by
  have digit : ∀ k < 16, "0123456789abcdef".toList.idxOf (Nat.digitChar k) = k := by decide
  induction width generalizing n with
  | zero => exact (Nat.lt_one_iff.mp fits).symm
  | succ width ih =>
    rw [Nat.pow_succ] at fits
    have front : hexValue (hexDigits width (n / 16)) = n / 16 := ih (by omega)
    rw [hexDigits, hexValue, foldl_append, ← hexValue, front, foldl_cons, foldl_nil,
      digit _ (Nat.mod_lt _ (by decide))]
    omega

theorem length_hexDigits (width n : Nat) : (hexDigits width n).length = width := by
  induction width generalizing n with
  | zero => rfl
  | succ width ih => rw [hexDigits, length_append, ih, length_singleton]

/-- Reads a character from its code in some digits, and gives what follows them. -/
def readCode (width : Nat) (text : List Char) : Char × List Char :=
  (.ofNat (hexValue (text.take width)), text.drop width)

/-- Reads one character of quoted text, and gives what follows it. -/
def readQuoted : List Char → Option (Char × List Char)
  | '\\' :: 't' :: rest => some ('\t', rest)
  | '\\' :: 'n' :: rest => some ('\n', rest)
  | '\\' :: 'r' :: rest => some ('\r', rest)
  | '\\' :: 'x' :: rest => some (readCode 2 rest)
  | '\\' :: 'u' :: rest => some (readCode 4 rest)
  | '\\' :: 'U' :: rest => some (readCode 8 rest)
  | '\\' :: c :: rest | c :: rest => some (c, rest)
  | [] => none

theorem readCode_hexDigits {c : Char} {width : Nat} (fits : c.toNat < 16 ^ width) (rest : List Char) :
    readCode width (hexDigits width c.toNat ++ rest) = (c, rest) := by
  have length := length_hexDigits width c.toNat
  rw [readCode, take_left' length, drop_left' length, hexValue_hexDigits fits, Char.ofNat_toNat]

theorem readQuoted_quoteChar {quote : Char} (isQuote : quote = '\'' ∨ quote = '"') (c : Char)
    (rest : List Char) : readQuoted (quoteChar quote c ++ rest) = some (c, rest) := by
  have bounded : c.toNat < 16 ^ 8 := c.val.toNat_lt
  rw [quoteChar]
  split
  · rename_i mark
    -- Quotes and the backslash stand for themselves behind a backslash.
    rw [Bool.or_eq_true, decide_eq_true_eq, decide_eq_true_eq] at mark
    rcases mark with rfl | rfl
    · rcases isQuote with rfl | rfl <;> rfl
    · rfl
  · rename_i plain
    split
    · subst c; rfl
    split
    · subst c; rfl
    split
    · subst c; rfl
    split
    · rw [singleton_append, readQuoted] <;> simp_all
    split
    · exact congrArg some (readCode_hexDigits (by omega) rest)
    split
    · exact congrArg some (readCode_hexDigits (by omega) rest)
    · exact congrArg some (readCode_hexDigits bounded rest)

theorem flatMap_quoteChar_inj {quote : Char} (isQuote : quote = '\'' ∨ quote = '"') {one other : List Char}
    (same : one.flatMap (quoteChar quote) = other.flatMap (quoteChar quote)) : one = other := by
  induction one generalizing other with
  | nil =>
    cases other with
    | nil => rfl
    | cons d other =>
      have read := congrArg readQuoted same
      rw [flatMap_cons, readQuoted_quoteChar isQuote] at read
      cases read
  | cons c one ih =>
    have read := congrArg readQuoted same
    rw [flatMap_cons, readQuoted_quoteChar isQuote] at read
    cases other with
    | nil => cases read
    | cons d other =>
      rw [flatMap_cons, readQuoted_quoteChar isQuote] at read
      obtain ⟨rfl, rest⟩ := Prod.mk.inj (Option.some.inj read)
      rw [ih rest]

theorem quoteText_injective : Function.Injective quoteText := by
  intro one other same
  -- The quote comes first, and decides how all characters are written.
  obtain ⟨quote, body⟩ := List.cons.inj (String.ofList_inj.mp same)
  have isQuote : quoteFor one.toList = '\'' ∨ quoteFor one.toList = '"' := by
    rw [quoteFor]
    split <;> simp
  rw [← quote] at body
  exact String.toList_inj.mp (flatMap_quoteChar_inj isQuote (append_cancel_right body))

end LeftHand
