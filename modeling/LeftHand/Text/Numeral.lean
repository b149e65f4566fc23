import LeftHand.Text.Blank
import LeftHand.Text.DecimalDigit
import LeftHand.Text.Quoted

/-!
Numerals: whole numbers written in decimal digits of any script.

A numeral may have blanks around it, one sign, and single underscores between its digits.
-/

namespace LeftHand

/-- Why a text is no numeral. -/
inductive NumeralError where
  | malformed (text : List Char)
  | tooLong (digits : Nat)
deriving DecidableEq, Repr

/-- The most digits that a numeral may have. -/
def maxDigits : Nat :=
  4300

namespace NumeralError

/-- The report of a faulty numeral, which quotes no more than the start of a long text. -/
def message : NumeralError → String
  | malformed text =>
    "invalid literal for int() with base 10: " ++ String.ofList ((quoteChars text).take 200)
  | tooLong digits =>
    s!"Exceeds the limit ({maxDigits} digits) for integer string conversion: value has {digits} digits; use sys.set_int_max_str_digits() to increase the limit"

end NumeralError

/-- The blanks that may stand around a numeral: all but the separators among the control codes. -/
def isNumeralBlank (c : Char) : Bool :=
  isBlank c && !(0x1c ≤ c.toNat && c.toNat ≤ 0x1f)

/-- Whether digits and underscores start and end with a digit, no two underscores touching. -/
def isSeparated : List Char → Bool
  | [] => false
  | '_' :: _ => false
  | [_] => true
  | _ :: '_' :: rest => isSeparated rest
  | _ :: rest => isSeparated rest

/-- The number that a run of digits spells. -/
def digitsValue (digits : List Char) : Nat :=
  digits.foldl (fun value c => value * 10 + (digitValue? c).getD 0) 0

/-- Reads a numeral without blanks before it and without a sign. -/
def readDigits (text rest : List Char) : Except NumeralError Nat :=
  let inside := fun c => (digitValue? c).isSome || c == '_'
  let run := rest.takeWhile inside
  let digits := run.filter (· != '_')
  if !isSeparated run then .error (.malformed text)
  else if maxDigits < digits.length then .error (.tooLong digits.length)
  else if !(rest.dropWhile inside).all isNumeralBlank then .error (.malformed text)
  else .ok (digitsValue digits)

/-- Reads a numeral. -/
def readNumeral (text : List Char) : Except NumeralError Int :=
  match text.dropWhile isNumeralBlank with
  | '+' :: rest => (readDigits text rest).map Int.ofNat
  | '-' :: rest => (readDigits text rest).map fun value => -(Int.ofNat value)
  | rest => (readDigits text rest).map Int.ofNat

end LeftHand
