import LeftHand.Text.Numeral

/-! The values that literals denote. -/

namespace LeftHand

/-- The digit that a left-hand digit stands for. -/
def plainDigit : Char → Char
  | '@' => '0'
  | 'a' => '6'
  | 'b' => '7'
  | 'c' => '8'
  | 'd' => '9'
  | c => c

/-- A text without its first and last characters. -/
def withoutEnds (count : Nat) (text : List Char) : List Char :=
  (text.drop count).take (text.length - 2 * count)

/-- The number between the marks `%d` and `!d`. -/
def integerValue (text : List Char) : Except NumeralError Int :=
  readNumeral ((withoutEnds 2 text).map plainDigit)

/-- Replaces two characters that stand next to each other by one, from left to right. -/
def replacePair (first second replacement : Char) : List Char → List Char
  | a :: b :: rest =>
    if a = first ∧ b = second then replacement :: replacePair first second replacement rest
    else a :: replacePair first second replacement (b :: rest)
  | rest => rest

/-- Replaces the escapes of a string body: first line feeds, then tabs, then backslashes. -/
def decodeEscapes (body : List Char) : List Char :=
  replacePair '\\' '\\' '\\' (replacePair '\\' 't' '\t' (replacePair '\\' 'n' '\n' body))

/-- The text between the backticks, its escapes replaced. -/
def stringValue (text : List Char) : List Char :=
  decodeEscapes (withoutEnds 1 text)

/-- Only one spelling is true. -/
def booleanValue (text : List Char) : Bool :=
  text == ['t', 'r', 'v', 'e']

end LeftHand
