/-!
Cutting a line of program text into statements.

A statement ends with `$`, `%s` or `!s` outside strings. Nothing of the line is lost: the statements
put together give the line.
-/

namespace LeftHand

/-- Puts a character in front of the first part. -/
def consPart (c : Char) : List (List Char) → List (List Char)
  | [] => [[c]]
  | part :: parts => (c :: part) :: parts

/-- Cuts a text that starts inside or outside a string. -/
def splitFrom : (isQuoted : Bool) → List Char → List (List Char)
  | _, [] => []
  | isQuoted, '`' :: rest => consPart '`' (splitFrom (!isQuoted) rest)
  | true, c :: rest => consPart c (splitFrom true rest)
  | false, '$' :: rest => ['$'] :: splitFrom false rest
  | false, '!' :: 's' :: rest => ['!', 's'] :: splitFrom false rest
  | false, '%' :: 's' :: rest => ['%', 's'] :: splitFrom false rest
  | false, c :: rest => consPart c (splitFrom false rest)

/-- The statements of a line. -/
def splitStatements (line : List Char) : List (List Char) :=
  splitFrom false line

end LeftHand
