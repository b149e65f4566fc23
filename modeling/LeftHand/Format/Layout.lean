import LeftHand.Format.Split
import LeftHand.Text.Blank
import LeftHand.Text.Newline

/-!
Layout of programs: a program is one line, and blanks in it make it look like many when the line is
wrapped at a given width.

Each statement is indented by the scopes that are open and padded to the end of its row.
-/

namespace LeftHand

/-- Blanks, none for a negative count. -/
def blanks (count : Int) : List Char :=
  List.replicate count.toNat ' '

/-- How often two characters stand next to each other. -/
def countPair (first second : Char) : List Char → Nat
  | a :: b :: rest =>
    if a = first ∧ b = second then countPair first second rest + 1
    else countPair first second (b :: rest)
  | _ => 0

/-- The indent of a statement: two for each open scope, but four places of the row are kept. -/
def cappedIndent (width indent : Int) : Int :=
  min indent (width - 4)

/-- A statement with its indent and its padding. -/
def placeStatement (width indent : Int) (statement : List Char) : List Char :=
  let shown := cappedIndent width indent
  let used := (statement.length + shown).fmod width
  blanks shown ++ statement ++ blanks (width - used)

/-- Statements one after the other; `indent` is that of the scopes open before them. -/
def placeAll (width : Int) : (indent : Int) → List (List Char) → List Char
  | _, [] => []
  | indent, statement :: statements =>
    let here := indent - 2 * countPair '!' 's' statement
    placeStatement width here statement ++
      placeAll width (here + 2 * countPair '%' 's' statement) statements

/-- The statements of a text, without the blanks around them. -/
def statementsOf (text : List Char) : List (List Char) :=
  (linesOf (unifyNewlines text)).flatMap fun line =>
    (splitStatements (stripBlanks line)).map stripBlanks

/-- Lays out a text at a width. Statements cannot be padded to rows of no width. -/
def layoutText? (width : Int) (text : List Char) : Option (List Char) :=
  let statements := statementsOf text
  if width = 0 ∧ statements ≠ [] then none
  else some (stripBlanks (placeAll width 0 statements))

end LeftHand
