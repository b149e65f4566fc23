import LeftHand.Text.Ranges

/-! Blank characters and the removal of blanks from the ends of a text. -/

namespace LeftHand

/-- The code points of blank characters: the spaces, tabs, line and paragraph separators. -/
def blankRanges : List (Nat × Nat) :=
  [(9, 13), (28, 32), (133, 133), (160, 160), (5760, 5760), (8192, 8202), (8232, 8233),
   (8239, 8239), (8287, 8287), (12288, 12288)]

/-- Whether a character is blank in any script. -/
def isBlank (c : Char) : Bool :=
  inRanges blankRanges c.toNat

/-- Removes blanks from both ends. -/
def stripBlanks (text : List Char) : List Char :=
  ((text.dropWhile isBlank).reverse.dropWhile isBlank).reverse

end LeftHand
