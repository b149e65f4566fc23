import LeftHand.Grammar.Terminal

/-! Places in a text, and the tokens that terminals take there. -/

namespace LeftHand

/-- A place in a text. -/
structure Cursor where
  /-- The number of characters before the place. -/
  place : Nat
  /-- The character just before the place. -/
  before : Option Char
  /-- The text from the place on. -/
  rest : List Char
deriving DecidableEq, Repr

/-- A piece of the text taken by a terminal. -/
structure Token where
  kind : Terminal
  text : List Char
  /-- The number of characters before the token. -/
  place : Nat
deriving DecidableEq, Repr

namespace Token

/-- Columns are counted from one. -/
def column (token : Token) : Nat :=
  token.place + 1

end Token

namespace Cursor

/-- The start of a text. -/
def start (text : List Char) : Cursor :=
  ⟨0, none, text⟩

/-- The place after a piece of the text. -/
def after (cursor : Cursor) (piece rest : List Char) : Cursor :=
  ⟨cursor.place + piece.length, piece.getLast?.or cursor.before, rest⟩

/-- Spaces and tabs may stand before any token. -/
def isGap (c : Char) : Bool :=
  c == ' ' || c == '\t'

/-- The first place from here on that is not inside a gap. -/
def skipGap (cursor : Cursor) : Cursor :=
  cursor.after (cursor.rest.takeWhile isGap) (cursor.rest.dropWhile isGap)

/-- The token that a terminal takes after the gap, and the place behind it. -/
def take? (cursor : Cursor) (kind : Terminal) : Option (Token × Cursor) :=
  let here := cursor.skipGap
  (kind.spelling.take? here.before here.rest).map fun (piece, rest) =>
    (⟨kind, piece, here.place⟩, here.after piece rest)

/-- Whether nothing but a gap is left. -/
def isAtEnd (cursor : Cursor) : Bool :=
  cursor.rest.all isGap

end Cursor

end LeftHand
