import LeftHand.Text.WordChar

/-!
The terminals of the language: how each is spelled, and which piece of a text it takes.

A terminal takes at most one piece at a given place, so a text is cut the same way however often a
place is visited.
-/

namespace LeftHand

/-- The kinds of token that a program is made of. -/
inductive Terminal where
  | defWord | execWord | retWord | bassWord | ifWord | elseIfWord | elseWord | asWord | negWord
  | lineEnd | scopeStart | scopeEnd | parenStart | parenEnd | pointerMark
  | assignWord | addressWord
  | equalWord | notEqualWord | lessWord | greaterWord | lessEqualWord | greaterEqualWord
  | addWord | subWord | mulWord | divWord | modWord | reverseWord | andWord | orWord
  | voidWord | decimalWord | booleanWord | charWord
  | integer | string | booleanLiteral | identifier
deriving DecidableEq, Repr

namespace Terminal

/-- The name under which reports and parse trees show a terminal. -/
def name : Terminal → String
  | defWord => "DEF"
  | execWord => "EXEC"
  | retWord => "RET"
  | bassWord => "BASS"
  | ifWord => "__ANON_5"
  | elseIfWord => "E1SE1F"
  | elseWord => "E1SE"
  | asWord => "AS"
  | negWord => "__ANON_4"
  | lineEnd => "_LINE_END"
  | scopeStart => "_SCOPE_START"
  | scopeEnd => "_SCOPE_END"
  | parenStart => "_PAREN_START"
  | parenEnd => "_PAREN_END"
  | pointerMark => "POINTER_SYMBOL"
  | assignWord => "_ASSIGN_SYMBOL"
  | addressWord => "ADDRESS_OF_SYMBOL"
  | equalWord => "EQUALITY_SYMBOL"
  | notEqualWord => "NOT_EQUALITY_SYMBOL"
  | lessWord => "LESS_THAN_SYMBOL"
  | greaterWord => "GREATER_THAN_SYMBOL"
  | lessEqualWord => "LESS_THAN_EQUAL_SYMBOL"
  | greaterEqualWord => "GREATER_THAN_EQUAL_SYMBOL"
  | addWord => "ADD_SYMBOL"
  | subWord => "SUB_SYMBOL"
  | mulWord => "MUL_SYMBOL"
  | divWord => "DIV_SYMBOL"
  | modWord => "MOD_SYMBOL"
  | reverseWord => "_REVERSE_SYMBOL"
  | andWord => "AND_SYMBOL"
  | orWord => "OR_SYMBOL"
  | voidWord => "__ANON_0"
  | decimalWord => "__ANON_1"
  | booleanWord => "__ANON_2"
  | charWord => "__ANON_3"
  | integer => "INTEGER"
  | string => "STRING"
  | booleanLiteral => "BOOLEAN_LITERAL"
  | identifier => "IDENTIFIER"

/-- Whether parse trees show the terminal even where a rule does not keep all its tokens. -/
def isShown : Terminal → Bool
  | defWord | execWord | retWord | bassWord | ifWord | elseIfWord | elseWord | asWord | negWord
  | lineEnd | scopeStart | scopeEnd | parenStart | parenEnd | assignWord | reverseWord => false
  | _ => true

end Terminal

/-- How a terminal is spelled. -/
inductive Spelling where
  /-- A fixed word, whatever stands around it. -/
  | plain (word : List Char)
  /-- One of some fixed words, touching no letter, digit or `@` on either side. -/
  | apart (words : List (List Char))
  /-- Digits between `%d` and `!d`. -/
  | number
  /-- Characters of one line between two backticks. -/
  | quoted
  /-- A left-hand letter and further left-hand letters, `@` or digits, not starting with a reserved
  word that ends there. -/
  | name

/-- The spelling of each terminal. -/
def Terminal.spelling : Terminal → Spelling
  | .defWord => .plain ['d', 'e', 'f']
  | .execWord => .plain ['e', 'x', 'e', 'c']
  | .retWord => .plain ['r', 'e', 't']
  | .bassWord => .plain ['b', 'a', 's', 's']
  | .ifWord => .plain ['1', 'f']
  | .elseIfWord => .plain ['e', '1', 's', 'e', '1', 'f']
  | .elseWord => .plain ['e', '1', 's', 'e']
  | .asWord => .plain ['a', 's']
  | .negWord => .plain ['s', 'f', '@']
  | .lineEnd => .plain ['$']
  | .scopeStart => .plain ['%', 's']
  | .scopeEnd => .plain ['!', 's']
  | .parenStart => .plain ['%', 'e']
  | .parenEnd => .plain ['!', 'e']
  | .pointerMark => .plain ['#']
  | .assignWord => .apart [['a', 's', 's']]
  | .addressWord => .apart [['a', 'd', 'd', 'r']]
  | .equalWord => .apart [['e', 'q']]
  | .notEqualWord => .apart [['r', 'e', 'q']]
  | .lessWord => .apart [['1', 't']]
  | .greaterWord => .apart [['g', 't']]
  | .lessEqualWord => .apart [['1', 't', 'e']]
  | .greaterEqualWord => .apart [['g', 't', 'e']]
  | .addWord => .apart [['a']]
  | .subWord => .apart [['s']]
  | .mulWord => .apart [['t']]
  | .divWord => .apart [['d']]
  | .modWord => .apart [['%', '%']]
  | .reverseWord => .apart [['r', 'e', 'v']]
  | .andWord => .apart [['@', '@']]
  | .orWord => .apart [['@', 'r']]
  | .voidWord => .apart [['v', '@', '1', 'd']]
  | .decimalWord => .apart [['d', 'e', 'c', 't']]
  | .booleanWord => .apart [['b', '@', '@', '1']]
  | .charWord => .apart [['c', 'a', 'r']]
  | .booleanLiteral => .apart [['t', 'r', 'v', 'e'], ['f', 'a', '1', 's', 'e']]
  | .integer => .number
  | .string => .quoted
  | .identifier => .name

/-- What follows a word at the start of a text. -/
def afterWord? : List Char → List Char → Option (List Char)
  | [], text => some text
  | _ :: _, [] => none
  | w :: word, c :: text => if w = c then afterWord? word text else none

/-- Whether a character next to a word that stands apart would join it. -/
def isJoining (c : Char) : Bool :=
  c.isAlphanum || c == '@'

/-- The digits of a number: `1` to `5` stand for themselves, and `@` and `a` to `d` for the rest. -/
def isNumeral (c : Char) : Bool :=
  ('1' ≤ c && c ≤ '5') || ('a' ≤ c && c ≤ 'd') || c == '@'

/-- The letters that the left hand types. -/
def isLeftLetter (c : Char) : Bool :=
  ('A' ≤ c && c ≤ 'G') || ('Q' ≤ c && c ≤ 'T') || ('V' ≤ c && c ≤ 'X') || c == 'Z' ||
  ('a' ≤ c && c ≤ 'g') || ('q' ≤ c && c ≤ 't') || ('v' ≤ c && c ≤ 'x') || c == 'z'

/-- The characters of a name after its first letter. -/
def isNameChar (c : Char) : Bool :=
  isLeftLetter c || c == '@' || ('1' ≤ c && c ≤ '4')

/-- The words that no name may be. -/
def reservedWords : List (List Char) :=
  [['f', 'a', '1', 's', 'e'], ['t', 'r', 'v', 'e'], ['b', 'a', 's', 's'], ['r', 'e', 't'],
   ['e', 'q'], ['r', 'e', 'q'], ['g', 't'], ['1', 't', 'e'], ['g', 't', 'e'], ['r', 'e', 'v'],
   ['s', 'f', '@'], ['b', '@', '@', '1'], ['d', 'e', 'c', 't'], ['v', '@', '1', 'd'],
   ['d', 'e', 'f'], ['e', 'x', 'e', 'c'], ['a', 's', 's'], ['a'], ['s'], ['d'], ['t'],
   ['1', 'f'], ['e', '1', 's', 'e'], ['e', '1', 's', 'e', '1', 'f'], ['a', 's'],
   ['a', 'd', 'd', 'r'], ['c', 'a', 'r']]

/-- Whether a text starts with a reserved word that ends at a word boundary. -/
def startsReserved (text : List Char) : Bool :=
  reservedWords.any fun word =>
    match afterWord? word text with
    | some rest => isWordBoundary word.getLast? rest.head?
    | none => false

/-- The piece that a spelling takes from the start of a text, and the text after it. -/
def Spelling.take? (before : Option Char) (text : List Char) :
    Spelling → Option (List Char × List Char)
  | .plain word => (afterWord? word text).map (word, ·)
  | .apart words =>
    if before.any isJoining then none
    else words.findSome? fun word =>
      match afterWord? word text with
      | some rest => if rest.head?.any isJoining then none else some (word, rest)
      | none => none
  | .number =>
    match text with
    | '%' :: 'd' :: rest =>
      match rest.takeWhile isNumeral, rest.dropWhile isNumeral with
      | d :: digits, '!' :: 'd' :: rest => some ('%' :: 'd' :: d :: digits ++ ['!', 'd'], rest)
      | _, _ => none
    | _ => none
  | .quoted =>
    match text with
    | '`' :: rest =>
      let inside := fun c => c != '`' && c != '\n'
      match rest.dropWhile inside with
      | '`' :: after => some ('`' :: rest.takeWhile inside ++ ['`'], after)
      | _ => none
    | _ => none
  | .name =>
    match text with
    | c :: rest =>
      if isLeftLetter c && !startsReserved text then
        some (c :: rest.takeWhile isNameChar, rest.dropWhile isNameChar)
      else none
    | [] => none

end LeftHand
