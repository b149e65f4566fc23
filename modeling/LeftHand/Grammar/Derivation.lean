import LeftHand.Grammar.Cursor
import LeftHand.Grammar.Rule

/-!
Derivations: how a form comes to stand at a stretch of text.

`Derives form here derivation there` says that the derivation is one of the form for the text between
two places. A program is accepted when its whole text has exactly one derivation.
-/

namespace LeftHand

/-- One way to read a stretch of text, with every choice that was made. -/
inductive Derivation where
  | empty
  | token (taken : Token)
  | phrase (rule : Rule) (body : Derivation)
  | seq (first second : Derivation)
  | left (chosen : Derivation)
  | right (chosen : Derivation)
deriving DecidableEq, Repr

/-- A derivation of a form between two places of a text. -/
inductive Derives : Form → Cursor → Derivation → Cursor → Prop where
  | empty {here} : Derives .empty here .empty here
  | token {kind here token there} (taken : here.take? kind = some (token, there)) :
      Derives (.token kind) here (.token token) there
  | phrase {rule here body there} (derived : Derives rule.body here body there) :
      Derives (.phrase rule) here (.phrase rule body) there
  | seq {first second here middle there one two} (before : Derives first here one middle)
      (behind : Derives second middle two there) :
      Derives (.seq first second) here (.seq one two) there
  | left {left right here chosen there} (derived : Derives left here chosen there) :
      Derives (.alt left right) here (.left chosen) there
  | right {left right here chosen there} (derived : Derives right here chosen there) :
      Derives (.alt left right) here (.right chosen) there
  | none {item here} : Derives (.many item) here .empty here
  | more {item here middle there items last} (before : Derives (.many item) here items middle)
      (behind : Derives item middle last there) :
      Derives (.many item) here (.seq items last) there

/-- The tokens of a derivation in the order of the text. -/
def Derivation.tokens : Derivation → List Token
  | .empty => []
  | .token taken => [taken]
  | .phrase _ body => body.tokens
  | .seq first second => first.tokens ++ second.tokens
  | .left chosen | .right chosen => chosen.tokens

end LeftHand
