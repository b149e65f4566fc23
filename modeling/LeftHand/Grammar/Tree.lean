import LeftHand.Grammar.Parser

/-! Parse trees: derivations without the choices and without the tokens that carry no meaning. -/

namespace LeftHand

/-- A parse tree. -/
inductive Tree where
  | node (rule : Rule) (children : List Tree)
  | leaf (token : Token)
deriving Repr

/-- The parse trees of a stretch of text; `keepTokens` says whether to show every token. -/
def Derivation.trees (keepTokens : Bool) : Derivation → List Tree
  | .empty => []
  | .token taken => if keepTokens || taken.kind.isShown then [.leaf taken] else []
  | .seq first second => first.trees keepTokens ++ second.trees keepTokens
  | .left chosen | .right chosen => chosen.trees keepTokens
  | .phrase rule body =>
    match rule.isTransparent, body.trees rule.keepsTokens with
    | true, [child] => [child]
    | _, children => [.node rule children]

/-- Whether a text contains a word. -/
def containsWord (word : List Char) : List Char → Bool
  | [] => word.isEmpty
  | c :: text => (afterWord? word (c :: text)).isSome || containsWord word text

/-- The word that marks ambiguity in reports, which no program text may therefore contain. -/
def ambiguityMark : List Char :=
  ['_', 'a', 'm', 'b', 'i', 'g']

/-- The parse tree of a program text. -/
def parse (text : List Char) : Except ParseError Tree := do
  let derivation ← derive text
  if derivation.tokens.any (containsWord ambiguityMark ·.text) then throw .ambiguous
  match derivation.trees false with
  | [tree] => return tree
  | children => return .node .program children

end LeftHand
