import LeftHand.Grammar.Tree
import LeftHand.Proofs.Grammar.Derivation

/-! Derivations at other places: one is carried over token by token. -/

namespace LeftHand

open List

/-- A derivation with its tokens changed. -/
def Derivation.mapTokens (change : Token → Token) : Derivation → Derivation
  | empty => empty
  | token taken => token (change taken)
  | phrase rule body => phrase rule (body.mapTokens change)
  | seq first second => seq (first.mapTokens change) (second.mapTokens change)
  | left chosen => left (chosen.mapTokens change)
  | right chosen => right (chosen.mapTokens change)

mutual

/-- A parse tree with its tokens changed. -/
def Tree.mapTokens (change : Token → Token) : Tree → Tree
  | .leaf token => .leaf (change token)
  | .node rule children => .node rule (Tree.mapTokensAll change children)

/-- Parse trees with their tokens changed. -/
def Tree.mapTokensAll (change : Token → Token) : List Tree → List Tree
  | [] => []
  | tree :: trees => tree.mapTokens change :: Tree.mapTokensAll change trees

end

section Changing

variable {change : Token → Token}

theorem Tree.mapTokensAll_eq_map (trees : List Tree) :
    Tree.mapTokensAll change trees = trees.map (Tree.mapTokens change) := by
  induction trees with
  | nil => rfl
  | cons tree trees ih => rw [Tree.mapTokensAll, ih, map_cons]

theorem Derivation.mapTokens_id (derivation : Derivation) : derivation.mapTokens id = derivation := by
  induction derivation with
  | empty | token => rfl
  | phrase _ _ ih | left _ ih | right _ ih => rw [mapTokens, ih]
  | seq _ _ before behind => rw [mapTokens, before, behind]

theorem Derivation.tokens_mapTokens (derivation : Derivation) :
    (derivation.mapTokens change).tokens = derivation.tokens.map change := by
  induction derivation with
  | empty | token => rfl
  | phrase _ _ ih | left _ ih | right _ ih => exact ih
  | seq first second before behind =>
    rw [mapTokens, tokens, tokens, before, behind, map_append]

theorem Derivation.trees_mapTokens (kinds : ∀ token, (change token).kind = token.kind)
    (derivation : Derivation) (keepTokens : Bool) :
    (derivation.mapTokens change).trees keepTokens =
      (derivation.trees keepTokens).map (Tree.mapTokens change) := by
  induction derivation generalizing keepTokens with
  | empty => rfl
  | token taken =>
    rw [mapTokens, trees, trees, kinds]
    split <;> rfl
  | phrase rule body ih =>
    rw [mapTokens, trees, trees, ih]
    generalize body.trees rule.keepsTokens = children
    -- A phrase may be shown as its only child, which is a matter of the number of children.
    cases rule.isTransparent with
    | false => rw [map_singleton, Tree.mapTokens, Tree.mapTokensAll_eq_map]
    | true =>
      rcases children with _ | ⟨child, _ | ⟨second, more⟩⟩
      · rfl
      · rfl
      · simp [Tree.mapTokens, Tree.mapTokensAll_eq_map]
  | seq first second before behind => rw [mapTokens, trees, trees, before, behind, map_append]
  | left _ ih | right _ ih => exact ih keepTokens

/-- What can be derived at one place can be derived at an alike one, if the tokens up to an end can
be taken there. What is the same of the tokens is the same of the derivations. -/
theorem Derives.simulates {form : Form} {here there next stop : Cursor} {derivation : Derivation}
    {related : Token → Token → Prop} (alike : Cursor → Cursor → Prop)
    (derived : Derives form here derivation there) (start : alike here next) (leads : there.LeadsTo stop)
    (take : ∀ {kind here token there next}, alike here next → here.take? kind = some (token, there) →
      there.LeadsTo stop → ∃ found last, next.take? kind = some (found, last) ∧ related token found ∧
        alike there last) :
    ∃ again last, Derives form next again last ∧ alike there last ∧ ∀ one two : Token → Token,
      (∀ token found, related token found → one token = two found) →
        derivation.mapTokens one = again.mapTokens two := by
  induction derived generalizing next with
  | empty => exact ⟨_, _, .empty, start, fun _ _ _ => rfl⟩
  | none => exact ⟨_, _, .none, start, fun _ _ _ => rfl⟩
  | token taken =>
    obtain ⟨_, _, again, related, onward⟩ := take start taken leads
    exact ⟨_, _, .token again, onward, fun _ _ image => congrArg Derivation.token (image _ _ related)⟩
  | @phrase rule _ _ _ _ ih =>
    obtain ⟨_, _, again, onward, same⟩ := ih start leads
    exact ⟨_, _, .phrase again, onward, fun _ _ image =>
      congrArg (Derivation.phrase rule) (same _ _ image)⟩
  | left _ ih =>
    obtain ⟨_, _, again, onward, same⟩ := ih start leads
    exact ⟨_, _, .left again, onward, fun _ _ image => congrArg Derivation.left (same _ _ image)⟩
  | right _ ih =>
    obtain ⟨_, _, again, onward, same⟩ := ih start leads
    exact ⟨_, _, .right again, onward, fun _ _ image => congrArg Derivation.right (same _ _ image)⟩
  | seq _ second before behind =>
    obtain ⟨_, _, one, onward, sameOne⟩ := before start (second.leadsTo.trans leads)
    obtain ⟨_, _, two, onward, sameTwo⟩ := behind onward leads
    refine ⟨_, _, .seq one two, onward, fun _ _ image => ?_⟩
    rw [Derivation.mapTokens, Derivation.mapTokens, sameOne _ _ image, sameTwo _ _ image]
  | more _ second before behind =>
    obtain ⟨_, _, one, onward, sameOne⟩ := before start (second.leadsTo.trans leads)
    obtain ⟨_, _, two, onward, sameTwo⟩ := behind onward leads
    refine ⟨_, _, .more one two, onward, fun _ _ image => ?_⟩
    rw [Derivation.mapTokens, Derivation.mapTokens, sameOne _ _ image, sameTwo _ _ image]

end Changing

end LeftHand
