import LeftHand.Proofs.Ast.Offence
import LeftHand.Proofs.Grammar.Tokens

/-! Where items come from: what the parts of a parse tree make if the whole makes something. -/

namespace LeftHand

open List

variable {trees more children : List Tree} {made : List Item} {rule : Rule} {text : List Char}
  {program : Program}

theorem Tree.items_singleton_iff {tree : Tree} {item : Item} :
    Tree.items [tree] = .ok [item] ↔ tree.item = .ok item := by
  rw [Tree.items]
  cases tree.item <;> simp [Tree.items, bind, Except.bind, pure, Except.pure]

theorem Tree.items_append_iff : Tree.items (trees ++ more) = .ok made ↔
    ∃ one two, made = one ++ two ∧ Tree.items trees = .ok one ∧ Tree.items more = .ok two := by
  rw [Tree.items_append]
  constructor
  · intro built
    obtain ⟨one, first, built⟩ := bind_eq_ok.mp built
    obtain ⟨two, second, rfl⟩ := map_eq_ok.mp built
    exact ⟨one, two, rfl, first, second⟩
  · rintro ⟨one, two, rfl, first, second⟩
    rw [first, Except.bind, second]
    rfl

theorem Tree.items_node_iff : Tree.items [.node rule children] = .ok made ↔
    ∃ inner item, made = [item] ∧ Tree.items children = .ok inner ∧ rule.construct inner = .ok item := by
  rw [Tree.items_node]
  constructor
  · intro built
    obtain ⟨inner, first, built⟩ := bind_eq_ok.mp built
    obtain ⟨item, constructed, rfl⟩ := map_eq_ok.mp built
    exact ⟨inner, item, rfl, first, mapError_eq_ok.mp constructed⟩
  · rintro ⟨inner, item, rfl, first, constructed⟩
    rw [first, Except.bind, constructed]
    rfl

/-- The program of a text is what its parse tree makes. -/
theorem readProgram_eq_ok : readProgram text = .ok program ↔
    ∃ tree, parse text = .ok tree ∧ tree.item = .ok (.program program) := by
  rw [readProgram]
  constructor
  · intro read
    obtain ⟨tree, parsed, read⟩ := bind_eq_ok.mp read
    obtain ⟨item, made, read⟩ := bind_eq_ok.mp read
    cases item with
    | program found =>
      cases read
      exact ⟨tree, mapError_eq_ok.mp parsed, mapError_eq_ok.mp made⟩
    | _ => cases read
  · rintro ⟨tree, parsed, made⟩
    rw [parsed]
    change (tree.item.mapError _ >>= _) = _
    rw [made]
    rfl

section Reading

variable {motive : List Tree → List Item → Prop} (nil : motive [] [])
  (leaf : ∀ token item, token.IsSpelled → token.kind.construct token.word = .ok item →
    motive [.leaf token] [item])
  (append : ∀ one front two back, motive one front → motive two back → motive (one ++ two) (front ++ back))
  (node : ∀ rule children items item, rule.Forms items item → motive children items →
    motive [.node rule children] [item])

include nil leaf append node

/-- What holds of tokens, and is kept where trees stand next to each other and where items of a
shape of a rule make a phrase, holds of the trees of a derivation and what they make. -/
theorem Derives.makes_induction {form : Form} {here there : Cursor} {derivation : Derivation}
    {keep : Bool} {items : List Item} (derived : Derives form here derivation there)
    (built : Tree.items (derivation.trees keep) = .ok items) : motive (derivation.trees keep) items := by
  induction derived generalizing keep items with
  | empty | none =>
    cases built
    exact nil
  | @token kind _ token _ taken =>
    simp only [Derivation.trees] at built ⊢
    split at built
    · rename_i shown
      rw [if_pos shown]
      obtain ⟨item, made, rest⟩ := bind_eq_ok.mp built
      cases rest
      exact leaf token item (Cursor.isSpelled_of_take? taken) (mapError_eq_ok.mp made)
    · rename_i hides
      rw [if_neg hides]
      cases built
      exact nil
  | @phrase rule _ body _ derived ih =>
    simp only [Derivation.trees] at built ⊢
    split at built
    · -- A transparent phrase is its only child.
      rename_i child _ single
      rw [← single] at built ⊢
      exact ih built
    · rename_i unfolded
      obtain ⟨inner, item, rfl, children, made⟩ := Tree.items_node_iff.mp built
      refine node rule _ inner item (Rule.forms_of_construct ((derived.checked _).shaped _ children) ?_ made)
        (ih children)
      intro transparent single
      obtain ⟨child, alone⟩ := length_eq_one_iff.mp single
      exact unfolded child transparent alone
  | seq _ _ before behind | more _ _ before behind =>
    obtain ⟨one, two, rfl, front, back⟩ := Tree.items_append_iff.mp built
    exact append _ _ _ _ (before front) (behind back)
  | left _ ih | right _ ih => exact ih built

/-- What is shown along derivations holds of the parse tree and the program of a text. -/
theorem readProgram_induction (read : readProgram text = .ok program) :
    ∃ tree, parse text = .ok tree ∧ motive [tree] [.program program] := by
  obtain ⟨tree, parsed, made⟩ := readProgram_eq_ok.mp read
  obtain ⟨derivation, ⟨there, reading, _⟩, shows⟩ := exists_reading parsed
  refine ⟨tree, parsed, ?_⟩
  have built : Tree.items (derivation.trees false) = .ok [.program program] := by
    rw [shows]
    exact Tree.items_singleton_iff.mpr made
  rw [← shows]
  exact reading.makes_induction nil leaf append node built

end Reading

/-- What tokens make and phrases keep holds of the program of a text. -/
theorem readProgram_holds {holds : Item → Prop}
    (token : ∀ token : Token, token.IsSpelled → ∀ item, token.kind.construct token.word = .ok item →
      holds item)
    (phrase : ∀ rule items item, Rule.Forms rule items item → (∀ part ∈ items, holds part) → holds item)
    (read : readProgram text = .ok program) :
    holds (.program program) := by
  obtain ⟨_, _, all⟩ := readProgram_induction (motive := fun _ items => ∀ item ∈ items, holds item)
    (forall_mem_nil _) (fun _ _ spelled made => forall_mem_singleton.mpr (token _ spelled _ made))
    (fun _ _ _ _ before behind => forall_mem_append.mpr ⟨before, behind⟩)
    (fun _ _ _ _ forms parts => forall_mem_singleton.mpr (phrase _ _ _ forms parts)) read
  exact all _ mem_cons_self

end LeftHand
