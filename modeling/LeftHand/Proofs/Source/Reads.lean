import LeftHand.Proofs.Ast.Offence
import LeftHand.Proofs.Source.Words

/-!
Reading words: forms that words can be read as in one way only, as far as what follows them allows.

Each combination of forms has its rule, so that a text is shown to have a single reading by
following the grammar from left to right.
-/

namespace LeftHand

open List

variable {forms : List Form} {kinds : List Terminal} {keep : Bool} {items : List Item}

/-- The terminals that a phrase may start with. -/
def Rule.first : Rule → List Terminal
  | .program | .function => [.defWord]
  | .params | .param | .type | .declareStmt => [.voidWord, .decimalWord, .booleanWord, .charWord]
  | .block => [.scopeStart]
  | .statement =>
    [.retWord, .integer, .string, .booleanLiteral, .addressWord, .identifier, .execWord, .reverseWord,
     .negWord, .pointerMark, .parenStart, .voidWord, .decimalWord, .booleanWord, .charWord, .bassWord,
     .ifWord, .asWord]
  | .retStmt => [.retWord]
  | .assignStmt => [.pointerMark, .identifier]
  | .bassStmt => [.bassWord]
  | .ifStmt => [.ifWord]
  | .elseIfStmt => [.elseIfWord]
  | .elseStmt => [.elseWord]
  | .asStmt => [.asWord]
  | .exprStmt | .expr | .orExpr | .andExpr | .equality | .comparison | .formula | .term | .factor =>
    [.integer, .string, .booleanLiteral, .addressWord, .identifier, .execWord, .reverseWord, .negWord,
     .pointerMark, .parenStart]
  | .derefExpr => [.pointerMark]
  | .revExpr => [.reverseWord]
  | .negExpr => [.negWord]
  | .execExpr => [.execWord]
  | .nameExpr => [.addressWord, .identifier]
  | .literal => [.integer, .string, .booleanLiteral]
  | .voidType => [.voidWord]
  | .decimalType => [.decimalWord]
  | .booleanType => [.booleanWord]
  | .charType => [.charWord]

/-- The terminals that a form may start with. -/
def Form.first : Form → List Terminal
  | empty => []
  | token kind => [kind]
  | phrase rule => rule.first
  | seq one two => if one.isNullable then one.first ++ two.first else one.first
  | alt left right => left.first ++ right.first
  | many item => item.first

theorem Rule.first_body (rule : Rule) : ∀ kind ∈ rule.body.first, kind ∈ rule.first := by
  cases rule <;> decide

/-- One of some terminals takes a token at a place. -/
def Cursor.Starts (kinds : List Terminal) (here : Cursor) : Prop :=
  ∃ kind ∈ kinds, ∃ taken, here.take? kind = some taken

/-- A form goes on from a place to one where something holds. -/
def Leads (form : Form) (stop : Cursor → Prop) (here : Cursor) : Prop :=
  ∃ derivation there, Derives form here derivation there ∧ stop there

theorem Cursor.Starts.mono {more : List Terminal} {here : Cursor} (starts : here.Starts kinds)
    (weaker : ∀ kind ∈ kinds, kind ∈ more) : here.Starts more := by
  obtain ⟨kind, member, taken⟩ := starts
  exact ⟨kind, weaker kind member, taken⟩

theorem Derives.starts {form : Form} {here there : Cursor} {derivation : Derivation}
    (derived : Derives form here derivation there) :
    (form.isNullable = true ∧ there = here) ∨ here.Starts form.first := by
  induction derived with
  | empty | none => exact .inl ⟨rfl, rfl⟩
  | token taken => exact .inr ⟨_, mem_singleton_self _, _, taken⟩
  | @phrase rule _ _ _ _ ih =>
    rcases ih with ⟨nullable, same⟩ | starts
    · exact .inl ⟨(Rule.isNullable_body rule).symm.trans nullable, same⟩
    · exact .inr (starts.mono rule.first_body)
  | @seq one two _ _ _ _ _ _ _ before behind =>
    rcases before with ⟨nullable, rfl⟩ | starts
    · rcases behind with ⟨also, same⟩ | starts
      · exact .inl ⟨by rw [Form.isNullable, nullable, also]; rfl, same⟩
      · refine .inr (starts.mono fun kind member => ?_)
        rw [Form.first, if_pos nullable]
        exact mem_append_right _ member
    · refine .inr (starts.mono fun kind member => ?_)
      rw [Form.first]
      split
      · exact mem_append_left _ member
      · exact member
  | left _ ih =>
    rcases ih with ⟨nullable, same⟩ | starts
    · exact .inl ⟨by rw [Form.isNullable, nullable]; rfl, same⟩
    · exact .inr (starts.mono fun kind member => mem_append_left _ member)
  | right _ ih =>
    rcases ih with ⟨nullable, same⟩ | starts
    · exact .inl ⟨by rw [Form.isNullable, nullable, Bool.or_true], same⟩
    · exact .inr (starts.mono fun kind member => mem_append_right _ member)
  | more _ _ before behind =>
    rcases before with ⟨_, rfl⟩ | starts
    · rcases behind with ⟨_, same⟩ | starts
      · exact .inl ⟨rfl, same⟩
      · exact .inr starts
    · exact .inr starts

/-- Words can be read as a form in one way, if the reading is to end where something holds; it makes
the items and leaves the other words. -/
def Reads (stop : Cursor → Prop) (keep : Bool) (form : Form) (words : List (List Char))
    (items : List Item) (rest : List (List Char)) : Prop :=
  ∀ here : Cursor, here.Faces words → ∃ derivation there,
    Derives form here derivation there ∧ there.Faces rest ∧
      (∀ other last, Derives form here other last → stop last → other = derivation ∧ last = there) ∧
        (∀ token ∈ derivation.tokens, containsWord ambiguityMark token.text = false) ∧
          Tree.items ((derivation.trees keep).map Tree.unplaced) = .ok items

/-- No reading of words as a form ends where something holds. -/
def Rejects (stop : Cursor → Prop) (form : Form) (words : List (List Char)) : Prop :=
  ∀ here : Cursor, here.Faces words → ¬ Leads form stop here

section Rules

variable {stop other : Cursor → Prop} {keep : Bool} {form first second : Form}
  {words middle rest : List (List Char)} {items more : List Item}

theorem Reads.mono (reads : Reads stop keep form words items rest)
    (stronger : ∀ there, other there → stop there) : Reads other keep form words items rest := by
  intro here faces
  obtain ⟨derivation, there, derived, left, unique, clean, made⟩ := reads here faces
  exact ⟨derivation, there, derived, left,
    fun also last again ends => unique also last again (stronger last ends), clean, made⟩

theorem Reads.empty : Reads stop keep .empty words [] words := by
  intro here faces
  refine ⟨.empty, here, .empty, faces, ?_, fun _ inside => absurd inside not_mem_nil, rfl⟩
  intro other last derived _
  cases derived
  exact ⟨rfl, rfl⟩

theorem Reads.token {kind : Terminal} {word : List Char} {item : Item}
    (whole : kind.spelling.take? none word = some (word, []))
    (clean : containsWord ambiguityMark word = false)
    (built : kind.construct (Token.word ⟨kind, word, 0⟩) = .ok item) :
    Reads stop keep (.token kind) (word :: rest) (if keep || kind.isShown then [item] else [])
      rest := by
  intro here faces
  obtain ⟨token, there, taken, same, left⟩ := faces.exists_take? whole
  have isKind := Cursor.kind_of_take? taken
  refine ⟨.token token, there, .token taken, left, ?_, ?_, ?_⟩
  · intro other last derived _
    cases derived with
    | token again =>
      rw [taken] at again
      cases again
      exact ⟨rfl, rfl⟩
  · intro inside member
    obtain rfl := mem_singleton.mp member
    have text : inside.text = word := congrArg Token.text same
    rw [text]
    exact clean
  · simp only [Derivation.trees, isKind]
    split
    · rw [map_singleton, Tree.unplaced, same, Tree.items_leaf, built]
      rfl
    · rfl

/-- Forms are read one after the other; the first ends where the second can go on. -/
theorem Reads.seq (before : Reads (Leads second stop) keep first words items middle)
    (behind : Reads stop keep second middle more rest) :
    Reads stop keep (.seq first second) words (items ++ more) rest := by
  intro here faces
  obtain ⟨one, between, derived, left, unique, clean, made⟩ := before here faces
  obtain ⟨two, there, onward, last, only, also, makes⟩ := behind between left
  refine ⟨.seq one two, there, .seq derived onward, last, ?_, ?_, ?_⟩
  · intro other final again ends
    cases again with
    | seq before behind =>
      obtain ⟨rfl, rfl⟩ := unique _ _ before ⟨_, _, behind, ends⟩
      obtain ⟨rfl, rfl⟩ := only _ _ behind ends
      exact ⟨rfl, rfl⟩
  · intro token inside
    rcases mem_append.mp inside with inFirst | inSecond
    · exact clean token inFirst
    · exact also token inSecond
  · rw [Derivation.trees, map_append, Tree.items_append, made, makes]
    rfl

theorem Reads.left (reads : Reads stop keep first words items rest)
    (rejects : Rejects stop second words) : Reads stop keep (.alt first second) words items rest := by
  intro here faces
  obtain ⟨derivation, there, derived, left, unique, clean, made⟩ := reads here faces
  refine ⟨.left derivation, there, .left derived, left, ?_, clean, made⟩
  intro other last again ends
  cases again with
  | left again =>
    obtain ⟨rfl, rfl⟩ := unique _ _ again ends
    exact ⟨rfl, rfl⟩
  | right again => exact absurd ⟨_, _, again, ends⟩ (rejects here faces)

theorem Reads.right (reads : Reads stop keep second words items rest)
    (rejects : Rejects stop first words) : Reads stop keep (.alt first second) words items rest := by
  intro here faces
  obtain ⟨derivation, there, derived, left, unique, clean, made⟩ := reads here faces
  refine ⟨.right derivation, there, .right derived, left, ?_, clean, made⟩
  intro other last again ends
  cases again with
  | left again => exact absurd ⟨_, _, again, ends⟩ (rejects here faces)
  | right again =>
    obtain ⟨rfl, rfl⟩ := unique _ _ again ends
    exact ⟨rfl, rfl⟩

theorem Rejects.alt (one : Rejects stop first words) (two : Rejects stop second words) :
    Rejects stop (.alt first second) words := by
  rintro here faces ⟨_, there, derived, ends⟩
  cases derived with
  | left derived => exact one here faces ⟨_, there, derived, ends⟩
  | right derived => exact two here faces ⟨_, there, derived, ends⟩

theorem Rejects.oneOf (filled : forms ≠ []) (each : ∀ form ∈ forms, Rejects stop form words) :
    Rejects stop (.oneOf forms) words := by
  induction forms with
  | nil => exact absurd rfl filled
  | cons form forms ih =>
    cases forms with
    | nil => exact each form mem_cons_self
    | cons next forms =>
      exact .alt (each form mem_cons_self)
        (ih (cons_ne_nil _ _) fun form inside => each form (mem_cons_of_mem _ inside))

theorem Reads.oneOf (reads : Reads stop keep form words items rest) (member : form ∈ forms)
    (rejects : ∀ other ∈ forms.erase form, Rejects stop other words) :
    Reads stop keep (.oneOf forms) words items rest := by
  obtain ⟨before, behind, absent, rfl, erased⟩ := exists_erase_eq member
  rw [erased] at rejects
  clear absent member erased
  induction before with
  | nil =>
    cases behind with
    | nil => exact reads
    | cons next behind => exact reads.left (.oneOf (cons_ne_nil _ _) rejects)
  | cons earlier before ih =>
    have chosen := ih fun form inside => rejects form (mem_cons_of_mem _ inside)
    have skipped : Form.oneOf (earlier :: before ++ form :: behind) =
        .alt earlier (.oneOf (before ++ form :: behind)) := by
      cases before <;> rfl
    rw [skipped]
    exact chosen.right (rejects earlier mem_cons_self)

/-- A form is rejected if its only reading ends elsewhere. -/
theorem Reads.rejects (reads : Reads stop keep form words items rest)
    (elsewhere : ∀ there : Cursor, there.Faces rest → ¬ stop there) : Rejects stop form words := by
  rintro here faces ⟨_, last, derived, ends⟩
  obtain ⟨_, there, _, left, unique, _⟩ := reads here faces
  obtain ⟨_, rfl⟩ := unique _ _ derived ends
  exact elsewhere last left ends

theorem Rejects.seq (rejects : Rejects (Leads second stop) first words) :
    Rejects stop (.seq first second) words := by
  rintro here faces ⟨_, there, derived, ends⟩
  cases derived with
  | seq before behind => exact rejects here faces ⟨_, _, before, _, there, behind, ends⟩

theorem Rejects.phrase {rule : Rule} (rejects : Rejects stop rule.body words) :
    Rejects stop (.phrase rule) words := by
  rintro here faces ⟨_, there, derived, ends⟩
  cases derived with
  | phrase derived => exact rejects here faces ⟨_, there, derived, ends⟩

theorem Tree.length_of_items {trees : List Tree} (made : Tree.items trees = .ok items) :
    items.length = trees.length := by
  induction trees generalizing items with
  | nil =>
    cases made
    rfl
  | cons tree trees ih =>
    obtain ⟨item, _, made⟩ := bind_eq_ok.mp made
    obtain ⟨others, rest, same⟩ := bind_eq_ok.mp made
    cases same
    rw [length_cons, length_cons, ih rest]

section Phrases

variable (rule : Rule) {item : Item}

theorem Reads.ofBody {rule : Rule} (reads : Reads stop rule.keepsTokens rule.body words items rest)
    (shows : ∀ body : Derivation, Tree.items ((body.trees rule.keepsTokens).map Tree.unplaced) = .ok items →
      Tree.items (((Derivation.phrase rule body).trees keep).map Tree.unplaced) = .ok more) :
    Reads stop keep (.phrase rule) words more rest := by
  intro here faces
  obtain ⟨derivation, there, derived, left, unique, clean, made⟩ := reads here faces
  refine ⟨.phrase rule derivation, there, .phrase derived, left, ?_, clean, shows _ made⟩
  intro other last again ends
  cases again with
  | phrase again =>
    obtain ⟨rfl, rfl⟩ := unique _ _ again ends
    exact ⟨rfl, rfl⟩

theorem Tree.items_unplaced_node (rule : Rule) (children : List Tree) :
    Tree.items ([Tree.node rule children].map Tree.unplaced) =
      (Tree.items (children.map Tree.unplaced)).bind fun made =>
        ((rule.construct made).mapError (⟨rule.name, ·⟩)).map fun item => [item] := by
  rw [map_singleton, Tree.unplaced, Tree.unplacedAll_eq_map, Tree.items_node]

theorem Reads.phrase (reads : Reads stop rule.keepsTokens rule.body words items rest)
    (built : rule.construct items = .ok item)
    (unfolded : rule.isTransparent = true → items.length ≠ 1) :
    Reads stop keep (.phrase rule) words [item] rest := by
  refine reads.ofBody fun body made => ?_
  rw [Derivation.trees]
  split
  · rename_i transparent single
    have length := Tree.length_of_items made
    rw [single] at length
    exact absurd length (unfolded transparent)
  · rw [Tree.items_unplaced_node, made]
    simp only [Except.bind, built]
    rfl

theorem Reads.folded (reads : Reads stop rule.keepsTokens rule.body words [item] rest)
    (transparent : rule.isTransparent = true) :
    Reads stop keep (.phrase rule) words [item] rest := by
  refine reads.ofBody fun body made => ?_
  have length := Tree.length_of_items made
  obtain ⟨child, single⟩ := length_eq_one_iff.mp ((length_map _).symm.trans length.symm)
  rw [single] at made
  rw [Derivation.trees, transparent, single]
  exact made

/-- Whether the tokens around a phrase are kept is of no concern to it. -/
theorem Reads.keeping {rule : Rule} {other : Bool} (reads : Reads stop keep (.phrase rule) words items rest) :
    Reads stop other (.phrase rule) words items rest := by
  intro here faces
  obtain ⟨derivation, there, derived, left, unique, clean, made⟩ := reads here faces
  refine ⟨derivation, there, derived, left, unique, clean, ?_⟩
  cases derived
  exact made

end Phrases

theorem Reads.many_nil (rejects : Rejects (Leads (.many form) stop) form words) :
    Reads stop keep (.many form) words [] words := by
  intro here faces
  refine ⟨.empty, here, .none, faces, ?_, fun _ inside => absurd inside not_mem_nil, rfl⟩
  intro other last derived ends
  obtain ⟨derivations, rfl, all⟩ := derives_many.mp derived
  cases all with
  | nil => exact ⟨rfl, rfl⟩
  | cons first onward =>
    exact absurd ⟨_, _, first, _, _, derives_many.mpr ⟨_, rfl, onward⟩, ends⟩ (rejects here faces)

theorem Derivation.tokens_row (derivations : List Derivation) :
    (row derivations).tokens = derivations.flatMap tokens := by
  have from_ : ∀ start, (derivations.foldl seq start).tokens =
      start.tokens ++ derivations.flatMap tokens := by
    induction derivations with
    | nil => simp
    | cons first others ih => simp [ih, tokens]
  exact from_ .empty

theorem Derivation.trees_row (derivations : List Derivation) (keep : Bool) :
    (row derivations).trees keep = derivations.flatMap (trees keep) := by
  have from_ : ∀ start, (derivations.foldl seq start).trees keep =
      start.trees keep ++ derivations.flatMap (trees keep) := by
    induction derivations with
    | nil => simp
    | cons first others ih => simp [ih, trees]
  exact from_ .empty

/-- A repeated form is read once and then again, if it cannot end before. -/
theorem Reads.many_cons (before : Reads (Leads (.many form) stop) keep form words items middle)
    (behind : Reads stop keep (.many form) middle more rest)
    (goesOn : ∀ here : Cursor, here.Faces words → ¬ stop here) :
    Reads stop keep (.many form) words (items ++ more) rest := by
  intro here faces
  obtain ⟨one, between, derived, left, unique, clean, made⟩ := before here faces
  obtain ⟨row, there, repeated, last, only, also, makes⟩ := behind between left
  obtain ⟨derivations, rfl, all⟩ := derives_many.mp repeated
  refine ⟨.row (one :: derivations), there, derives_many.mpr ⟨_, rfl, .cons derived all⟩, last,
    ?_, ?_, ?_⟩
  · intro other final again ends
    obtain ⟨others, rfl, every⟩ := derives_many.mp again
    cases every with
    | nil => exact absurd ends (goesOn here faces)
    | cons first onward =>
      have onward := derives_many.mpr ⟨_, rfl, onward⟩
      obtain ⟨rfl, rfl⟩ := unique _ _ first ⟨_, _, onward, ends⟩
      obtain ⟨same, rfl⟩ := only _ _ onward ends
      rw [Derivation.row_injective same]
      exact ⟨rfl, rfl⟩
  · rw [Derivation.tokens_row] at also ⊢
    intro token inside
    rcases mem_append.mp inside with inFirst | inOthers
    · exact clean token inFirst
    · exact also token inOthers
  · rw [Derivation.trees_row] at makes ⊢
    rw [flatMap_cons, map_append, Tree.items_append, made, makes]
    rfl

end Rules

section Facing

variable {stop : Cursor → Prop} {form : Form} {word : List Char} {rest : List (List Char)}
  {words left : List (List Char)}

/-- A terminal takes no piece of a word. -/
def Terminal.refuses (word : List Char) (kind : Terminal) : Bool :=
  (kind.spelling.take? none word).isNone

theorem not_starts (refused : kinds.all (·.refuses word) = true) {here : Cursor}
    (faces : here.Faces (word :: rest)) : ¬ here.Starts kinds := by
  rintro ⟨kind, member, taken, found⟩
  have none := Option.isNone_iff_eq_none.mp (all_eq_true.mp refused kind member)
  rw [faces.take?_eq_none none] at found
  cases found

/-- A form is no empty text, and all its first terminals refuse a word. -/
def Form.refuses (word : List Char) (form : Form) : Bool :=
  !form.isNullable && form.first.all (·.refuses word)

theorem rejects_of_refuses (refused : form.refuses word = true) : Rejects stop form (word :: rest) := by
  rw [Form.refuses, Bool.and_eq_true, Bool.not_eq_true'] at refused
  rintro here faces ⟨_, _, derived, _⟩
  rcases derived.starts with ⟨nullable, _⟩ | starts
  · rw [refused.1] at nullable
    cases nullable
  · exact not_starts refused.2 faces starts

theorem rejects_nil (solid : form.isNullable = false) : Rejects stop form [] := by
  rintro here faces ⟨_, _, derived, _⟩
  rcases derived.starts with ⟨nullable, _⟩ | ⟨_, _, _, found⟩
  · rw [solid] at nullable
    cases nullable
  · rw [faces.take?_nil] at found
    cases found

theorem Reads.choose (reads : Reads stop keep form (word :: words) items left)
    (member : form ∈ forms) (refused : (forms.erase form).all (·.refuses word) = true) :
    Reads stop keep (.oneOf forms) (word :: words) items left :=
  reads.oneOf member fun other inside =>
    rejects_of_refuses (all_eq_true.mp refused other inside)

/-- Only some terminals take a piece of a word. -/
def OnlyFor (takers : List Terminal) (word : List Char) : Prop :=
  ∀ kind ∉ takers, kind.refuses word = true

/-- A form is no empty text, and it does not start with any of some terminals. -/
def Form.avoids (kinds : List Terminal) (form : Form) : Bool :=
  !form.isNullable && form.first.all (!kinds.contains ·)

variable {takers : List Terminal}

theorem OnlyFor.all_refuses (only : OnlyFor takers word)
    (foreign : kinds.all (!takers.contains ·) = true) : kinds.all (·.refuses word) = true := by
  rw [all_eq_true] at foreign ⊢
  intro kind member
  refine only kind ?_
  simpa using foreign kind member

theorem OnlyFor.refuses (only : OnlyFor takers word) (avoids : form.avoids takers = true) :
    form.refuses word = true := by
  rw [Form.avoids, Bool.and_eq_true] at avoids
  rw [Form.refuses, avoids.1, only.all_refuses avoids.2]
  rfl

/-- Of several forms, one is read if the others start with terminals that take no piece of the next
word. -/
theorem Reads.chooseOnly (reads : Reads stop keep form (word :: words) items left)
    (member : form ∈ forms) (only : OnlyFor takers word)
    (avoids : (forms.erase form).all (·.avoids takers) = true) :
    Reads stop keep (.oneOf forms) (word :: words) items left := by
  refine reads.choose member (all_eq_true.mpr fun other inside => ?_)
  exact only.refuses (all_eq_true.mp avoids other inside)

theorem Reads.oneToken {kind : Terminal} (nodup : kinds.Nodup) (member : kind ∈ kinds)
    (only : OnlyFor [kind] word)
    (reads : Reads stop keep (.token kind) (word :: words) items left) :
    Reads stop keep (.oneToken kinds) (word :: words) items left := by
  refine reads.oneOf (mem_map_of_mem member) ?_
  intro form inside
  have erased : (kinds.map Form.token).erase (.token kind) = (kinds.erase kind).map Form.token :=
    (map_erase (fun _ _ same => Form.token.inj same) kinds).symm
  rw [erased] at inside
  obtain ⟨other, among, rfl⟩ := mem_map.mp inside
  refine rejects_of_refuses ?_
  rw [Form.refuses, Form.first, all_cons, all_nil, Bool.and_true]
  refine only other fun same => ?_
  exact (nodup.mem_erase_iff.mp among).1 (mem_singleton.mp same)

end Facing

/-- A program text that can be read in one way is parsed, and its program is made. -/
theorem Reads.parse {words : List (List Char)} {program : Program} (solid : AllSolid words)
    (reads : Reads (·.isAtEnd = true) false (.phrase .program) words [.program program] []) :
    ∃ tree made, LeftHand.parse (spaced words) = .ok tree ∧ tree.item = .ok (.program made) ∧
      made.unplaced = program := by
  obtain ⟨derivation, there, derived, left, unique, clean, made⟩ := reads _ (Cursor.faces_start solid)
  have atEnd : there.isAtEnd = true := by
    have none : there.rest.dropWhile Cursor.isGap = [] := left.rest
    have gap : there.rest.takeWhile Cursor.isGap = there.rest := by
      simpa [none] using takeWhile_append_dropWhile (p := Cursor.isGap) (l := there.rest)
    rw [Cursor.isAtEnd, ← gap]
    exact all_takeWhile
  have only : derive (spaced words) = .ok derivation := by
    refine derive_eq_ok.mpr ⟨⟨there, derived, atEnd⟩, ?_⟩
    rintro other ⟨last, again, ends⟩
    exact (unique other last again ends).1
  have shown : ∃ tree, derivation.trees false = [tree] := by
    cases derived
    exact ⟨_, rfl⟩
  obtain ⟨tree, shown⟩ := shown
  have parsed : LeftHand.parse (spaced words) = .ok tree :=
    parse_eq_ok.mpr ⟨derivation, only, clean, shown⟩
  -- The tree makes what it would make at the start of a text, only with its own places.
  have alike := (derived.checked false).alike
  rw [made, shown, Tree.items] at alike
  cases itemized : tree.item with
  | error error =>
    rw [itemized] at alike
    cases alike
  | ok item =>
    rw [itemized] at alike
    have single : (Except.ok [.program program] : Except VisitError (List Item)) =
        .ok [item.unplaced] := alike
    have same := (List.cons.inj (Except.ok.inj single)).1
    cases item with
    | program found => exact ⟨tree, found, parsed, itemized, (Item.program.inj same).symm⟩
    | _ => cases same

end LeftHand
