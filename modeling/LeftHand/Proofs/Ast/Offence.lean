import LeftHand.Proofs.Ast.Numeral
import LeftHand.Proofs.Ast.Shape
import LeftHand.Proofs.Grammar.Reading
import LeftHand.Proofs.Lower.Success

/-!
Offences: construction of a program fails at the first offence of its parse tree and nowhere else.

An offence is a number that is too large, or a variable or a parameter of plain void type. Every
other demand of the rules is met on parse trees, because the items of a phrase have the shape of its
form.
-/

namespace LeftHand

open List

/-- The number that a number token denotes. -/
def Token.number (token : Token) : Nat :=
  leftNumber (withoutEnds 2 token.text)

/-- What makes construction fail. -/
inductive Offence where
  | number | declaration | parameter
deriving DecidableEq, Repr

/-- The name of the terminal or rule that an offence is reported for. -/
def Offence.rule : Offence → String
  | number => "INTEGER"
  | declaration => "var_decl_stmt"
  | parameter => "param"

/-- A number is an offence if it is above the largest one. -/
def Token.offence? (token : Token) : Option Offence :=
  if token.kind = .integer ∧ maxInteger < token.number then some .number else none

/-- A phrase is an offence if it declares a variable or a parameter of plain void type. -/
def Rule.offence? : Rule → List Tree → Option Offence
  | .declareStmt, written :: _ => if written.isPlainVoid then some .declaration else none
  | .param, written :: _ => if written.isPlainVoid then some .parameter else none
  | _, _ => none

namespace Tree

/-- The offence of a tree itself, not of its parts. -/
def offence? : Tree → Option Offence
  | leaf token => token.offence?
  | node rule children => rule.offence? children

mutual

/-- All parts of a tree from the leaves upwards and from left to right, last the tree itself. -/
def walk : Tree → List Tree
  | leaf token => [leaf token]
  | node rule children => walkAll children ++ [node rule children]

/-- All parts of trees next to each other. -/
def walkAll : List Tree → List Tree
  | [] => []
  | tree :: trees => tree.walk ++ walkAll trees

end

/-- The first offence in trees next to each other. -/
def firstOffence? (trees : List Tree) : Option Offence :=
  (walkAll trees).findSome? offence?

theorem walkAll_append (trees more : List Tree) :
    walkAll (trees ++ more) = walkAll trees ++ walkAll more := by
  induction trees with
  | nil => rfl
  | cons tree trees ih => simp [walkAll, ih]

theorem firstOffence?_append (trees more : List Tree) :
    firstOffence? (trees ++ more) = (firstOffence? trees).or (firstOffence? more) := by
  simp [firstOffence?, walkAll_append, findSome?_append]

theorem firstOffence?_leaf (token : Token) : firstOffence? [leaf token] = token.offence? := by
  simp only [firstOffence?, walkAll, walk, List.append_nil, findSome?_cons,
    findSome?_nil, offence?]
  cases token.offence? <;> rfl

theorem firstOffence?_node (rule : Rule) (children : List Tree) :
    firstOffence? [node rule children] =
      (firstOffence? children).or (rule.offence? children) := by
  simp only [firstOffence?, walkAll, walk, List.append_nil, findSome?_append,
    findSome?_cons, findSome?_nil, offence?]
  cases rule.offence? children <;> rfl

theorem items_append (trees more : List Tree) :
    items (trees ++ more) = (items trees).bind fun some => (items more).map (some ++ ·) := by
  induction trees with
  | nil =>
    cases made : items more <;> simp [items, made, Except.bind, Except.map]
  | cons tree trees ih =>
    cases made : tree.item <;> cases others : items trees <;> cases rest : items more <;>
      simp_all [items, bind, Except.bind, Except.map, pure, Except.pure]

theorem items_leaf (token : Token) :
    items [.leaf token] =
      ((token.kind.construct token.word).mapError (⟨token.kind.name, ·⟩)).map fun item => [item] := by
  rw [items, item]
  cases token.kind.construct token.word <;> rfl

theorem items_node (rule : Rule) (children : List Tree) :
    items [.node rule children] =
      (items children).bind fun made =>
        ((rule.construct made).mapError (⟨rule.name, ·⟩)).map fun item => [item] := by
  rw [items, item]
  cases items children with
  | error => rfl
  | ok made =>
    change ((rule.construct made).mapError _ >>= fun item => Except.ok [item]) =
      ((rule.construct made).mapError _).map _
    cases rule.construct made <;> rfl

end Tree

section Answers

variable {rule : Rule} {trees : List Tree} {items : List Item}

/-- The items of a phrase make a node of the kind that the rule stands for, and the same node if
they stand elsewhere. -/
def Rule.Builds (rule : Rule) (trees : List Tree) (items : List Item) : Prop :=
  ∃ item, rule.construct items = .ok item ∧
    rule.construct (items.map Item.unplaced) = .ok item.unplaced ∧
      rule.Makes (.node rule trees) item

/-- The items of a phrase are refused exactly if the phrase is an offence itself. -/
def Rule.Answers (rule : Rule) (trees : List Tree) (items : List Item) : Prop :=
  match rule.offence? trees with
  | none => rule.Builds trees items
  | some offence => rule.construct items = .error .mismatch ∧
      rule.construct (items.map Item.unplaced) = .error .mismatch ∧ offence.rule = rule.name

/-- The items of a phrase have one of the shapes of its rule, unless the phrase declares something
of plain void type. -/
def Rule.Meets (rule : Rule) (trees : List Tree) (items : List Item) : Prop :=
  match rule.offence? trees with
  | none => ∃ item, rule.Forms items item
  | some _ => ∃ written ident, items = [.type written, .ident ident] ∧ written.isVoid = true

/-- Each phrase that is shown as a node is built from its items, or is an offence. -/
theorem Rule.meets (fits : Fits rule.keepsTokens rule.body trees items)
    (unfolded : rule.isTransparent = true → trees.length ≠ 1) : rule.Meets trees items := by
  -- Both rules that declare a name refuse plain void types.
  have typed {tree other : Tree} {written : Ty} {ident : Ident} (offence : Offence)
      (isVoid : written.isVoid = tree.isPlainVoid)
      (offends : rule.offence? [tree, other] = if tree.isPlainVoid then some offence else none)
      (forms : written.isVoid = false → ∃ item, rule.Forms [.type written, .ident ident] item) :
      rule.Meets [tree, other] [.type written, .ident ident] := by
    rw [Rule.Meets, offends, ← isVoid]
    cases plain : written.isVoid with
    | true => exact ⟨written, ident, rfl, plain⟩
    | false => exact forms plain
  cases rule with
  | program => exact forms_program fits
  | function => exact forms_function fits
  | params =>
    obtain ⟨params, rfl⟩ := Fits.exists_map fits Item.param fun _ _ makes => makes
    exact ⟨_, .params params⟩
  | param =>
    obtain ⟨_, _, _, _, rfl, rfl, type, named⟩ := fits.of_seq
    obtain ⟨_, _, rfl, rfl, written, rfl, _, isVoid⟩ := type.of_phrase
    obtain ⟨_, _, rfl, rfl, ident, rfl⟩ := named.of_token rfl
    exact typed .parameter isVoid rfl fun full => ⟨_, .param ident full⟩
  | declareStmt =>
    obtain ⟨_, _, _, _, rfl, rfl, type, named⟩ := fits.of_seq
    obtain ⟨_, _, rfl, rfl, written, rfl, _, isVoid⟩ := type.of_phrase
    obtain ⟨_, _, rfl, rfl, ident, rfl⟩ := (named.before_hidden rfl).of_token rfl
    exact typed .declaration isVoid rfl fun full => ⟨_, .declare ident full⟩
  | block => exact forms_block fits
  | statement =>
    obtain ⟨form, member, fits⟩ := Fits.of_oneOf (cons_ne_nil _ _) fits
    simp only [mem_cons, not_mem_nil, or_false] at member
    refine absurd ?_ (unfolded rfl)
    rcases member with rfl | rfl | rfl | rfl | rfl | rfl | rfl <;>
      obtain ⟨_, _, rfl, _⟩ := fits.of_phrase <;> rfl
  | retStmt => exact forms_retStmt fits
  | assignStmt => exact forms_assignStmt fits
  | exprStmt =>
    obtain ⟨_, _, rfl, rfl, value, rfl, _⟩ := (fits.before_hidden rfl).of_phrase
    exact ⟨_, .exprStmt value⟩
  | bassStmt =>
    obtain ⟨_, _, _, _, rfl, rfl, marked, closing⟩ := fits.of_seq
    obtain ⟨_, _, rfl, rfl, mark, rfl, _⟩ := marked.of_token rfl
    obtain ⟨_, _, rfl, rfl, last, rfl, _⟩ := closing.of_token rfl
    exact ⟨_, .bass mark last⟩
  | ifStmt => exact forms_ifStmt fits
  | elseIfStmt =>
    obtain ⟨condition, body, rfl⟩ := guarded_of_fits rfl fits
    exact ⟨_, .elseIf condition body⟩
  | elseStmt =>
    obtain ⟨_, _, rfl, rfl, body, rfl⟩ := (fits.behind_hidden rfl).of_phrase
    exact ⟨_, .otherwise body⟩
  | asStmt =>
    obtain ⟨condition, body, rfl⟩ := guarded_of_fits rfl fits
    exact ⟨_, .loop condition body⟩
  | expr =>
    obtain ⟨_, _, rfl, rfl, value, rfl, _⟩ := fits.of_phrase
    exact ⟨_, .expr value⟩
  | orExpr | andExpr | equality | comparison | formula | term => exact forms_chain rfl fits
  | factor => exact forms_factor fits
  | derefExpr => exact forms_derefExpr fits
  | revExpr =>
    obtain ⟨value, rfl⟩ := operand_of_fits rfl fits
    exact ⟨_, .rev value⟩
  | negExpr =>
    obtain ⟨value, rfl⟩ := operand_of_fits rfl fits
    exact ⟨_, .neg value⟩
  | execExpr => exact forms_execExpr fits
  | nameExpr => exact forms_nameExpr fits
  | literal =>
    obtain ⟨form, member, fits⟩ := Fits.of_oneOf (cons_ne_nil _ _) fits
    simp only [List.map, mem_cons, not_mem_nil, or_false] at member
    refine absurd ?_ (unfolded rfl)
    rcases member with rfl | rfl | rfl <;>
      obtain ⟨_, _, rfl, _⟩ := fits.of_token rfl <;> rfl
  | type => exact forms_type fits
  | voidType | decimalType | booleanType | charType =>
    obtain ⟨_, _, rfl, rfl, word, rfl, _⟩ := fits.of_token rfl
    first | exact ⟨_, .voidType word⟩ | exact ⟨_, .decimalType word⟩ | exact ⟨_, .booleanType word⟩ |
      exact ⟨_, .charType word⟩

theorem Rule.construct_of_offence? {offence : Offence} (offends : rule.offence? trees = some offence)
    {written : Ty} (ident : Ident) (isVoid : written.isVoid = true) :
    rule.construct [.type written, .ident ident] = .error .mismatch ∧ offence.rule = rule.name := by
  unfold Rule.offence? at offends
  split at offends
  case h_3 => cases offends
  all_goals
    split at offends <;> cases offends
    simp only [Rule.construct, isVoid]
    exact ⟨rfl, rfl⟩

theorem Rule.answers (fits : Fits rule.keepsTokens rule.body trees items)
    (unfolded : rule.isTransparent = true → trees.length ≠ 1) : rule.Answers trees items := by
  have meets := Rule.meets fits unfolded
  unfold Rule.Meets at meets
  unfold Rule.Answers
  split at meets
  · obtain ⟨item, forms⟩ := meets
    exact ⟨item, forms.construct, (forms.unplaced fits.isPlaced).construct,
      forms.makes fits.isPlaced (fits.length_eq ▸ unfolded) trees⟩
  · rename_i offends
    obtain ⟨written, ident, rfl, isVoid⟩ := meets
    obtain ⟨refused, named⟩ := construct_of_offence? offends ident isVoid
    have isVoidToo : written.unplaced.isVoid = true := by cases written <;> first | rfl | cases isVoid
    exact ⟨refused, (construct_of_offence? offends ident.unplaced isVoidToo).1, named⟩

/-- What the items of a phrase make, they make by one of the shapes of the rule. -/
theorem Rule.forms_of_construct (fits : Fits rule.keepsTokens rule.body trees items)
    (unfolded : rule.isTransparent = true → trees.length ≠ 1) {item : Item}
    (made : rule.construct items = .ok item) : rule.Forms items item := by
  have meets := Rule.meets fits unfolded
  unfold Rule.Meets at meets
  split at meets
  · obtain ⟨other, forms⟩ := meets
    cases forms.construct.symm.trans made
    exact forms
  · rename_i offends
    obtain ⟨written, ident, rfl, isVoid⟩ := meets
    cases (construct_of_offence? offends ident isVoid).1.symm.trans made

theorem Rule.makes_of_single {rule : Rule} (transparent : rule.isTransparent = true) {tree : Tree}
    (fits : Fits rule.keepsTokens rule.body [tree] items) :
    ∃ item, items = [item] ∧ rule.Makes tree item := by
  cases rule <;> cases transparent
  case statement =>
    obtain ⟨form, member, fits⟩ := Fits.of_oneOf (cons_ne_nil _ _) fits
    simp only [mem_cons, not_mem_nil, or_false] at member
    rcases member with rfl | rfl | rfl | rfl | rfl | rfl | rfl <;>
      obtain ⟨_, item, same, rfl, makes⟩ := fits.of_phrase <;> cases same <;>
      exact ⟨item, rfl, makes⟩
  case literal =>
    obtain ⟨form, member, fits⟩ := Fits.of_oneOf (cons_ne_nil _ _) fits
    simp only [List.map, mem_cons, not_mem_nil, or_false] at member
    rcases member with rfl | rfl | rfl <;>
      obtain ⟨_, item, same, rfl, makes⟩ := fits.of_token rfl <;> cases same <;>
      exact ⟨item, rfl, makes⟩
  case type =>
    obtain ⟨_, _, _, _, whole, rfl, base, behind⟩ := fits.of_seq
    obtain ⟨only, item, rfl, rfl, makes⟩ := makes_base base
    -- Marks would be further children.
    obtain ⟨rfl, rfl⟩ := List.cons.inj whole
    obtain rfl := eq_nil_of_length_eq_zero behind.length_eq.symm
    exact ⟨item, rfl, makes⟩

end Answers

section Checked

/-- The digits of a number are not too many to be read. -/
def Token.IsShort (token : Token) : Prop :=
  token.kind = .integer → (withoutEnds 2 token.text).length ≤ maxDigits

instance (token : Token) : Decidable token.IsShort :=
  inferInstanceAs (Decidable (_ → _))

/-- All numbers among the parts of some trees can be read. -/
def Tree.AllShort (trees : List Tree) : Prop :=
  ∀ token, .leaf token ∈ walkAll trees → token.IsShort

/-- Trees make items of a shape if they make any, and do the same wherever they stand; construction
fails exactly at their first offence. -/
structure Tree.Checked (trees : List Tree) (shape : List Item → Prop) : Prop where
  alike : items (trees.map unplaced) = (items trees).map (List.map Item.unplaced)
  shaped : ∀ made, items trees = .ok made → shape made
  fails : AllShort trees →
    match firstOffence? trees with
    | none => ∃ made, items trees = .ok made
    | some offence => items trees = .error ⟨offence.rule, .mismatch⟩

namespace Tree.Checked

variable {trees more : List Tree} {shape other : List Item → Prop}

theorem nil (holds : shape []) : Checked [] shape where
  alike := rfl
  shaped := by
    rintro _ ⟨⟩
    exact holds
  fails _ := ⟨[], rfl⟩

theorem mono (checked : Checked trees shape) (weaker : ∀ made, shape made → other made) :
    Checked trees other :=
  ⟨checked.alike, fun made built => weaker made (checked.shaped made built), checked.fails⟩

theorem append (before : Checked trees shape) (behind : Checked more other) :
    Checked (trees ++ more) fun made => ∃ one two, made = one ++ two ∧ shape one ∧ other two where
  alike := by
    rw [map_append, items_append, items_append, before.alike, behind.alike]
    cases items trees with
    | error => rfl
    | ok one =>
      cases items more with
      | error => rfl
      | ok two => exact congrArg Except.ok map_append.symm
  shaped := by
    intro made built
    rw [items_append] at built
    obtain ⟨one, first, built⟩ := bind_eq_ok.mp built
    obtain ⟨two, second, rfl⟩ := map_eq_ok.mp built
    exact ⟨one, two, rfl, before.shaped one first, behind.shaped two second⟩
  fails := by
    intro short
    unfold AllShort at short
    rw [walkAll_append] at short
    have one := before.fails fun token inside => short token (mem_append_left _ inside)
    have two := behind.fails fun token inside => short token (mem_append_right _ inside)
    rw [firstOffence?_append, items_append]
    cases first : firstOffence? trees with
    | some offence =>
      rw [first] at one
      simp only [Option.some_or, one]
      rfl
    | none =>
      rw [first] at one
      obtain ⟨made, built⟩ := one
      simp only [Option.none_or, built]
      split at two
      · obtain ⟨others, built⟩ := two
        exact ⟨made ++ others, by rw [built]; rfl⟩
      · rw [two]
        rfl

theorem node {rule : Rule} (children : Checked trees fun made => rule.Answers trees made) :
    Checked [.node rule trees] fun made =>
      ∃ item, made = [item] ∧ rule.Makes (.node rule trees) item where
  alike := by
    rw [map_singleton, unplaced, Tree.unplacedAll_eq_map, items_node, items_node, children.alike]
    cases built : items trees with
    | error => rfl
    | ok made =>
      have answers := children.shaped made built
      unfold Rule.Answers at answers
      simp only [Except.bind, Except.map]
      split at answers
      · obtain ⟨item, constructed, same, _⟩ := answers
        rw [constructed, same]
        rfl
      · obtain ⟨refused, same, _⟩ := answers
        rw [refused, same]
        rfl
  shaped := by
    intro whole built
    rw [items_node] at built
    obtain ⟨made, inner, built⟩ := bind_eq_ok.mp built
    have answers := children.shaped made inner
    unfold Rule.Answers at answers
    split at answers
    · obtain ⟨item, constructed, _, makes⟩ := answers
      rw [constructed] at built
      cases built
      exact ⟨item, rfl, makes⟩
    · rw [answers.1] at built
      cases built
  fails := by
    intro short
    have inside := children.fails fun token member =>
      short token (by simp only [walkAll, walk, List.append_nil]; exact mem_append_left _ member)
    rw [firstOffence?_node, items_node]
    cases first : firstOffence? trees with
    | some offence =>
      rw [first] at inside
      rw [inside]
      rfl
    | none =>
      rw [first] at inside
      obtain ⟨made, built⟩ := inside
      have answers := children.shaped made built
      rw [built]
      unfold Rule.Answers at answers
      simp only [Option.none_or, Except.bind, Except.map]
      split at answers
      · obtain ⟨item, constructed, _⟩ := answers
        rw [constructed]
        exact ⟨[item], rfl⟩
      · obtain ⟨refused, _, named⟩ := answers
        rw [refused, named]
        rfl

end Tree.Checked

theorem withoutEnds_number (digits : List Char) :
    withoutEnds 2 ('%' :: 'd' :: digits ++ ['!', 'd']) = digits := by
  simp [withoutEnds]

theorem construct_integer {digits : List Char} (word : Word) (filled : digits ≠ [])
    (digital : digits.all isNumeral = true) (short : digits.length ≤ maxDigits)
    (text : word.text = .ofList ('%' :: 'd' :: digits ++ ['!', 'd'])) :
    Terminal.integer.construct word =
      if maxInteger < leftNumber digits then .error .mismatch
      else .ok (.expr (.decimal word.pos (leftNumber digits))) := by
  change integerItem word = _
  rw [integerItem, text, String.toList_ofList, integerValue_eq filled digital short]
  change (demand (decide (minInteger ≤ (leftNumber digits : Int)) &&
    decide ((leftNumber digits : Int) ≤ maxInteger)) >>= fun _ => _) = _
  -- No number is below zero, so only the upper bound counts.
  have above : decide (minInteger ≤ (leftNumber digits : Int)) = true := by
    simp [minInteger]
  by_cases large : maxInteger < leftNumber digits
  · have refused : decide ((leftNumber digits : Int) ≤ maxInteger) = false := by
      simpa using large
    rw [if_pos large, above, refused]
    rfl
  · have allowed : decide ((leftNumber digits : Int) ≤ maxInteger) = true := by
      simpa using large
    rw [if_neg large, above, allowed]
    rfl

theorem construct_other {kind : Terminal} {before : Option Char} {text piece rest : List Char}
    (taken : kind.spelling.take? before text = some (piece, rest)) (other : kind ≠ .integer)
    (word : Word) (same : word.text = .ofList piece) :
    ∃ item, kind.construct word = .ok item ∧ kind.Makes item := by
  by_cases fixed : kind.spelling.words = []
  · -- Strings and names are the other kinds without fixed words.
    cases kind with
    | integer => exact absurd rfl other
    | string => exact ⟨_, rfl, _, rfl, rfl⟩
    | identifier => exact ⟨_, rfl, _, rfl⟩
    | _ => cases fixed
  · have spelled := mem_words_of_take? taken fixed
    cases kind with
    | integer | string | identifier => exact absurd rfl fixed
    | booleanLiteral => exact ⟨_, rfl, _, rfl, rfl⟩
    | _ => exact ⟨_, rfl, word, rfl, piece, spelled, same⟩

theorem Terminal.construct_unplaced (kind : Terminal) (word : Word) :
    kind.construct word.unplaced = (kind.construct word).map Item.unplaced := by
  cases kind with
  | integer =>
    change integerItem word.unplaced = (integerItem word).map Item.unplaced
    rw [integerItem, integerItem, Word.unplaced]
    cases integerValue word.text.toList with
    | error => rfl
    | ok value =>
      change (demand _ >>= fun _ => _) = Except.map _ (demand _ >>= fun _ => _)
      cases decide (minInteger ≤ value) && decide (value ≤ maxInteger) <;> rfl
  | _ => rfl

theorem makes_integer {word : Word} {item : Item} (built : Terminal.integer.construct word = .ok item) :
    Terminal.integer.Makes item := by
  obtain ⟨value, _, built⟩ := bind_eq_ok.mp (show integerItem word = .ok item from built)
  obtain ⟨_, _, built⟩ := bind_eq_ok.mp built
  cases built
  exact ⟨_, rfl, rfl⟩

theorem Cursor.checked_of_take? {here there : Cursor} {kind : Terminal} {token : Token}
    (taken : here.take? kind = some (token, there)) :
    Tree.Checked [.leaf token] fun made => ∃ item, made = [item] ∧ kind.Makes item := by
  obtain ⟨piece, rest, found, rfl, _⟩ := take?_eq_some.mp taken
  refine ⟨?_, ?_, ?_⟩
  · rw [map_singleton, Tree.unplaced, Tree.items_leaf, Tree.items_leaf]
    change ((kind.construct (Token.word ⟨kind, piece, here.skipGap.place⟩).unplaced).mapError _).map _ = _
    rw [Terminal.construct_unplaced]
    cases kind.construct (Token.word ⟨kind, piece, here.skipGap.place⟩) <;> rfl
  · intro made built
    rw [Tree.items_leaf] at built
    obtain ⟨item, built, rfl⟩ := map_eq_ok.mp built
    refine ⟨item, rfl, ?_⟩
    cases constructed : kind.construct (Token.word ⟨kind, piece, here.skipGap.place⟩) with
    | error error =>
      simp only [constructed] at built
      cases built
    | ok other =>
      simp only [constructed] at built
      cases built
      by_cases isNumber : kind = .integer
      · subst isNumber
        exact makes_integer constructed
      · obtain ⟨same, again, makes⟩ := construct_other found isNumber
          (Token.word ⟨kind, piece, here.skipGap.place⟩) rfl
        rw [constructed] at again
        cases again
        exact makes
  · intro short
    rw [Tree.firstOffence?_leaf, Token.offence?, Tree.items_leaf]
    by_cases isNumber : kind = .integer
    · subst isNumber
      obtain ⟨digits, filled, digital, rfl, _⟩ := take?_number.mp found
      have few := short _ mem_cons_self rfl
      simp only [Token.number, withoutEnds_number] at few ⊢
      rw [construct_integer (Token.word ⟨.integer, '%' :: 'd' :: digits ++ ['!', 'd'],
        here.skipGap.place⟩) filled digital few rfl]
      by_cases large : maxInteger < leftNumber digits
      · rw [if_pos large, if_pos ⟨trivial, large⟩]
        rfl
      · rw [if_neg large, if_neg fun offends => large offends.2]
        exact ⟨_, rfl⟩
    · obtain ⟨item, built, _⟩ := construct_other found isNumber
        (Token.word ⟨kind, piece, here.skipGap.place⟩) rfl
      rw [if_neg fun offends => isNumber offends.1, built]
      exact ⟨[item], rfl⟩

variable {form : Form} {here there : Cursor} {derivation : Derivation}

/-- Construction meets the shape of each form, or fails at the first offence. -/
theorem Derives.checked (derived : Derives form here derivation there) (keep : Bool) :
    Tree.Checked (derivation.trees keep) (Fits keep form (derivation.trees keep)) := by
  induction derived generalizing keep with
  | empty => exact .nil .empty
  | none => exact .nil .none
  | @token kind _ token _ taken =>
    have same := Cursor.kind_of_take? taken
    simp only [Derivation.trees]
    split
    · rename_i shown
      rw [same] at shown
      refine (Cursor.checked_of_take? taken).mono ?_
      rintro _ ⟨item, rfl, makes⟩
      exact .token shown makes
    · rename_i hides
      rw [same, Bool.not_eq_true] at hides
      exact .nil (.hidden hides)
  | @phrase rule _ body _ derived ih =>
    have children := ih rule.keepsTokens
    simp only [Derivation.trees]
    split
    · rename_i child transparent single
      rw [single] at children
      refine children.mono ?_
      intro made fits
      obtain ⟨item, rfl, makes⟩ := Rule.makes_of_single transparent fits
      exact .phrase makes
    · rename_i unfolded
      refine (Tree.Checked.node (children.mono ?_)).mono ?_
      · intro made fits
        refine Rule.answers fits ?_
        intro transparent single
        obtain ⟨child, alone⟩ := length_eq_one_iff.mp single
        exact unfolded child transparent alone
      · rintro _ ⟨item, rfl, makes⟩
        exact .phrase makes
  | seq _ _ before behind =>
    refine ((before keep).append (behind keep)).mono ?_
    rintro _ ⟨_, _, rfl, fits, others⟩
    exact .seq fits others
  | more _ _ before behind =>
    refine ((before keep).append (behind keep)).mono ?_
    rintro _ ⟨_, _, rfl, fits, others⟩
    exact .more fits others
  | left _ ih =>
    refine (ih keep).mono ?_
    exact fun _ fits => .left fits
  | right _ ih =>
    refine (ih keep).mono ?_
    exact fun _ fits => .right fits

end Checked

section Programs

/-- A program is made from a parse tree exactly if no part of the tree is an offence; otherwise the
failure is reported for the first offence. -/
theorem item_fails_at_first_offence {text : List Char} {tree : Tree} (parsed : parse text = .ok tree)
    (short : ∀ token, .leaf token ∈ tree.walk → token.IsShort) :
    (tree.item.isOk = true ↔ ∀ part ∈ tree.walk, part.offence? = none) ∧
    (∀ item, tree.item = .ok item → ∃ program, item = .program program) ∧
    ∀ error, tree.item = .error error → ∃ before offender behind offence,
      tree.walk = before ++ offender :: behind ∧ (∀ part ∈ before, part.offence? = none) ∧
        offender.offence? = some offence ∧ error = ⟨offence.rule, .mismatch⟩ := by
  obtain ⟨derivation, ⟨there, reading, _⟩, shown⟩ := exists_reading parsed
  have whole : Tree.walkAll [tree] = tree.walk := by simp [Tree.walkAll]
  have checked : Tree.Checked [tree] (Fits false (.phrase .program) [tree]) := shown ▸ reading.checked false
  have fails := checked.fails (by rwa [Tree.AllShort, whole])
  rw [Tree.firstOffence?, whole] at fails
  cases first : tree.walk.findSome? Tree.offence? with
  | none =>
    rw [first] at fails
    obtain ⟨made, built⟩ := fails
    obtain ⟨_, _, _, rfl, program, rfl⟩ := (checked.shaped made built).of_phrase
    rw [Tree.items] at built
    obtain ⟨item, made, rest⟩ := bind_eq_ok.mp built
    cases rest
    have clean := findSome?_eq_none_iff.mp first
    refine ⟨⟨fun _ => clean, fun _ => by rw [made]; rfl⟩, ?_, ?_⟩
    · intro item again
      rw [made] at again
      cases again
      exact ⟨program, rfl⟩
    · intro error again
      rw [made] at again
      cases again
  | some offence =>
    rw [first] at fails
    have failed : tree.item = .error ⟨offence.rule, .mismatch⟩ := by
      cases made : tree.item with
      | ok item => simp [Tree.items, made, bind, Except.bind, pure, Except.pure] at fails
      | error error => simpa [Tree.items, made, bind, Except.bind] using fails
    obtain ⟨before, offender, behind, split, offends, clean⟩ := findSome?_eq_some_iff.mp first
    refine ⟨⟨?_, ?_⟩, ?_, ?_⟩
    · intro made
      rw [failed] at made
      cases made
    · intro none
      have fine := none offender (by simp [split])
      rw [offends] at fine
      cases fine
    · intro item again
      rw [failed] at again
      cases again
    · intro error again
      rw [failed] at again
      cases again
      exact ⟨before, offender, behind, offence, split, clean, offends, rfl⟩

/-- The void variable is the first offence, although the number behind it is too large; the pointer
to void before it is fine. -/
theorem item_fails_at_void_variable :
    ∃ tree, parse "def v@1d f v@1d#x %s v@1d w$ret %ddddddddddddddddddddd!d$!s".toList = .ok tree ∧
      tree.item = .error ⟨"var_decl_stmt", .mismatch⟩ ∧
        ∃ before offender behind offence, tree.walk = before ++ offender :: behind ∧
          (∀ part ∈ before, part.offence? = none) ∧ offender.offence? = some offence ∧
            offence.rule = "var_decl_stmt" := by
  have parsed : parse "def v@1d f v@1d#x %s v@1d w$ret %ddddddddddddddddddddd!d$!s".toList =
      .ok (.node .program [.node .function [.leaf ⟨.defWord, ['d', 'e', 'f'], 0⟩,
        .node .voidType [.leaf ⟨.voidWord, ['v', '@', '1', 'd'], 4⟩], .leaf ⟨.identifier, ['f'], 9⟩,
        .node .params [.node .param [.node .type [
          .node .voidType [.leaf ⟨.voidWord, ['v', '@', '1', 'd'], 11⟩],
          .leaf ⟨.pointerMark, ['#'], 15⟩], .leaf ⟨.identifier, ['x'], 16⟩]],
        .node .block [.leaf ⟨.scopeStart, ['%', 's'], 18⟩,
          .node .declareStmt [.node .voidType [.leaf ⟨.voidWord, ['v', '@', '1', 'd'], 21⟩],
            .leaf ⟨.identifier, ['w'], 26⟩],
          .node .retStmt [.leaf ⟨.retWord, ['r', 'e', 't'], 28⟩,
            .node .expr [.node .orExpr [.node .andExpr [.node .equality [.node .comparison [
              .node .formula [.node .term [.node .factor [
                .leaf ⟨.integer, "%ddddddddddddddddddddd!d".toList, 32⟩]]]]]]]],
            .leaf ⟨.lineEnd, ['$'], 56⟩],
          .leaf ⟨.scopeEnd, ['!', 's'], 57⟩]]]) := by
    cbv
  refine ⟨_, parsed, rfl, ?_⟩
  obtain ⟨before, offender, behind, offence, split, clean, offends, same⟩ :=
    (item_fails_at_first_offence parsed (by
      intro token leaf
      simp only [Tree.walk, Tree.walkAll, List.append_nil, cons_append, nil_append,
        mem_cons, not_mem_nil, Tree.leaf.injEq, reduceCtorEq, false_or, or_false] at leaf
      rcases leaf with rfl | rfl | rfl | rfl | rfl | rfl | rfl | rfl | rfl | rfl | rfl | rfl | rfl <;>
        decide)).2.2 _ rfl
  exact ⟨before, offender, behind, offence, split, clean, offends, (congrArg VisitError.rule same).symm⟩

end Programs

end LeftHand
