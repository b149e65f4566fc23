import LeftHand.Proofs.Source.Reads

/-! Chains of operands with operators between them are read as precedence climbing groups them. -/

namespace LeftHand

open List

variable {here : Cursor}

namespace BinOp

/-- How tightly an operator binds. -/
def precedence : BinOp → Nat
  | mul | div | mod => 6
  | add | sub => 5
  | less | greater | lessEqual | greaterEqual => 4
  | equals | revEquals => 3
  | and => 2
  | or => 1

/-- The terminal of an operator. -/
def terminal : BinOp → Terminal
  | mul => .mulWord
  | div => .divWord
  | mod => .modWord
  | add => .addWord
  | sub => .subWord
  | less => .lessWord
  | lessEqual => .lessEqualWord
  | greater => .greaterWord
  | greaterEqual => .greaterEqualWord
  | equals => .equalWord
  | revEquals => .notEqualWord
  | and => .andWord
  | or => .orWord

/-- The word that an operator is written as. -/
def text : BinOp → List Char
  | mul => ['t']
  | div => ['d']
  | mod => ['%', '%']
  | add => ['a']
  | sub => ['s']
  | less => ['1', 't']
  | lessEqual => ['1', 't', 'e']
  | greater => ['g', 't']
  | greaterEqual => ['g', 't', 'e']
  | equals => ['e', 'q']
  | revEquals => ['r', 'e', 'q']
  | and => ['@', '@']
  | or => ['@', 'r']

/-- The item that an operator makes. -/
def item (op : BinOp) : Item :=
  .word (Token.word ⟨op.terminal, op.text, 0⟩)

theorem take?_text (op : BinOp) : op.terminal.spelling.take? none op.text = some (op.text, []) := by
  cases op <;> decide

theorem onlyFor_text (op : BinOp) : OnlyFor [op.terminal] op.text := by
  intro kind differs
  cases op <;> cases kind <;> first | rfl | exact absurd mem_cons_self differs

theorem containsWord_text (op : BinOp) : containsWord ambiguityMark op.text = false := by
  cases op <;> decide

theorem construct_terminal (op : BinOp) :
    op.terminal.construct (Token.word ⟨op.terminal, op.text, 0⟩) = .ok op.item := by
  cases op <;> rfl

end BinOp

section Climb

variable {α : Type} (value : α → Expr)

/-- Precedence climbing: operators that bind at least so tightly are taken from the left, each with
a right side whose operators bind more tightly; the others are left. -/
def climb (least : Nat) (lhs : Expr) (rest : List (BinOp × α)) :
    { out : Expr × List (BinOp × α) // out.2 <:+ rest } :=
  match rest with
  | [] => ⟨(lhs, []), suffix_refl _⟩
  | (op, operand) :: rest =>
    if op.precedence < least then ⟨(lhs, (op, operand) :: rest), suffix_refl _⟩
    else
      match climb (op.precedence + 1) (value operand) rest with
      | ⟨(rhs, behind), remains⟩ =>
        let whole := climb least (.binary .start op lhs rhs) behind
        ⟨whole.1, whole.2.trans (remains.trans (suffix_cons _ _))⟩
termination_by rest.length
decreasing_by
  · exact Nat.lt_succ_self _
  · exact Nat.lt_succ_of_le remains.length_le

variable {value} {least : Nat} {lhs : Expr} {op : BinOp} {operand : α} {rest : List (BinOp × α)}

theorem climb_nil : (climb value least lhs []).1 = (lhs, []) := by
  rw [climb]

theorem climb_stop (loose : op.precedence < least) :
    (climb value least lhs ((op, operand) :: rest)).1 = (lhs, (op, operand) :: rest) := by
  rw [climb, if_pos loose]

theorem climb_step (tight : least ≤ op.precedence) :
    (climb value least lhs ((op, operand) :: rest)).1 =
      let right := climb value (op.precedence + 1) (value operand) rest
      (climb value least (.binary .start op lhs right.1.1) right.1.2).1 := by
  rw [climb, if_neg (Nat.not_lt.mpr tight)]

example : (climb (fun name : String => Expr.name .start ⟨.start, name⟩) 1 (.name .start ⟨.start, "a"⟩)
    [(.add, "b"), (.mul, "c"), (.sub, "d")]).1.1 =
      .binary .start .sub (.binary .start .add (.name .start ⟨.start, "a"⟩)
        (.binary .start .mul (.name .start ⟨.start, "b"⟩) (.name .start ⟨.start, "c"⟩)))
        (.name .start ⟨.start, "d"⟩) := by
  cbv

/-- Induction along climbing: behind an operator stands what climbing leaves of its right side. -/
theorem climb_induction (value : α → Expr) {motive : List (BinOp × α) → Prop} (nil : motive [])
    (cons : ∀ op operand rest, motive (climb value (op.precedence + 1) (value operand) rest).1.2 →
      motive ((op, operand) :: rest)) (rest : List (BinOp × α)) : motive rest := by
  generalize size : rest.length = length
  induction length using Nat.strongRecOn generalizing rest with
  | ind length ih =>
    cases rest with
    | nil => exact nil
    | cons first rest =>
      have shorter := (climb value (first.1.precedence + 1) (value first.2) rest).2.length_le
      exact cons _ _ rest (ih _ (by simp only [length_cons] at size; omega) _ rfl)

theorem head_of_climb (value : α → Expr) (least : Nat) (lhs : Expr) (rest : List (BinOp × α)) :
    ∀ op operand others, (climb value least lhs rest).1.2 = (op, operand) :: others →
      op.precedence < least := by
  intro op operand others remains
  induction rest using climb_induction value generalizing lhs with
  | nil =>
    rw [climb_nil] at remains
    cases remains
  | cons next right rest ih =>
    by_cases loose : next.precedence < least
    · rw [climb_stop loose] at remains
      cases remains
      exact loose
    · rw [climb_step (Nat.not_lt.mp loose)] at remains
      exact ih _ remains

theorem pos_of_climb (value : α → Expr) (least : Nat) {lhs : Expr} (rest : List (BinOp × α))
    (placed : lhs.pos = .start) : (climb value least lhs rest).1.1.pos = .start := by
  induction rest using climb_induction value generalizing lhs with
  | nil => rw [climb_nil, placed]
  | cons op operand rest ih =>
    by_cases loose : op.precedence < least
    · rw [climb_stop loose, placed]
    · rw [climb_step (Nat.not_lt.mp loose)]
      exact ih rfl

/-- Climbing can stop at tighter operators first. -/
theorem climb_climb (value : α → Expr) (least : Nat) (lhs : Expr) (rest : List (BinOp × α)) :
    (climb value least lhs rest).1 =
      (climb value least (climb value (least + 1) lhs rest).1.1
        (climb value (least + 1) lhs rest).1.2).1 := by
  induction rest using climb_induction value generalizing lhs with
  | nil => rw [climb_nil, climb_nil, climb_nil]
  | cons op operand rest ih =>
    by_cases loose : op.precedence < least + 1
    · rw [climb_stop loose]
    · have tight := Nat.not_lt.mp loose
      rw [climb_step (Nat.le_of_succ_le tight), climb_step tight]
      exact ih _

theorem climb_factor (value : α → Expr) (lhs : Expr) (rest : List (BinOp × α)) :
    (climb value 7 lhs rest).1 = (lhs, rest) := by
  cases rest with
  | nil => exact climb_nil
  | cons first rest =>
    obtain ⟨op, operand⟩ := first
    exact climb_stop (by cases op <;> decide)

end Climb

/-- How tightly the operands of a level are joined. -/
def Rule.binding : Rule → Nat
  | .orExpr => 1
  | .andExpr => 2
  | .equality => 3
  | .comparison => 4
  | .formula => 5
  | .term => 6
  | .factor => 7
  | _ => 0

section Levels

variable {level operand : Rule} {operators : List Terminal}
  (isLevel : level.level? = some (operand, operators))

include isLevel

theorem binding_operand : operand.binding = level.binding + 1 := by
  cases level <;> cases isLevel <;> rfl

theorem mem_operators (op : BinOp) : op.terminal ∈ operators ↔ op.precedence = level.binding := by
  cases level <;> cases isLevel <;> cases op <;> decide

/-- The terminals of all operators. -/
def operatorKinds : List Terminal :=
  [.mulWord, .divWord, .modWord, .addWord, .subWord, .lessWord, .lessEqualWord, .greaterWord,
   .greaterEqualWord, .equalWord, .notEqualWord, .andWord, .orWord]

theorem operators_subset : ∀ kind ∈ operators, kind ∈ operatorKinds := by
  cases level <;> cases isLevel <;> decide

theorem oneToken_operators :
    operators.Nodup ∧ (Form.oneToken operators).isNullable = false ∧
      (Form.oneToken operators).first = operators := by
  cases level <;> cases isLevel <;> decide

theorem operator?_text (op : BinOp) (exact_ : op.precedence = level.binding) :
    level.operator? (.ofList op.text) = some op := by
  cases level <;> cases isLevel <;> cases op <;> first | rfl | cases exact_

/-- Operators and right operands joined to a left one, from left to right. -/
def joined (lhs : Expr) (pairs : List (BinOp × Expr)) : Expr :=
  pairs.foldl (fun lhs pair => .binary .start pair.1 lhs pair.2) lhs

/-- The items of operators and their right operands. -/
def pairItems (pairs : List (BinOp × Expr)) : List Item :=
  pairs.flatMap fun pair => [pair.1.item, .expr pair.2]

theorem construct_pairItems (first : Expr)
    (pairs : List (BinOp × Expr)) (each : ∀ pair ∈ pairs, pair.1.precedence = level.binding) :
    level.construct (.expr first :: pairItems pairs) = .ok (.expr (joined first pairs)) := by
  suffices chained : Chained level first (.expr first :: pairItems pairs) (joined first pairs) from
    (Rule.Forms.chain isLevel chained).construct
  induction pairs using List.reverseRecOn with
  | nil => exact .start
  | append_singleton before pair ih =>
    obtain ⟨op, rhs⟩ := pair
    rw [forall_mem_append, forall_mem_singleton] at each
    rw [joined, foldl_append, pairItems, flatMap_append]
    exact (ih each.1).more (operator?_text isLevel op each.2)

end Levels

section Words

/-- Operands with words between them. -/
def wordItems (first : Expr) (pairs : List (Word × Expr)) : List Item :=
  .expr first :: pairs.flatMap fun pair => [.word pair.1, .expr pair.2]

/-- The place of a word, and of an expression where the word has none. -/
def Word.placeOr (word : Word) (first : Expr) : Pos :=
  ⟨(word.line.filter (· ≠ 0)).getD first.pos.line, (word.column.filter (· ≠ 0)).getD first.pos.column⟩

theorem Word.placeOr_eq (word : Word) (first : Expr) : word.placeOr first = word.pos.orElse first.pos := by
  rcases word with ⟨_, _, _ | line, _ | column⟩ <;>
    simp [placeOr, pos, Pos.orElse, Option.filter] <;> grind

variable {level : Rule} {first : Expr} {pairs : List (Word × Expr)}

theorem chained_wordItems {op : Word → BinOp}
    (each : ∀ pair ∈ pairs, level.operator? pair.1.text = some (op pair.1)) :
    Chained level first (wordItems first pairs)
      (pairs.foldl (fun lhs pair => .binary (pair.1.placeOr first) (op pair.1) lhs pair.2) first) := by
  induction pairs using List.reverseRecOn with
  | nil => exact .start
  | append_singleton before pair ih =>
    rw [forall_mem_append, forall_mem_singleton] at each
    rw [foldl_append, wordItems, flatMap_append, foldl_cons, foldl_nil, Word.placeOr_eq]
    exact (ih each.1).more each.2

/-- The chain is folded from its end, and fails at the first word from there that is no operator. -/
theorem foldChain_wordItems_error (first : Expr)
    (unknown : ∃ pair ∈ pairs, level.operator? pair.1.text = none) :
    foldChain level first (wordItems first pairs).reverse = .error .mismatch := by
  induction pairs using List.reverseRecOn with
  | nil => simp at unknown
  | append_singleton before pair ih =>
    cases shape : (wordItems first before).reverse with
    | nil => simp [wordItems] at shape
    | cons last earlier =>
      have items : (wordItems first (before ++ [pair])).reverse =
          .expr pair.2 :: .word pair.1 :: last :: earlier := by
        simp [← shape, wordItems]
      rw [items, foldChain]
      cases spelled : level.operator? pair.1.text with
      | none => simp [Item.spelling, spelled, bind, Except.bind]
      | some op =>
        have earlierUnknown : ∃ pair ∈ before, level.operator? pair.1.text = none := by
          simpa [or_and_right, exists_or, spelled] using unknown
        rw [← shape, ih earlierUnknown]
        simp [Item.spelling, spelled, bind, Except.bind]

end Words

/-- Operands with words of one level between them are grouped to the left: each operator joins all
before it with the operand behind it, at its own place, or where that is not known at the place of
the first operand. If one of the words is no operator of the level, the items are refused. -/
theorem construct_left_fold {level : Rule}
    (isLevel : level ∈ [Rule.term, .formula, .comparison, .equality, .andExpr, .orExpr])
    (first : Expr) (pairs : List (Word × Expr)) :
    (∀ op : Word → BinOp, (∀ pair ∈ pairs, level.operator? pair.1.text = some (op pair.1)) →
      level.construct (wordItems first pairs) = .ok (.expr
        (pairs.foldl (fun lhs pair => .binary (pair.1.placeOr first) (op pair.1) lhs pair.2) first))) ∧
    ((∃ pair ∈ pairs, level.operator? pair.1.text = none) →
      level.construct (wordItems first pairs) = .error .mismatch) := by
  have chains (items : List Item) : level.construct items = chainItem level items := by
    simp only [mem_cons, not_mem_nil, or_false] at isLevel
    rcases isLevel with rfl | rfl | rfl | rfl | rfl | rfl <;> rfl
  rw [chains]
  refine ⟨fun op each => (chained_wordItems each).chainItem_eq, fun unknown => ?_⟩
  have folded := foldChain_wordItems_error first unknown
  match pairs, folded with
  | [], _ => simp at unknown
  | _ :: _, folded =>
    simp only [wordItems, flatMap_cons, cons_append, nil_append] at folded ⊢
    simp only [chainItem, folded]
    rfl

/-- Of two operators, the one without a place takes that of the first operand. -/
theorem construct_left_fold_unplaced :
    let a : Word := ⟨"", "a", some 1, some 7⟩
    let s : Word := ⟨"", "s", none, some 0⟩
    let operand (column : Int) : Expr := .decimal ⟨1, column⟩ 5
    Rule.construct .formula [.expr (operand 3), .word a, .expr (operand 9), .word s, .expr (operand 0)] =
      .ok (.expr (.binary ⟨1, 3⟩ .sub (.binary ⟨1, 7⟩ .add (operand 3) (operand 9)) (operand 0))) := by
  intro a s operand
  exact (construct_left_fold (by simp) (operand 3) [(a, operand 9), (s, operand 0)]).1
    (fun word => if word.text = "a" then .add else .sub) (by simp [a, s, Rule.operator?])

/-- A token other than an operator that binds at least so tightly stands at a place. -/
def Cursor.Breaks (least : Nat) (here : Cursor) : Prop :=
  ∃ kind taken, here.take? kind = some taken ∧ ∀ op : BinOp, op.terminal = kind → op.precedence < least

theorem Cursor.Breaks.mono {least more : Nat} (breaks : here.Breaks least) (weaker : least ≤ more) :
    here.Breaks more := by
  obtain ⟨kind, taken, found, loose⟩ := breaks
  exact ⟨kind, taken, found, fun op same => Nat.lt_of_lt_of_le (loose op same) weaker⟩

theorem not_breaks {op : BinOp} {least : Nat} (tight : least ≤ op.precedence)
    {rest : List (List Char)} (faces : here.Faces (op.text :: rest)) : ¬ here.Breaks least := by
  rintro ⟨kind, taken, found, loose⟩
  by_cases same : kind ∈ [op.terminal]
  · exact absurd (loose op (mem_singleton.mp same).symm) (Nat.not_lt.mpr tight)
  · have none := Option.isNone_iff_eq_none.mp (op.onlyFor_text kind same)
    rw [faces.take?_eq_none none] at found
    cases found

section Chain

variable {α : Type} (follows : List (List Char) → Prop) (value : α → Expr)
  (words : α → List (List Char))

/-- An operand is read as one, if what may follow it follows. -/
def IsOperand (operand : α) : Prop :=
  ∀ after, follows after → Reads (fun _ => True) false (.phrase .factor) (words operand ++ after)
    [.expr (value operand)] after

/-- The words of operators and their operands. -/
def chainWords (rest : List (BinOp × α)) : List (List Char) :=
  rest.flatMap fun item => item.1.text :: words item.2

/-- Words at which no operator can be taken. -/
def NoOperator (after : List (List Char)) : Prop :=
  ∀ word more, after = word :: more → operatorKinds.all (·.refuses word) = true

variable {follows value words} {level operand : Rule} {operators : List Terminal} {after : List (List Char)}

/-- At a level, the readings of operands and tighter operators. -/
def ReadsLevel (follows : List (List Char) → Prop) (value : α → Expr) (words : α → List (List Char))
    (after : List (List Char)) (level : Rule) : Prop :=
  ∀ first rest, IsOperand follows value words first → (∀ item ∈ rest, IsOperand follows value words item.2) →
    Reads (Cursor.Breaks level.binding) false (.phrase level)
      (words first ++ (chainWords words rest ++ after))
      [.expr (climb value level.binding (value first) rest).1.1]
      (chainWords words (climb value level.binding (value first) rest).1.2 ++ after)

section Level

variable {stop : Cursor → Prop} (isLevel : level.level? = some (operand, operators))

include isLevel

/-- What goes on behind an operand of a level starts with an operator of the level, or breaks. -/
theorem breaks_of_leads (leads : Leads (.many (.seq (.oneToken operators) (.phrase operand)))
      (Cursor.Breaks level.binding) here) : here.Breaks operand.binding := by
  obtain ⟨_, solid, firsts⟩ := oneToken_operators isLevel
  obtain ⟨_, there, derived, breaks⟩ := leads
  rw [binding_operand isLevel]
  rcases derived.starts with ⟨_, rfl⟩ | ⟨kind, member, taken, found⟩
  · exact breaks.mono (Nat.le_succ _)
  · rw [Form.first, Form.first, solid, if_neg Bool.false_ne_true, firsts] at member
    refine ⟨kind, taken, found, fun op same => ?_⟩
    rw [← same, mem_operators isLevel] at member
    rw [member]
    exact Nat.lt_succ_self _

theorem Reads.operator {op : BinOp} (tight : op.precedence = level.binding)
    {rest : List (List Char)} :
    Reads stop false (.oneToken operators) (op.text :: rest) [op.item] rest := by
  have member := (mem_operators isLevel op).mpr tight
  have isShown := ((operator_of_level? isLevel).2 op.terminal member).1
  have reads := @Reads.token stop false rest _ _ _ op.take?_text op.containsWord_text op.construct_terminal
  rw [Bool.false_or, if_pos isShown] at reads
  -- No level has an operator twice.
  exact reads.oneToken (oneToken_operators isLevel).1 member op.onlyFor_text

theorem Reads.noOperator {here : List (List Char)}
    (refused : ∀ word more, here = word :: more → operators.all (·.refuses word) = true) :
    Reads stop false (.many (.seq (.oneToken operators) (.phrase operand))) here [] here := by
  obtain ⟨_, solid, firsts⟩ := oneToken_operators isLevel
  have notNullable : (Form.seq (.oneToken operators) (.phrase operand)).isNullable = false := by
    rw [Form.isNullable, solid, Bool.false_and]
  refine .many_nil ?_
  cases here with
  | nil => exact rejects_nil notNullable
  | cons word more =>
    refine rejects_of_refuses ?_
    rw [Form.refuses, notNullable, Form.first, solid, if_neg Bool.false_ne_true, firsts,
      refused word more rfl]
    rfl

variable (operands : ReadsLevel follows value words after operand)

include operands

/-- The operators of one level are read with their right operands, as far as climbing takes them. -/
theorem exists_pairs (closes : NoOperator after) (rest : List (BinOp × α))
    (each : ∀ item ∈ rest, IsOperand follows value words item.2)
    (loose : ∀ op x others, rest = (op, x) :: others → op.precedence < level.binding + 1) :
    ∃ pairs remains, (∀ pair ∈ pairs, pair.1.precedence = level.binding) ∧
      (∀ lhs, (climb value level.binding lhs rest).1 = (joined lhs pairs, remains)) ∧
        Reads (Cursor.Breaks level.binding) false (.many (.seq (.oneToken operators) (.phrase operand)))
          (chainWords words rest ++ after) (pairItems pairs) (chainWords words remains ++ after) := by
  induction rest using climb_induction value with
  | nil =>
    refine ⟨[], [], fun _ inside => absurd inside not_mem_nil, fun _ => climb_nil, ?_⟩
    refine Reads.noOperator isLevel ?_
    intro word more same
    have refused := closes word more same
    rw [all_eq_true] at refused ⊢
    exact fun kind member => refused kind (operators_subset isLevel kind member)
  | cons op x rest ih =>
    have operand_x := each (op, x) mem_cons_self
    have others : ∀ item ∈ rest, IsOperand follows value words item.2 :=
      fun item inside => each item (mem_cons_of_mem _ inside)
    by_cases tight : op.precedence = level.binding
    · -- The operator is taken with what climbing makes of its right side.
      have suffix := (climb value (level.binding + 1) (value x) rest).2
      rw [tight] at ih
      obtain ⟨pairs, remains, precedence, climbed, reads⟩ :=
        ih (fun item inside => others item (suffix.subset inside))
          (head_of_climb value (level.binding + 1) (value x) rest)
      refine ⟨(op, (climb value (level.binding + 1) (value x) rest).1.1) :: pairs, remains, ?_, ?_, ?_⟩
      · intro pair inside
        rcases mem_cons.mp inside with rfl | later
        · exact tight
        · exact precedence pair later
      · intro lhs
        rw [climb_step (Nat.le_of_eq tight.symm), tight]
        exact climbed _
      · have right := operands x rest operand_x others
        rw [binding_operand isLevel] at right
        have written : chainWords words ((op, x) :: rest) ++ after =
            op.text :: (words x ++ (chainWords words rest ++ after)) := by
          simp [chainWords]
        rw [written]
        refine Reads.many_cons (.seq (.operator isLevel tight) (right.mono ?_)) reads ?_
        · intro there leads
          rw [← binding_operand isLevel]
          exact breaks_of_leads isLevel leads
        · exact fun here faces => not_breaks (Nat.le_of_eq tight.symm) faces
    · have looser : op.precedence < level.binding := by
        have := loose op x rest rfl
        omega
      refine ⟨[], (op, x) :: rest, fun _ inside => absurd inside not_mem_nil,
        fun _ => climb_stop looser, ?_⟩
      refine Reads.noOperator isLevel ?_
      intro word more same
      obtain ⟨rfl, _⟩ := List.cons.inj same
      rw [all_eq_true]
      intro kind member
      refine op.onlyFor_text kind fun same => tight ?_
      rw [mem_singleton.mp same] at member
      exact (mem_operators isLevel op).mp member

theorem ReadsLevel.next (closes : NoOperator after) :
    ReadsLevel follows value words after level := by
  intro first rest isOperand each
  have before := operands first rest isOperand each
  rw [binding_operand isLevel] at before
  obtain ⟨pairs, remains, precedence, climbed, behind⟩ := exists_pairs isLevel operands closes
    (climb value (level.binding + 1) (value first) rest).1.2
    (fun item inside => each item ((climb value (level.binding + 1) (value first) rest).2.subset inside))
    (head_of_climb value (level.binding + 1) (value first) rest)
  rw [climb_climb, climbed]
  have hides : level.keepsTokens = false := by cases level <;> cases isLevel <;> rfl
  have body : Reads (Cursor.Breaks level.binding) level.keepsTokens level.body
      (words first ++ (chainWords words rest ++ after))
      ([.expr (climb value (level.binding + 1) (value first) rest).1.1] ++ pairItems pairs)
      (chainWords words remains ++ after) := by
    rw [hides, body_of_level? isLevel]
    refine Reads.seq (before.mono ?_) behind
    intro there leads
    rw [← binding_operand isLevel]
    exact breaks_of_leads isLevel leads
  refine body.phrase level (construct_pairItems isLevel _ pairs precedence) ?_
  intro transparent
  cases level <;> cases isLevel <;> cases transparent

end Level

theorem readsLevel_factor (operators : ∀ (op : BinOp) rest, follows (op.text :: rest))
    (end_ : follows after) : ReadsLevel follows value words after .factor := by
  intro first rest isOperand _
  change Reads _ _ _ _ [.expr (climb value 7 (value first) rest).1.1]
    (chainWords words (climb value 7 (value first) rest).1.2 ++ after)
  rw [climb_factor]
  refine (isOperand _ ?_).mono fun _ _ => trivial
  cases rest with
  | nil => exact end_
  | cons item rest => exact operators item.1 _

/-- Operands with operators between them are read as precedence climbing groups them. -/
theorem Reads.chain {first : α} {rest : List (BinOp × α)} (isOperand : IsOperand follows value words first)
    (each : ∀ item ∈ rest, IsOperand follows value words item.2)
    (operators : ∀ (op : BinOp) rest, follows (op.text :: rest)) (end_ : follows after)
    (closes : NoOperator after) :
    Reads (Cursor.Breaks 1) false (.phrase .expr) (words first ++ (chainWords words rest ++ after))
      [.expr (climb value 1 (value first) rest).1.1] after := by
  have term : ReadsLevel follows value words after .term :=
    (readsLevel_factor operators end_).next rfl closes
  have formula : ReadsLevel follows value words after .formula := term.next rfl closes
  have comparison : ReadsLevel follows value words after .comparison := formula.next rfl closes
  have equality : ReadsLevel follows value words after .equality := comparison.next rfl closes
  have andExpr : ReadsLevel follows value words after .andExpr := equality.next rfl closes
  have orExpr : ReadsLevel follows value words after .orExpr := andExpr.next rfl closes
  have whole := orExpr first rest isOperand each
  -- Every operator binds at least as tightly as the loosest ones, so none is left.
  have none : (climb value 1 (value first) rest).1.2 = [] := by
    cases remains : (climb value 1 (value first) rest).1.2 with
    | nil => rfl
    | cons item others =>
      obtain ⟨op, x⟩ := item
      have loose := head_of_climb value 1 (value first) rest op x others remains
      cases op <;> simp [BinOp.precedence] at loose
  change Reads (Cursor.Breaks 1) false (.phrase .orExpr) _
    [.expr (climb value 1 (value first) rest).1.1]
    (chainWords words (climb value 1 (value first) rest).1.2 ++ after) at whole
  rw [none] at whole
  have expr : Reads (Cursor.Breaks 1) Rule.expr.keepsTokens Rule.expr.body
      (words first ++ (chainWords words rest ++ after))
      [.expr (climb value 1 (value first) rest).1.1] after := whole
  exact expr.phrase .expr rfl nofun

end Chain

end LeftHand
