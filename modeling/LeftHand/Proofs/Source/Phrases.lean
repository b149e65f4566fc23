import LeftHand.Proofs.Source.Chain
import LeftHand.Proofs.Typing.Stmt

/-!
Readings of the phrases around expressions: words, names, types, statements, blocks and functions.
-/

namespace LeftHand

open List

section Fixed

variable {stop : Cursor → Prop} {kind : Terminal} {word : List Char} {rest : List (List Char)}

/-- A terminal takes a whole word, and makes nothing of it but the word. -/
def Terminal.isWord (kind : Terminal) (word : List Char) : Bool :=
  kind.spelling.take? none word == some (word, []) && !containsWord ambiguityMark word &&
    !List.contains [.integer, .string, .booleanLiteral, .identifier] kind

/-- The item of a word. -/
def wordItem (kind : Terminal) (word : List Char) : Item :=
  .word (Token.word ⟨kind, word, 0⟩)

theorem Reads.fixed {keep : Bool} (isWord : kind.isWord word = true) :
    Reads stop keep (.token kind) (word :: rest)
      (if keep || kind.isShown then [wordItem kind word] else []) rest := by
  simp only [Terminal.isWord, Bool.and_eq_true, beq_iff_eq, Bool.not_eq_true', contains_eq_mem,
    mem_cons, not_mem_nil, or_false, decide_eq_false_iff_not, not_or] at isWord
  obtain ⟨⟨whole, clean⟩, noNumber, noString, noBoolean, noName⟩ := isWord
  refine .token whole clean ?_
  cases kind with
  | integer => exact absurd rfl noNumber
  | string => exact absurd rfl noString
  | booleanLiteral => exact absurd rfl noBoolean
  | identifier => exact absurd rfl noName
  | _ => rfl

theorem Reads.hidden (isWord : kind.isWord word = true) (hides : kind.isShown = false) :
    Reads stop false (.token kind) (word :: rest) [] rest := by
  have reads := @Reads.fixed stop kind word rest false isWord
  rwa [hides, if_neg (by decide)] at reads

theorem Reads.shown (isWord : kind.isWord word = true) (shown : kind.isShown = true) :
    Reads stop false (.token kind) (word :: rest) [wordItem kind word] rest := by
  have reads := @Reads.fixed stop kind word rest false isWord
  rwa [shown, if_pos (by decide)] at reads

theorem Reads.kept (isWord : kind.isWord word = true) :
    Reads stop true (.token kind) (word :: rest) [wordItem kind word] rest := by
  have reads := @Reads.fixed stop kind word rest true isWord
  rwa [Bool.true_or, if_pos rfl] at reads

end Fixed

section Names

variable {name : List Char}

/-- A word is a name, and nothing but a name, where a space follows it. -/
def IsName (name : List Char) : Prop :=
  Spelling.name.take? none name = some (name, [])

instance (name : List Char) : Decidable (IsName name) :=
  inferInstanceAs (Decidable (_ = _))

theorem isName_iff : IsName name ↔
    (∃ first more, name = first :: more ∧ isLeftLetter first = true ∧ more.all isNameChar = true) ∧
      startsReserved name = false := by
  rw [IsName, take?_name]
  constructor
  · rintro ⟨shape, _, _, free⟩
    exact ⟨shape, free⟩
  · rintro ⟨shape, free⟩
    exact ⟨shape, (List.append_nil name).symm, rfl, free⟩

theorem IsName.all_isNameChar (isName : IsName name) : name.all isNameChar = true := by
  obtain ⟨⟨first, more, rfl, letter, all⟩, _⟩ := isName_iff.mp isName
  rw [all_cons, isNameChar_of_isLeftLetter letter, all]
  rfl

theorem containsWord_of_not_mem {text : List Char} (clean : '_' ∉ text) :
    containsWord ambiguityMark text = false := by
  induction text with
  | nil => rfl
  | cons c text ih =>
    rw [containsWord, ih fun inside => clean (mem_cons_of_mem _ inside)]
    have differs : ¬ '_' = c := fun same => clean (same ▸ mem_cons_self)
    rw [ambiguityMark, afterWord?, if_neg differs]
    rfl

theorem isSolid_of_take? {kind : Terminal} {word : List Char}
    (whole : kind.spelling.take? none word = some (word, [])) : IsSolid word := by
  rcases Terminal.take?_cases whole with ⟨_, quoted⟩ | typed
  · exact .inr quoted
  · exact .inl typed

theorem IsName.isSolid (isName : IsName name) : IsSolid name :=
  isSolid_of_take? (show Terminal.identifier.spelling.take? none name = _ from isName)

/-- No token but a string contains the ambiguity mark. -/
theorem containsWord_of_take? {kind : Terminal} {word : List Char}
    (whole : kind.spelling.take? none word = some (word, [])) (unquoted : kind ≠ .string) :
    containsWord ambiguityMark word = false := by
  rcases Terminal.take?_cases whole with ⟨isString, _⟩ | ⟨_, typed⟩
  · exact absurd isString unquoted
  · refine containsWord_of_not_mem fun inside => ?_
    have underscore := all_eq_true.mp typed '_' inside
    rw [isLeftHand_iff, isLeftLetter_iff] at underscore
    simp at underscore

theorem Reads.named (isName : IsName name) {stop : Cursor → Prop} {keep : Bool}
    {rest : List (List Char)} :
    Reads stop keep (.token .identifier) (name :: rest) [.ident ⟨.start, .ofList name⟩] rest := by
  have clean := containsWord_of_take? (show Terminal.identifier.spelling.take? none name = _ from isName)
    nofun
  have reads := @Reads.token stop keep rest .identifier name (.ident ⟨.start, .ofList name⟩) isName
    clean rfl
  rwa [if_pos (by cases keep <;> rfl)] at reads

/-- The terminals that may take a piece of a name. -/
def nameTakers : List Terminal :=
  [.identifier, .defWord, .execWord, .retWord, .bassWord, .asWord, .negWord, .elseIfWord, .elseWord]

theorem startsReserved_of_apart :
    ∀ kind : Terminal, ∀ words, kind.spelling = .apart words → ∀ word ∈ words,
      startsReserved word = true ∨ word.head?.any isLeftLetter = false := by
  intro kind words spelled
  cases kind <;> cases spelled <;> decide

theorem IsName.onlyFor (isName : IsName name) : OnlyFor nameTakers name := by
  intro kind foreign
  obtain ⟨⟨first, more, rfl, letter, _⟩, free⟩ := isName_iff.mp isName
  rw [Terminal.refuses, Option.isNone_iff_eq_none]
  cases taken : kind.spelling.take? none (first :: more) with
  | none => rfl
  | some found =>
    obtain ⟨piece, left⟩ := found
    exfalso
    -- A name consists of joining characters, so a word apart would be the whole name.
    have whole : ∀ words, kind.spelling = .apart words → False := by
      intro words spelled
      rw [spelled] at taken
      obtain ⟨_, member, cut, ends⟩ := of_take?_apart taken
      have empty : left = [] := by
        cases left with
        | nil => rfl
        | cons c left =>
          have joins := isJoining_of_isNameChar
            (all_eq_true.mp isName.all_isNameChar c (by rw [cut]; simp))
          rw [head?_cons, Option.any_some, joins] at ends
          cases ends
      rw [empty, List.append_nil] at cut
      rcases startsReserved_of_apart kind words spelled piece member with reserved | foreign
      · rw [← cut, free] at reserved
        cases reserved
      · rw [← cut, head?_cons, Option.any_some, letter] at foreign
        cases foreign
    cases kind with
    | integer =>
      obtain ⟨_, _, _, rfl, cut⟩ := take?_number.mp taken
      obtain ⟨rfl, _⟩ := List.cons.inj cut
      exact absurd letter (by decide)
    | string =>
      obtain ⟨_, _, rfl, cut⟩ := take?_quoted.mp taken
      obtain ⟨rfl, _⟩ := List.cons.inj cut
      exact absurd letter (by decide)
    | lineEnd | scopeStart | scopeEnd | parenStart | parenEnd | pointerMark | ifWord =>
      obtain ⟨rfl, cut⟩ := take?_plain.mp taken
      obtain ⟨rfl, _⟩ := List.cons.inj cut
      exact absurd letter (by decide)
    | identifier | defWord | execWord | retWord | bassWord | asWord | negWord | elseIfWord
    | elseWord => exact absurd (by decide) foreign
    | _ => exact whole _ rfl

end Names

section Types

variable {stop : Cursor → Prop} {written : Ty}

/-- The words of a type: its base, and a mark for each pointer to it. -/
def Ty.words : Ty → List (List Char)
  | void _ => [['v', '@', '1', 'd']]
  | decimal _ => [['d', 'e', 'c', 't']]
  | boolean _ => [['b', '@', '@', '1']]
  | char _ => [['c', 'a', 'r']]
  | pointer _ base => base.words ++ [['#']]
  | unknown _ => []

/-- A type with some pointers to it. -/
def pointers (count : Nat) (base : Ty) : Ty :=
  match count with
  | 0 => base
  | count + 1 => pointers count (.pointer .start base)

theorem pointers_succ (count : Nat) (base : Ty) :
    pointers (count + 1) base = .pointer .start (pointers count base) := by
  induction count generalizing base with
  | zero => rfl
  | succ count ih => exact ih (.pointer .start base)

theorem pointTo_marks (count : Nat) (base : Ty) :
    pointTo base (List.replicate count (wordItem .pointerMark ['#'])) = .ok (pointers count base) := by
  induction count generalizing base with
  | zero => rfl
  | succ count ih => exact ih (.pointer .start base)

/-- The four types that are no pointers, with their words. -/
inductive IsBase : Rule → List Char → Ty → Prop where
  | void : IsBase .voidType ['v', '@', '1', 'd'] (.void .start)
  | decimal : IsBase .decimalType ['d', 'e', 'c', 't'] (.decimal .start)
  | boolean : IsBase .booleanType ['b', '@', '@', '1'] (.boolean .start)
  | char : IsBase .charType ['c', 'a', 'r'] (.char .start)

theorem Ty.exists_base (known : written.isKnown = true) :
    ∃ rule word base count, IsBase rule word base ∧
      written.words = word :: List.replicate count ['#'] ∧ written.unplaced = pointers count base := by
  induction written with
  | void => exact ⟨_, _, _, 0, .void, rfl, rfl⟩
  | decimal => exact ⟨_, _, _, 0, .decimal, rfl, rfl⟩
  | boolean => exact ⟨_, _, _, 0, .boolean, rfl, rfl⟩
  | char => exact ⟨_, _, _, 0, .char, rfl, rfl⟩
  | unknown => cases known
  | pointer _ _ ih =>
    obtain ⟨rule, word, base, count, isBase, words, same⟩ := ih known
    refine ⟨rule, word, base, count + 1, isBase, ?_, ?_⟩
    · rw [Ty.words, words, replicate_succ']
      rfl
    · rw [Ty.unplaced, same, pointers_succ]

theorem Reads.base {rule : Rule} {word : List Char} {base : Ty} (isBase : IsBase rule word base)
    {rest : List (List Char)} :
    Reads stop false
      (.oneOf [.phrase .voidType, .phrase .decimalType, .phrase .booleanType, .phrase .charType])
      (word :: rest) [.type base] rest := by
  cases isBase with
  | void => exact .choose (Reads.phrase .voidType (.kept rfl) rfl nofun) (by decide) (by decide)
  | decimal => exact .choose (Reads.phrase .decimalType (.kept rfl) rfl nofun) (by decide) (by decide)
  | boolean => exact .choose (Reads.phrase .booleanType (.kept rfl) rfl nofun) (by decide) (by decide)
  | char => exact .choose (Reads.phrase .charType (.kept rfl) rfl nofun) (by decide) (by decide)

variable {name : List Char} {rest : List (List Char)}

theorem Reads.marks (isName : IsName name) (count : Nat) :
    Reads (Cursor.Starts [.identifier]) false (.many (.token .pointerMark))
      (List.replicate count ['#'] ++ name :: rest)
      (List.replicate count (wordItem .pointerMark ['#'])) (name :: rest) := by
  induction count with
  | zero =>
    refine .many_nil (rejects_of_refuses ?_)
    rw [Form.refuses, Form.first, isName.onlyFor.all_refuses (by decide)]
    rfl
  | succ count ih =>
    refine .many_cons (.shown rfl rfl) ih ?_
    intro here faces
    exact not_starts (by decide) faces

theorem Reads.type (known : written.isKnown = true) (isName : IsName name) {keep : Bool} :
    Reads (Cursor.Starts [.identifier]) keep (.phrase .type) (written.words ++ name :: rest)
      [.type written.unplaced] (name :: rest) := by
  obtain ⟨rule, word, base, count, isBase, words, same⟩ := Ty.exists_base known
  have body : Reads (Cursor.Starts [.identifier]) Rule.type.keepsTokens Rule.type.body
      (word :: (List.replicate count ['#'] ++ name :: rest))
      ([.type base] ++ List.replicate count (wordItem .pointerMark ['#'])) (name :: rest) :=
    .seq (.base isBase) (.marks isName count)
  rw [words, same]
  cases count with
  | zero => exact body.folded .type rfl
  | succ count =>
    refine body.phrase .type ?_ ?_
    · change (pointTo base (List.replicate (count + 1) (wordItem .pointerMark ['#']))).map _ = _
      rw [pointTo_marks]
      rfl
    · intro _
      simp

theorem Leads.starts {form : Form} {here : Cursor} (leads : Leads form stop here)
    (solid : form.isNullable = false) : here.Starts form.first := by
  obtain ⟨_, _, derived, _⟩ := leads
  rcases derived.starts with ⟨nullable, _⟩ | starts
  · rw [solid] at nullable
    cases nullable
  · exact starts

/-- What a repeated form goes on with starts with one of its first terminals, or has ended. -/
theorem Leads.starts_many {form : Form} {kinds : List Terminal} {here : Cursor}
    (leads : Leads (.many form) (Cursor.Starts kinds) here) : here.Starts (form.first ++ kinds) := by
  obtain ⟨_, there, derived, ends⟩ := leads
  rcases derived.starts with ⟨_, rfl⟩ | starts
  · exact ends.mono fun _ inside => mem_append_right _ inside
  · exact starts.mono fun _ inside => mem_append_left _ inside

theorem Reads.typedName (known : written.isKnown = true) (isName : IsName name) {keep : Bool} :
    Reads stop keep (.seq (.phrase .type) (.token .identifier)) (written.words ++ name :: rest)
      [.type written.unplaced, .ident ⟨.start, .ofList name⟩] rest := by
  refine .seq (.mono (.type known isName) ?_) (.named isName)
  intro there leads
  exact leads.starts rfl

theorem Ty.pos_unplaced (known : written.isKnown = true) : written.unplaced.pos = .start := by
  cases written with
  | unknown => cases known
  | _ => rfl

theorem Ty.isVoid_unplaced (written : Ty) : written.unplaced.isVoid = written.isVoid := by
  cases written <;> rfl

end Types

/-- Words between the marks of an expression. -/
def wrapped (words : List (List Char)) : List (List Char) :=
  ['%', 'e'] :: (words ++ [['!', 'e']])

/-- Words between the marks of a block. -/
def braced (words : List (List Char)) : List (List Char) :=
  ['%', 's'] :: (words ++ [['!', 's']])

theorem wrapped_append (words rest : List (List Char)) :
    wrapped words ++ rest = ['%', 'e'] :: (words ++ ['!', 'e'] :: rest) := by
  simp [wrapped]

theorem braced_append (words rest : List (List Char)) :
    braced words ++ rest = ['%', 's'] :: (words ++ ['!', 's'] :: rest) := by
  simp [braced]

theorem allSolid_lineEnd : AllSolid [['$']] :=
  .typed (by decide) allSolid_nil

theorem AllSolid.wrapped {words : List (List Char)} (solid : AllSolid words) : AllSolid (wrapped words) :=
  .typed (by decide) (.append solid (.typed (by decide) allSolid_nil))

theorem AllSolid.braced {words : List (List Char)} (solid : AllSolid words) : AllSolid (braced words) :=
  .typed (by decide) (.append solid (.typed (by decide) allSolid_nil))

section Functions

variable {stop : Cursor → Prop} {keep : Bool} {rest : List (List Char)}

/-- The word of a name. -/
def Ident.word (ident : Ident) : List Char :=
  ident.text.toList

/-- The words of a parameter. -/
def Param.words (param : Param) : List (List Char) :=
  param.type.words ++ [param.ident.word]

/-- A parameter can be written down. -/
structure Param.Writable (param : Param) : Prop where
  isKnown : param.type.isKnown = true
  isVoid : param.type.isVoid = false
  isName : IsName param.ident.word

theorem Reads.param {param : Param} (writable : param.Writable) :
    Reads stop keep (.phrase .param) (param.words ++ rest) [.param param.unplaced] rest := by
  rw [Param.words, append_assoc]
  refine Reads.phrase .param (.typedName writable.isKnown writable.isName) ?_ nofun
  change (demand (!param.type.unplaced.isVoid) >>= fun _ => _) = _
  rw [Ty.isVoid_unplaced, writable.isVoid, Ident.word, String.ofList_toList,
    Ty.pos_unplaced writable.isKnown]
  rfl

/-- Parameters are read up to the body of a function. -/
theorem Reads.params {params : List Param} (writable : ∀ param ∈ params, param.Writable) :
    Reads (Cursor.Starts [.scopeStart]) keep (.phrase .params)
      (params.flatMap Param.words ++ ['%', 's'] :: rest)
      [.list ((params.map Param.unplaced).map .param)] (['%', 's'] :: rest) := by
  have each : Reads (Cursor.Starts [.scopeStart]) false (.many (.phrase .param))
      (params.flatMap Param.words ++ ['%', 's'] :: rest)
      ((params.map Param.unplaced).map .param) (['%', 's'] :: rest) := by
    induction params with
    | nil => exact .many_nil (rejects_of_refuses (by decide))
    | cons first params ih =>
      have declared := writable first mem_cons_self
      rw [flatMap_cons, append_assoc]
      refine .many_cons (.param declared)
        (ih fun param inside => writable param (mem_cons_of_mem _ inside)) ?_
      intro here faces
      obtain ⟨_, word, _, _, isBase, words, _⟩ := Ty.exists_base declared.isKnown
      rw [Param.words, words] at faces
      exact not_starts (by cases isBase <;> decide) faces
  exact Reads.phrase .params each (Rule.Forms.params _).construct nofun

/-- Statements are read up to the end of their block. -/
abbrev ReadsBody (words : List (List Char)) (actions : List Stmt) (rest : List (List Char)) : Prop :=
  Reads (Cursor.Starts [.scopeEnd]) true (.many (.phrase .statement)) (words ++ ['!', 's'] :: rest)
    (actions.map .stmt) (['!', 's'] :: rest)

theorem Reads.block {words : List (List Char)} {actions : List Stmt}
    (reads : ReadsBody words actions rest) :
    Reads stop keep (.phrase .block) (braced words ++ rest) [.block ⟨.start, actions⟩] rest := by
  rw [braced_append]
  refine Reads.phrase .block (.seq (.kept rfl) (.seq (reads.mono ?_) (.kept rfl))) ?_ nofun
  · intro there leads
    exact leads.starts rfl
  · exact (Rule.Forms.block _ _ actions).construct

theorem Reads.function {written : Ty} (known : written.isKnown = true) {name : List Char}
    (isName : IsName name) {params : List Param} (writable : ∀ param ∈ params, param.Writable)
    {words : List (List Char)} {actions : List Stmt} (reads : ReadsBody words actions rest) :
    Reads stop keep (.phrase .function)
      (['d', 'e', 'f'] :: (written.words ++ name :: (params.flatMap Param.words ++
        (braced words ++ rest))))
      [.function ⟨.start, written.unplaced, ⟨.start, .ofList name⟩, params.map Param.unplaced,
        ⟨.start, actions⟩⟩] rest := by
  refine Reads.phrase .function (.seq (.kept rfl) (.seq (.mono (.type known isName) ?_)
    (.seq (.named isName) (.seq (.mono (.params writable) ?_) (.block reads))))) ?_ nofun
  · intro there leads
    exact leads.starts rfl
  · intro there leads
    exact leads.starts rfl
  · exact (Rule.Forms.function _ _ _ (params.map Param.unplaced) _).construct

theorem Cursor.Faces.isAtEnd {here : Cursor} {word : List Char} (faces : here.Faces (word :: rest)) :
    ¬ here.isAtEnd = true := by
  intro ends
  have empty : here.rest.dropWhile Cursor.isGap = [] :=
    dropWhile_eq_nil_iff.mpr (all_eq_true.mp ends)
  have word_nil := (append_eq_nil_iff.mp (faces.rest.symm.trans empty)).1
  have apart := faces.solid word mem_cons_self
  rw [word_nil] at apart
  rcases apart with ⟨filled, _⟩ | ⟨_, _, same⟩
  · exact filled rfl
  · cases same

theorem Reads.program {α : Type} {words : α → List (List Char)} {made : α → Function} {first : α}
    {others : List α} (start : (made first).pos = .start)
    (each : ∀ source ∈ first :: others, (∃ more, words source = ['d', 'e', 'f'] :: more) ∧
      ∀ stop rest, Reads stop false (.phrase .function) (words source ++ rest)
        [.function (made source)] rest) :
    Reads (·.isAtEnd = true) false (.phrase .program) ((first :: others).flatMap words)
      [.program ⟨.start, (first :: others).map made⟩] [] := by
  have behind : Reads (·.isAtEnd = true) false (.many (.phrase .function)) (others.flatMap words)
      ((others.map made).map .function) [] := by
    induction others with
    | nil => exact .many_nil (rejects_nil rfl)
    | cons next others ih =>
      obtain ⟨⟨more, starts⟩, reads⟩ := each next (mem_cons_of_mem _ mem_cons_self)
      rw [flatMap_cons]
      refine .many_cons (reads _ _) (ih fun source inside => each source ?_) ?_
      · rcases mem_cons.mp inside with rfl | later
        · exact mem_cons_self
        · exact mem_cons_of_mem _ (mem_cons_of_mem _ later)
      · intro here faces
        rw [starts] at faces
        exact faces.isAtEnd
  have reads := (each first mem_cons_self).2
  rw [← start]
  exact Reads.phrase .program (.seq (reads _ _) behind)
    (Rule.Forms.program (made first) (others.map made)).construct nofun

end Functions

section Expressions

variable {stop : Cursor → Prop} {keep : Bool} {words rest : List (List Char)} {value : Expr}

theorem Cursor.Starts.breaks {kinds : List Terminal} {here : Cursor} (starts : here.Starts kinds)
    (foreign : kinds.all (!operatorKinds.contains ·) = true) : here.Breaks 1 := by
  obtain ⟨kind, member, taken, found⟩ := starts
  refine ⟨kind, taken, found, fun op same => ?_⟩
  have differs := all_eq_true.mp foreign kind member
  rw [← same] at differs
  cases op <;> cases differs

theorem Reads.enclosed (reads : Reads (Cursor.Breaks 1) false (.phrase .expr)
      (words ++ ['!', 'e'] :: rest) [.expr value] (['!', 'e'] :: rest)) :
    Reads stop keep (.phrase .factor) (wrapped words ++ rest) [.expr value] rest := by
  rw [wrapped_append]
  have parenthesis : Reads stop false (.inOrder [.token .parenStart, .phrase .expr, .token .parenEnd])
      (['%', 'e'] :: (words ++ ['!', 'e'] :: rest)) [.expr value] rest := by
    refine .seq (.hidden rfl rfl) (.seq (reads.mono ?_) (.hidden rfl rfl))
    intro there leads
    exact (leads.starts rfl).breaks (by decide)
  exact Reads.phrase .factor (parenthesis.choose (by decide) (by decide)) rfl nofun

theorem Reads.exprStmt (reads : Reads (Cursor.Breaks 1) false (.phrase .expr)
      (words ++ ['$'] :: rest) [.expr value] (['$'] :: rest)) (placed : value.pos = .start) :
    Reads stop keep (.phrase .exprStmt) (words ++ ['$'] :: rest) [.stmt (.expr .start value)] rest := by
  refine Reads.phrase .exprStmt (.seq (reads.mono ?_) (.hidden rfl rfl)) ?_ nofun
  · intro there leads
    exact (leads.starts rfl).breaks (by decide)
  · rw [← placed]
    rfl

end Expressions

end LeftHand
