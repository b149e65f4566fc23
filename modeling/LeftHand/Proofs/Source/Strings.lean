import LeftHand.Proofs.Source.Literals
import Mathlib.Data.List.Infix

/-! What the bodies of strings denote, and which strings can be written. -/

namespace LeftHand

open List

/-- The escapes of line feeds and tabs, replaced in a single pass. -/
def scanEscapes : List Char → List Char
  | '\\' :: 'n' :: rest => '\n' :: scanEscapes rest
  | '\\' :: 't' :: rest => '\t' :: scanEscapes rest
  | c :: rest => c :: scanEscapes rest
  | [] => []

/-- A character as it is written in a body. -/
def escapeChar (c : Char) : List Char :=
  if c = '\\' then ['\\', '\\'] else if c = '\n' then ['\\', 'n'] else if c = '\t' then ['\\', 't'] else [c]

/-- A string that is the value of some token: its body has no backtick, which would end it, and no
line feed. -/
def IsWritable (value : String) : Prop :=
  ∃ body : List Char, '`' ∉ body ∧ '\n' ∉ body ∧ ∀ word : Word, word.text = .ofList (quotedWord body) →
    Terminal.string.construct word = .ok (.expr (.string word.pos value))

section Pairs

variable {first second replacement a b c : Char} {text : List Char}

theorem pair_infix_cons :
    [a, b] <:+: c :: text ↔ c = a ∧ text.head? = some b ∨ [a, b] <:+: text := by
  have single : [b] <+: text ↔ text.head? = some b := by
    cases text <;> simp [eq_comm]
  rw [infix_cons_iff, cons_prefix_cons, single, @eq_comm _ a]

theorem replacePair_pair : replacePair first second replacement (first :: second :: text) =
    replacement :: replacePair first second replacement text := by
  rw [replacePair, if_pos ⟨rfl, rfl⟩]

theorem replacePair_cons (apart : ¬ (a = first ∧ text.head? = some second)) :
    replacePair first second replacement (a :: text) =
      a :: replacePair first second replacement text := by
  cases text with
  | nil => rfl
  | cons b text =>
    rw [replacePair, if_neg]
    simpa using apart

theorem replacePair_cons_of_ne (differs : a ≠ first) :
    replacePair first second replacement (a :: text) =
      a :: replacePair first second replacement text :=
  replacePair_cons fun both => differs both.1

theorem head?_of_replacePair (starts : (replacePair first second replacement text).head? = some c) :
    text.head? = some c ∨ c = replacement ∧ text.head? = some first := by
  revert starts
  fun_cases replacePair first second replacement text with
  | case1 _ _ _ both =>
    intro starts
    exact .inr ⟨by simpa [eq_comm] using starts, by simpa using both.1⟩
  | case2 => exact fun starts => .inl (by simpa using starts)
  | case3 => exact .inl

/-- Neighbours in the result were neighbours in the text, where the replacement is not among them or
is what stood there. -/
theorem infix_of_replacePair (left : a = replacement → a = second) (right : b = replacement → b = first)
    (inside : [a, b] <:+: replacePair first second replacement text) : [a, b] <:+: text := by
  -- What follows a place in the result followed it in the text.
  have behind {text : List Char}
      (starts : (replacePair first second replacement text).head? = some b) : text.head? = some b := by
    rcases head?_of_replacePair starts with same | ⟨replaced, same⟩
    · exact same
    · rw [same, right replaced]
  fun_induction replacePair first second replacement text with
  | case1 x y rest both ih =>
    rw [both.1, both.2]
    rw [pair_infix_cons] at inside
    refine infix_cons ?_
    rcases inside with ⟨replaced, starts⟩ | later
    · exact pair_infix_cons.mpr (.inl ⟨(left replaced.symm).symm, behind starts⟩)
    · exact infix_cons (ih later)
  | case2 x y rest _ ih =>
    rw [pair_infix_cons] at inside ⊢
    exact inside.imp (fun here => ⟨here.1, behind here.2⟩) ih
  | case3 => exact inside

theorem not_infix_replacePair (notFirst : replacement ≠ first) (notSecond : replacement ≠ second) :
    ¬ [first, second] <:+: replacePair first second replacement text := by
  fun_induction replacePair first second replacement text with
  | case1 x y rest _ ih =>
    rw [pair_infix_cons]
    rintro (⟨same, _⟩ | later)
    · exact notFirst same
    · exact ih later
  | case2 x y rest apart ih =>
    rw [pair_infix_cons]
    rintro (⟨same, starts⟩ | later)
    · rcases head?_of_replacePair starts with next | ⟨replaced, _⟩
      · exact apart ⟨same, by simpa using next⟩
      · exact notSecond replaced.symm
    · exact ih later
  | case3 rest short =>
    -- There is no room for a pair.
    rintro ⟨before, behind, whole⟩
    cases before with
    | nil => exact short _ _ _ whole.symm
    | cons c before => cases before <;> exact short _ _ _ whole.symm

theorem replacePair_of_not_infix (absent : ¬ [first, second] <:+: text) :
    replacePair first second replacement text = text := by
  induction text with
  | nil => rfl
  | cons a text ih =>
    rw [pair_infix_cons, not_or] at absent
    rw [replacePair_cons absent.1, ih absent.2]

theorem mem_of_replacePair (inside : c ∈ replacePair first second replacement text) :
    c ∈ text ∨ c = replacement := by
  fun_induction replacePair first second replacement text with
  | case1 _ _ _ _ ih | case2 _ _ _ _ ih => grind
  | case3 => exact .inl inside

end Pairs

section Passes

variable {body : List Char}

/-- The first two passes are one scan: where the first has replaced something, the second finds
nothing. -/
theorem replacePair_twice (body : List Char) :
    replacePair '\\' 't' '\t' (replacePair '\\' 'n' '\n' body) = scanEscapes body := by
  fun_induction scanEscapes body with
  | case1 rest ih => rw [replacePair_pair, replacePair_cons_of_ne (by decide), ih]
  | case2 rest ih =>
    have copied : replacePair '\\' 'n' '\n' ('\\' :: 't' :: rest) =
        '\\' :: 't' :: replacePair '\\' 'n' '\n' rest := by
      rw [replacePair_cons (by simp), replacePair_cons_of_ne (by decide)]
    rw [copied, replacePair_pair, ih]
  | case3 c rest noFeed noTab ih =>
    have apart {second : Char} (none : ∀ rest', c = '\\' → rest = second :: rest' → False) :
        ¬ (c = '\\' ∧ rest.head? = some second) := by
      rintro ⟨rfl, starts⟩
      obtain ⟨rest', rfl⟩ := head?_eq_some_iff.mp starts
      exact none rest' rfl rfl
    rw [replacePair_cons (apart noFeed), replacePair_cons, ih]
    rintro ⟨same, starts⟩
    -- A line feed that has been put in is no `t`.
    rcases head?_of_replacePair starts with next | ⟨feed, _⟩
    · exact apart noTab ⟨same, next⟩
    · exact absurd feed (by decide)
  | case4 => rfl

/-- The third pass undoes the doubling of backslashes in what was scanned. -/
theorem decodeEscapes_eq (body : List Char) :
    decodeEscapes body = replacePair '\\' '\\' '\\' (scanEscapes body) := by
  rw [decodeEscapes, replacePair_twice]

theorem not_infix_scanEscapes (single : ¬ ['\\', '\\'] <:+: body) :
    ¬ ['\\', '\\'] <:+: scanEscapes body := by
  rw [← replacePair_twice]
  refine mt (infix_of_replacePair ?_ ?_) (mt (infix_of_replacePair ?_ ?_) single)
  all_goals decide

/-- No value has a backslash before an `n` or a `t`. -/
theorem not_infix_decodeEscapes (body : List Char) :
    ¬ ['\\', 'n'] <:+: decodeEscapes body ∧ ¬ ['\\', 't'] <:+: decodeEscapes body := by
  -- Each is removed by its own pass, and the later passes do not bring it back.
  constructor
  · refine mt (infix_of_replacePair ?_ ?_) (mt (infix_of_replacePair ?_ ?_) (not_infix_replacePair ?_ ?_))
    all_goals decide
  · refine mt (infix_of_replacePair ?_ ?_) (not_infix_replacePair ?_ ?_)
    all_goals decide

theorem notMem_decodeEscapes (absent : '`' ∉ body) : '`' ∉ decodeEscapes body := by
  intro inside
  rcases mem_of_replacePair inside with inside | same
  · rcases mem_of_replacePair inside with inside | same
    · rcases mem_of_replacePair inside with inside | same
      · exact absent inside
      · exact absurd same (by decide)
    · exact absurd same (by decide)
  · exact absurd same (by decide)

end Passes

section Written

variable {value : List Char}

theorem scanEscapes_cons {c : Char} {rest : List Char}
    (apart : c = '\\' → rest.head? ≠ some 'n' ∧ rest.head? ≠ some 't') :
    scanEscapes (c :: rest) = c :: scanEscapes rest := by
  rw [scanEscapes]
  · rintro rest' rfl rfl
    exact (apart rfl).1 rfl
  · rintro rest' rfl rfl
    exact (apart rfl).2 rfl

theorem head?_flatMap_escapeChar {c : Char} (starts : (value.flatMap escapeChar).head? = some c)
    (differs : c ≠ '\\') : value.head? = some c := by
  cases value with
  | nil => exact starts
  | cons a value =>
    rw [flatMap_cons, escapeChar] at starts
    grind

theorem scanEscapes_flatMap (noFeed : ¬ ['\\', 'n'] <:+: value) (noTab : ¬ ['\\', 't'] <:+: value) :
    scanEscapes (value.flatMap escapeChar) =
      value.flatMap fun c => if c = '\\' then ['\\', '\\'] else [c] := by
  induction value with
  | nil => rfl
  | cons c value ih =>
    rw [pair_infix_cons, not_or] at noFeed noTab
    have ih := ih noFeed.2 noTab.2
    rw [flatMap_cons, flatMap_cons]
    by_cases slash : c = '\\'
    · subst slash
      -- Neither of the two backslashes begins an escape.
      have next (second : Char) (differs : second ≠ '\\')
          (absent : ¬ ('\\' = '\\' ∧ value.head? = some second)) :
          (value.flatMap escapeChar).head? ≠ some second :=
        fun starts => absent ⟨rfl, head?_flatMap_escapeChar starts differs⟩
      rw [show escapeChar '\\' = ['\\', '\\'] from rfl, cons_append, cons_append,
        nil_append, scanEscapes_cons (by simp), scanEscapes_cons, ih]
      · rfl
      · exact fun _ => ⟨next _ (by decide) noFeed.1, next _ (by decide) noTab.1⟩
    · rw [if_neg slash]
      by_cases feed : c = '\n'
      · subst feed
        exact congrArg _ ih
      · by_cases tab : c = '\t'
        · subst tab
          exact congrArg _ ih
        · rw [escapeChar, if_neg slash, if_neg feed, if_neg tab, cons_append, nil_append,
            scanEscapes_cons fun same => absurd same slash, ih]
          rfl

theorem replacePair_doubled (value : List Char) :
    replacePair '\\' '\\' '\\' (value.flatMap fun c => if c = '\\' then ['\\', '\\'] else [c]) =
      value := by
  induction value with
  | nil => rfl
  | cons c value ih =>
    rw [flatMap_cons]
    by_cases slash : c = '\\'
    · subst slash
      rw [if_pos rfl, cons_append, cons_append, nil_append, replacePair_pair, ih]
    · rw [if_neg slash, cons_append, nil_append, replacePair_cons_of_ne slash, ih]

/-- A value without a backslash before an `n` or a `t` is read back from its body. -/
theorem decodeEscapes_flatMap (noFeed : ¬ ['\\', 'n'] <:+: value) (noTab : ¬ ['\\', 't'] <:+: value) :
    decodeEscapes (value.flatMap escapeChar) = value := by
  rw [decodeEscapes_eq, scanEscapes_flatMap noFeed noTab, replacePair_doubled]

theorem mem_flatMap_escapeChar {c : Char} (inside : c ∈ value.flatMap escapeChar) :
    c ≠ '\n' ∧ (c = '`' → c ∈ value) := by
  obtain ⟨a, member, inside⟩ := mem_flatMap.mp inside
  rw [escapeChar] at inside
  grind

end Written

section Main

theorem construct_quotedWord {word : Word} {body : List Char} (spelled : word.text = .ofList (quotedWord body)) :
    Terminal.string.construct word = .ok (.expr (.string word.pos (.ofList (decodeEscapes body)))) := by
  have inside : withoutEnds 1 (quotedWord body) = body := by
    simp [withoutEnds, quotedWord]
  rw [Terminal.construct, spelled, String.toList_ofList, stringValue, inside]

theorem IsWritable.clean {value : String} (written : IsWritable value) :
    '`' ∉ value.toList ∧ ¬ ['\\', 'n'] <:+: value.toList ∧ ¬ ['\\', 't'] <:+: value.toList := by
  obtain ⟨body, noBacktick, _, constructed⟩ := written
  have same := constructed ⟨"", .ofList (quotedWord body), none, none⟩ rfl
  rw [construct_quotedWord rfl] at same
  obtain rfl : String.ofList (decodeEscapes body) = value := by simpa using same
  rw [String.toList_ofList]
  exact ⟨notMem_decodeEscapes noBacktick, not_infix_decodeEscapes body⟩

/-- Exactly those strings can be written that have no backtick, and no backslash before an `n` or a
`t`. -/
theorem isWritable_iff (value : String) :
    IsWritable value ↔ '`' ∉ value.toList ∧
      ¬ ['\\', 'n'] <:+: value.toList ∧ ¬ ['\\', 't'] <:+: value.toList := by
  refine ⟨IsWritable.clean, ?_⟩
  rintro ⟨noBacktick, noFeed, noTab⟩
  refine ⟨value.toList.flatMap escapeChar, fun inside => ?_, fun inside => ?_, fun word spelled => ?_⟩
  · exact noBacktick ((mem_flatMap_escapeChar inside).2 rfl)
  · exact (mem_flatMap_escapeChar inside).1 rfl
  · rw [construct_quotedWord spelled, decodeEscapes_flatMap noFeed noTab, String.ofList_toList]

/-- A backslash before an `n` cannot be written, though there is an escape for backslashes. -/
theorem not_isWritable_slash : ¬ ∀ value : String, '`' ∉ value.toList → IsWritable value := by
  intro all
  exact (all "\\n" (by decide)).clean.2.1 (by decide)

/-- A body without backslashes side by side denotes what a single scan makes of it. -/
theorem construct_eq_scan {word : Word} {body : List Char} (single : ¬ ['\\', '\\'] <:+: body)
    (spelled : word.text = .ofList (quotedWord body)) :
    Terminal.string.construct word = .ok (.expr (.string word.pos (.ofList (scanEscapes body)))) := by
  rw [construct_quotedWord spelled, decodeEscapes_eq,
    replacePair_of_not_infix (not_infix_scanEscapes single)]

/-- A backslash before another letter and one at the end are copied, as are letters behind an
escape. -/
theorem construct_eq_scan_mixed :
    ¬ ['\\', '\\'] <:+: "\\nn\\tt\\d t\\".toList ∧
      Terminal.string.construct ⟨"STRING", "`\\nn\\tt\\d t\\`", some 1, some 7⟩ =
        .ok (.expr (.string ⟨1, 7⟩ "\nn\tt\\d t\\")) := by
  have single : ¬ ['\\', '\\'] <:+: "\\nn\\tt\\d t\\".toList := by decide
  exact ⟨single, construct_eq_scan single (by decide)⟩

end Main

end LeftHand
