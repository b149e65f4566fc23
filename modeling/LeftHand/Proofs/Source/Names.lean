import LeftHand.Proofs.Source.Literals

/-!
Names in front of an assignment: keywords such as `ret`, `as` and `e1se` may start a name, and each
of them opens another reading. None of these readings gets past the word of the assignment, so none
ends.
-/

namespace LeftHand

open List

variable {name tail : List Char}

/-- The word between the sides of an assignment. -/
def assWord : List Char :=
  ['a', 's', 's']

/-- The rules of expressions. -/
def Rule.isExpression : Rule → Bool
  | .expr | .orExpr | .andExpr | .equality | .comparison | .formula | .term | .factor
  | .derefExpr | .revExpr | .negExpr | .execExpr | .nameExpr | .literal => true
  | _ => false

/-- A form of expressions alone: it has no other phrases, and no token of an assignment. -/
def Form.isExpression : Form → Bool
  | empty => true
  | token kind => !List.contains [.assignWord, .asWord] kind
  | phrase rule => rule.isExpression
  | seq one two => one.isExpression && two.isExpression
  | alt one two => one.isExpression && two.isExpression
  | many item => item.isExpression

theorem Rule.isExpression_body {rule : Rule} (inside : rule.isExpression = true) :
    rule.body.isExpression = true := by
  cases rule <;> first | rfl | cases inside

/-- The places at a name that is assigned to: before it, inside it and behind it. -/
inductive Cursor.Stuck (rest : List (List Char)) (here : Cursor) : Prop where
  | before (name : List Char) (isName : IsName name) (faces : here.Faces (name :: assWord :: rest))
  | inside (tail : List Char) (filled : tail ≠ []) (named : tail.all isNameChar = true)
      (solid : AllSolid (assWord :: rest))
      (text : here.rest = tail ++ gapped (assWord :: rest))
  | behind (faces : here.Faces (assWord :: rest))

section Stuck

variable {here there : Cursor} {rest : List (List Char)} {kind : Terminal} {token : Token}

/-- Behind a piece of a name there is more of the name, or the assignment. -/
theorem Cursor.stuck_after {piece left : List Char} (named : name.all isNameChar = true)
    (cut : name = piece ++ left) (solid : AllSolid (assWord :: rest)) :
    (here.after piece (left ++ gapped (assWord :: rest))).Stuck rest := by
  cases left with
  | nil => exact .behind (Cursor.faces_after solid)
  | cons c left =>
    refine .inside (c :: left) (cons_ne_nil _ _) (all_eq_true.mpr ?_) solid rfl
    intro c inside
    exact all_eq_true.mp named c (cut ▸ mem_append_right _ inside)

theorem onlyFor_assWord : OnlyFor [.assignWord, .asWord] assWord := by
  intro kind foreign
  cases kind with
  | assignWord | asWord => exact absurd (by decide) foreign
  | _ => rfl

theorem isSolid_of_isNameChar (filled : tail ≠ []) (named : tail.all isNameChar = true) :
    IsSolid tail := by
  refine .inl ⟨filled, all_eq_true.mpr fun c inside => ?_⟩
  exact isLeftHand_of_isNameChar (all_eq_true.mp named c inside)

theorem Cursor.take?_inside (filled : tail ≠ []) (named : tail.all isNameChar = true)
    {words : List (List Char)} (text : here.rest = tail ++ gapped words)
    (taken : here.take? kind = some (token, there)) :
    ∃ piece left, kind.spelling.take? here.before tail = some (piece, left) ∧
      there = here.after piece (left ++ gapped words) := by
  have solid := isSolid_of_isNameChar filled named
  -- A name has no gap inside, so the place itself is where tokens are taken.
  have still : here.skipGap = here := by
    refine skipGap_of_head? ?_
    rw [text]
    exact solid.head?_isGap _
  obtain ⟨piece, out, found, _, rfl⟩ := Cursor.take?_eq_some.mp taken
  rw [still, text] at found
  obtain ⟨left, split, rfl⟩ := (take?_append_iff kind solid (isTail_gapped words)).mp found
  exact ⟨piece, left, split, by rw [still]⟩

/-- Other tokens do not get past the word of the assignment. -/
theorem Cursor.Stuck.take? (stuck : here.Stuck rest) (taken : here.take? kind = some (token, there))
    (foreign : kind ∉ [.assignWord, .asWord]) : there.Stuck rest := by
  cases stuck with
  | before name isName faces =>
    obtain ⟨piece, left, found, _, rfl⟩ := faces.take?_iff.mp taken
    exact stuck_after isName.all_isNameChar (take?_append found)
      fun word inside => faces.solid word (mem_cons_of_mem _ inside)
  | inside tail filled named solid text =>
    obtain ⟨piece, left, found, rfl⟩ := take?_inside filled named text taken
    exact stuck_after named (take?_append found) solid
  | behind faces =>
    have none := Option.isNone_iff_eq_none.mp (onlyFor_assWord kind foreign)
    rw [faces.take?_eq_none none] at taken
    cases taken

theorem Cursor.Stuck.not_starts (stuck : here.Stuck rest) : ¬ here.Starts [.lineEnd, .scopeStart] := by
  cases stuck with
  | before name isName faces =>
    exact LeftHand.not_starts (isName.onlyFor.all_refuses (by decide)) faces
  | inside tail filled named solid text =>
    rintro ⟨kind, member, ⟨token, there⟩, taken⟩
    obtain ⟨piece, left, found, _⟩ := take?_inside filled named text taken
    -- The marks have a first character that no name has.
    have foreign : ∀ kind ∈ [Terminal.lineEnd, .scopeStart], ∀ piece left,
        kind.spelling.take? here.before tail = some (piece, left) → ∃ c ∈ tail, isNameChar c = false := by
      intro kind member piece left found
      simp only [mem_cons, not_mem_nil, or_false] at member
      rcases member with rfl | rfl
      · obtain ⟨rfl, cut⟩ := take?_plain.mp found
        exact ⟨'$', cut ▸ mem_cons_self, by decide⟩
      · obtain ⟨rfl, cut⟩ := take?_plain.mp found
        exact ⟨'%', cut ▸ mem_cons_self, by decide⟩
    obtain ⟨c, inside, other⟩ := foreign kind member piece left found
    rw [all_eq_true.mp named c inside] at other
    cases other
  | behind faces => exact LeftHand.not_starts (onlyFor_assWord.all_refuses (by decide)) faces

theorem Derives.stuck {form : Form} {derivation : Derivation} (derived : Derives form here derivation there)
    (expression : form.isExpression = true) (stuck : here.Stuck rest) : there.Stuck rest := by
  induction derived with
  | empty | none => exact stuck
  | token taken =>
    refine stuck.take? taken ?_
    simpa [Form.isExpression] using expression
  | phrase _ ih => exact ih (Rule.isExpression_body expression) stuck
  | seq _ _ before behind =>
    rw [Form.isExpression, Bool.and_eq_true] at expression
    exact behind expression.2 (before expression.1 stuck)
  | left _ ih =>
    rw [Form.isExpression, Bool.and_eq_true] at expression
    exact ih expression.1 stuck
  | right _ ih =>
    rw [Form.isExpression, Bool.and_eq_true] at expression
    exact ih expression.2 stuck
  | more _ _ before behind => exact behind expression (before expression stuck)

/-- A form has no reading from a place at a name that is assigned to. -/
def Form.Dies (rest : List (List Char)) (form : Form) : Prop :=
  ∀ (here : Cursor) (stop : Cursor → Prop), here.Stuck rest → ¬ Leads form stop here

variable {form : Form}

theorem Form.dies_of_first (solid : form.isNullable = false)
    (firsts : ∀ kind ∈ form.first, kind ∈ [Terminal.lineEnd, .scopeStart]) : form.Dies rest := by
  intro here stop stuck leads
  exact stuck.not_starts ((leads.starts solid).mono firsts)

theorem Form.Dies.seq (dies : form.Dies rest) {opening : Form} (expression : opening.isExpression = true) :
    (Form.seq opening form).Dies rest := by
  rintro here stop stuck ⟨_, there, derived, ends⟩
  cases derived with
  | seq before behind => exact dies _ stop (before.stuck expression stuck) ⟨_, there, behind, ends⟩

/-- Whatever token starts a name, no reading goes on to what has none. -/
theorem Form.Dies.rejects (dies : form.Dies rest) (isName : IsName name) {stop : Cursor → Prop} :
    Rejects stop (.seq (.token kind) form) (name :: assWord :: rest) := by
  rintro here faces ⟨_, there, derived, ends⟩
  cases derived with
  | seq before behind =>
    cases before with
    | token taken =>
      obtain ⟨piece, left, found, _, rfl⟩ := faces.take?_iff.mp taken
      refine dies _ stop (Cursor.stuck_after isName.all_isNameChar (take?_append found) ?_)
        ⟨_, there, behind, ends⟩
      exact fun word inside => faces.solid word (mem_cons_of_mem _ inside)

variable {name : List Char} {stop : Cursor → Prop}

/-- A name that is assigned to starts nothing but the assignment, whatever keyword it starts
with. -/
theorem rejects_assigned (isName : IsName name) {rule : Rule}
    (keyword : rule ∈ [.retStmt, .exprStmt, .bassStmt, .asStmt, .elseIfStmt, .elseStmt]) :
    Rejects stop (.phrase rule) (name :: assWord :: rest) := by
  have line : (Form.token .lineEnd).Dies rest := Form.dies_of_first rfl (by decide)
  have block : (Form.phrase .block).Dies rest := Form.dies_of_first rfl (by decide)
  have guarded : (Form.seq (.phrase .expr) (.phrase .block)).Dies rest := block.seq rfl
  refine .phrase ?_
  simp only [mem_cons, not_mem_nil, or_false] at keyword
  rcases keyword with rfl | rfl | rfl | rfl | rfl | rfl
  · have value : (Form.seq (.optional (.phrase .expr)) (.token .lineEnd)).Dies rest := line.seq rfl
    exact value.rejects isName
  · -- An expression statement has no keyword of its own.
    have value : (Form.seq (.phrase .expr) (.token .lineEnd)).Dies rest := line.seq rfl
    exact fun here faces => value here stop (.before name isName faces)
  · exact line.rejects isName
  · exact guarded.rejects isName
  · exact guarded.rejects isName
  · exact block.rejects isName

end Stuck

end LeftHand
