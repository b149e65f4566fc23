import LeftHand.Proofs.Format.Settled

/-! The rows of a layout: every statement starts in a row of its own. -/

namespace LeftHand

open List

/-- The indents of statements, before they are capped: that of the scopes open before each of them,
less what it closes. -/
def indentsFrom : (indent : Int) → List (List Char) → List Int
  | _, [] => []
  | indent, statement :: statements =>
    indentAt indent statement :: indentsFrom (indentBehind indent statement) statements

/-- The indents of the statements of a text. -/
def indentsOf (text : List Char) : List Int :=
  indentsFrom 0 (statementsOf text)

/-- How many rows a statement takes, with a space at least behind it. -/
def rowsTaken (width indent : Int) (statement : List Char) : Nat :=
  ((cappedIndent width indent).toNat + statement.length) / width.toNat + 1

/-- The rows that statements start in, if the first of them starts in a given row. -/
def rowsFrom (width : Int) : (row : Nat) → (indent : Int) → List (List Char) → List Nat
  | _, _, [] => []
  | row, indent, statement :: statements =>
    row :: rowsFrom width (row + rowsTaken width (indentAt indent statement) statement)
      (indentBehind indent statement) statements

section Rows

variable {width indent here : Int} {row r i : Nat} {statement : List Char}
  {statements : List (List Char)}

theorem length_indentsFrom (indent : Int) (statements : List (List Char)) :
    (indentsFrom indent statements).length = statements.length := by
  induction statements generalizing indent with
  | nil => rfl
  | cons statement statements ih => exact congrArg (· + 1) (ih _)

theorem length_rowsFrom (width : Int) (row : Nat) (indent : Int) (statements : List (List Char)) :
    (rowsFrom width row indent statements).length = statements.length := by
  induction statements generalizing row indent with
  | nil => rfl
  | cons statement statements ih => exact congrArg (· + 1) (ih _ _)

/-- A statement fills the rows that it takes, unless too many scopes are closed. -/
theorem length_placeStatement (wide : 4 ≤ width) (closed : 0 ≤ indent) (statement : List Char) :
    (placeStatement width indent statement).length =
      rowsTaken width indent statement * width.toNat := by
  obtain ⟨w, rfl⟩ := Int.eq_ofNat_of_zero_le (show 0 ≤ width by omega)
  -- The indent is cut off neither below nor above.
  obtain ⟨shown, capped⟩ : ∃ shown : Nat, cappedIndent w indent = shown :=
    Int.eq_ofNat_of_zero_le (by simp only [cappedIndent]; omega)
  have used : ((statement.length : Int) + shown).fmod w = ((statement.length + shown) % w : Nat) := by
    rw [Int.fmod_eq_emod_of_nonneg _ (by omega)]
    rfl
  have small : (statement.length + shown) % w < w := Nat.mod_lt _ (by omega)
  have whole := Nat.div_add_mod (statement.length + shown) w
  simp only [placeStatement, rowsTaken, capped, used, blanks, length_append,
    length_replicate, Int.toNat_natCast]
  rw [Nat.add_mul, Nat.one_mul, Nat.add_comm shown, Nat.mul_comm _ w]
  omega

theorem pairwise_rowsFrom (width : Int) (row : Nat) (indent : Int) (statements : List (List Char)) :
    (∀ other ∈ rowsFrom width row indent statements, row ≤ other) ∧
      (rowsFrom width row indent statements).Pairwise (· < ·) := by
  induction statements generalizing row indent with
  | nil => exact ⟨by simp [rowsFrom], .nil⟩
  | cons statement statements ih =>
    obtain ⟨later, increasing⟩ := ih (row + rowsTaken width (indentAt indent statement) statement)
      (indentBehind indent statement)
    -- The statement takes one row at least.
    have further : ∀ other ∈ rowsFrom width (row + rowsTaken width (indentAt indent statement) statement)
        (indentBehind indent statement) statements, row < other := by
      intro other member
      exact Nat.lt_of_lt_of_le (Nat.lt_add_of_pos_right (Nat.succ_pos _)) (later other member)
    refine ⟨forall_mem_cons.mpr ⟨Nat.le_refl row, ?_⟩, .cons further increasing⟩
    exact fun other member => Nat.le_of_lt (further other member)

/-- A statement starts in its row, if no scopes too many are closed before it, and the next one in
the row behind. -/
theorem startsFrom_eq (wide : 4 ≤ width) (row : Nat) (indent : Int) (statements : List (List Char))
    {i : Nat} (found : statements[i]? = some statement)
    (indented : (indentsFrom indent statements)[i]? = some here)
    (rowed : (rowsFrom width row indent statements)[i]? = some r)
    (closed : ∀ j < i, ∀ other, (indentsFrom indent statements)[j]? = some other → 0 ≤ other) :
    (startsFrom width (row * width.toNat) indent statements)[i]? =
        some (r * width.toNat + (cappedIndent width here).toNat) ∧
      ∀ next, (rowsFrom width row indent statements)[i + 1]? = some next →
        next = r + rowsTaken width here statement := by
  induction statements generalizing row indent i with
  | nil => cases found
  | cons first statements ih =>
    cases i with
    | zero =>
      cases found
      cases indented
      cases rowed
      refine ⟨rfl, fun next follows => ?_⟩
      -- The next row is the first one of those behind.
      cases statements with
      | nil => cases follows
      | cons second statements =>
        cases follows
        rfl
    | succ i =>
      -- The statements before fill whole rows, so the first of the others starts a row, too.
      have filled := length_placeStatement wide (closed 0 (Nat.succ_pos i) _ rfl) first
      have onward := ih (row + rowsTaken width (indentAt indent first) first) _
        found indented rowed fun j before other known => closed (j + 1) (Nat.succ_lt_succ before) other known
      rw [Nat.add_mul, ← filled] at onward
      exact onward

/-- A statement and a space behind it end in the last of the rows that it takes. -/
theorem ends_in_last_row (wide : 4 ≤ width) (row : Nat) (indent : Int) (statement : List Char) :
    let start := row * width.toNat + (cappedIndent width indent).toNat
    let next := row + rowsTaken width indent statement
    ((next : Int) - 1) * width ≤ start + statement.length ∧ (start : Int) + statement.length < next * width := by
  obtain ⟨w, rfl⟩ := Int.eq_ofNat_of_zero_le (show 0 ≤ width by omega)
  simp only [rowsTaken, Int.toNat_natCast]
  -- What is left of the last row is less than a row.
  have whole := Nat.div_add_mod' ((cappedIndent w indent).toNat + statement.length) w
  have small := Nat.mod_lt ((cappedIndent w indent).toNat + statement.length) (show 0 < w by omega)
  generalize ((cappedIndent w indent).toNat + statement.length) / w = more at whole
  generalize ((cappedIndent w indent).toNat + statement.length) % w = used at whole small
  zify at whole small ⊢
  constructor <;> linarith

end Rows

section Main

variable {width : Int} {text : List Char}

/-- Every statement starts in a row of its own, behind its indent: the rows increase, a statement
and a space behind it take all the rows up to the next one, and nothing but spaces stands between
statements. -/
theorem statements_start_rows (wide : 4 ≤ width) (closed : ∀ indent ∈ indentsOf text, 0 ≤ indent) :
    ∃ (layout : List Char) (starts rows : List Nat),
      Writes width text layout ∧ SpreadOut 0 starts (statementsOf text) layout ∧
        rows.length = (statementsOf text).length ∧ rows.Pairwise (· < ·) ∧
          ∀ (i : Nat) (statement : List Char) (indent : Int) (row : Nat),
            (statementsOf text)[i]? = some statement → (indentsOf text)[i]? = some indent →
              rows[i]? = some row → ∃ start : Nat, starts[i]? = some start ∧
                (start : Int) = row * width + min indent (width - 4) ∧
                  ∀ next after : Nat, rows[i + 1]? = some next → starts[i + 1]? = some after →
                    start + statement.length < after ∧
                      ((next : Int) - 1) * width ≤ start + statement.length ∧
                        (start : Int) + statement.length < next * width := by
  have nonneg {i : Nat} {indent : Int} (found : (indentsOf text)[i]? = some indent) : 0 ≤ indent :=
    closed indent (mem_of_getElem? found)
  -- Where a statement starts is known from its row, and so is the row of the next one.
  have located {i : Nat} {statement : List Char} {indent : Int} {row : Nat}
      (found : (statementsOf text)[i]? = some statement) (indented : (indentsOf text)[i]? = some indent)
      (rowed : (rowsFrom width 0 0 (statementsOf text))[i]? = some row) :=
    startsFrom_eq wide 0 0 (statementsOf text) found indented rowed fun _ _ _ before => nonneg before
  rw [Nat.zero_mul] at located
  refine ⟨_, startsFrom width 0 0 (statementsOf text), rowsFrom width 0 0 (statementsOf text),
    writes_placeAll (by omega) text, spread_layout width text, length_rowsFrom ..,
    (pairwise_rowsFrom ..).2, ?_⟩
  intro i statement indent row found indented rowed
  obtain ⟨starts, follows⟩ := located found indented rowed
  have widthNat : (width.toNat : Int) = width := Int.toNat_of_nonneg (by omega)
  -- The indent is not cut off below.
  have shown : ((cappedIndent width indent).toNat : Int) = min indent (width - 4) := by
    have := nonneg indented
    simp only [cappedIndent]
    omega
  refine ⟨_, starts, by rw [← shown, Nat.cast_add, Nat.cast_mul, widthNat], ?_⟩
  intro next after nextRowed nextStarts
  obtain rfl := follows next nextRowed
  obtain ⟨reaches, fits⟩ := ends_in_last_row wide row indent statement
  refine ⟨?_, reaches, fits⟩
  -- The next statement starts in the row behind, if not at its beginning.
  have counted := length_rowsFrom width 0 0 (statementsOf text)
  have inside : i + 1 < (statementsOf text).length :=
    counted ▸ (List.getElem?_eq_some_iff.mp nextRowed).1
  have alsoInside : i + 1 < (indentsOf text).length :=
    (length_indentsFrom 0 (statementsOf text)).symm ▸ inside
  have next := (located (getElem?_eq_getElem inside) (getElem?_eq_getElem alsoInside)
    nextRowed).1
  have same := Option.some.inj (nextStarts.symm.trans next)
  zify at fits same ⊢
  rw [widthNat] at fits same ⊢
  omega

/-- The third statement fills its row, so that a whole row of spaces follows; the fourth one is
longer than a row. Both are nested deeper than their indent shows. -/
theorem statements_start_rows_nested :
    let text := "a%s b%s ccc$ dddddddd$ !s!s".toList
    let layout := "a%s     b%s   ccc$        dddddddd$   !s  !s".toList
    indentsOf text = [0, 2, 4, 4, 2, 0] ∧ (∀ indent ∈ indentsOf text, 0 ≤ indent) ∧
      ∃ (starts rows : List Nat) (row start next after : Nat),
        Writes 6 text layout ∧ SpreadOut 0 starts (statementsOf text) layout ∧ rows.Pairwise (· < ·) ∧
          rows[2]? = some row ∧ starts[2]? = some start ∧ (start : Int) = row * 6 + 2 ∧
            rows[3]? = some next ∧ starts[3]? = some after ∧ start + 4 < after ∧
              ((next : Int) - 1) * 6 ≤ start + 4 ∧ (start : Int) + 4 < next * 6 := by
  intro text layout
  have indents : indentsOf text = [0, 2, 4, 4, 2, 0] := by decide +kernel
  have closed : ∀ indent ∈ indentsOf text, 0 ≤ indent := by
    rw [indents]
    decide
  have statements : statementsOf text = ["a%s".toList, "b%s".toList, "ccc$".toList, "dddddddd$".toList,
      "!s".toList, "!s".toList] := by
    decide +kernel
  obtain ⟨found, starts, rows, writes, spread, counted, increasing, located⟩ :=
    statements_start_rows (show (4 : Int) ≤ 6 by decide) closed
  have shown : layoutText? 6 text = some layout := by decide +kernel
  obtain rfl : found = layout := Option.some.inj (writes.1.symm.trans shown)
  rw [statements] at counted
  have third := getElem?_eq_getElem (show 2 < rows.length by rw [counted]; decide)
  have fourth := getElem?_eq_getElem (show 3 < rows.length by rw [counted]; decide)
  obtain ⟨start, starting, place, follows⟩ :=
    located 2 "ccc$".toList 4 _ (by rw [statements]; rfl) (by rw [indents]; rfl) third
  obtain ⟨after, alsoStarting, _⟩ :=
    located 3 "dddddddd$".toList 4 _ (by rw [statements]; rfl) (by rw [indents]; rfl) fourth
  exact ⟨indents, closed, starts, rows, _, start, _, after, writes, spread, increasing, third, starting,
    place, fourth, alsoStarting, follows _ after fourth alsoStarting⟩

end Main

end LeftHand
