import LeftHand.Proofs.Format.Chunks
import LeftHand.Proofs.Grammar.Tokens

/-!
Texts that can be cut into tokens are laid out in chunks, and no word that must stand apart is
joined to the chunk before it.
-/

namespace LeftHand

open List

/-- The words that must stand apart. -/
def apartWords : List (List Char) :=
  [['a', 's', 's'], ['a', 'd', 'd', 'r'], ['e', 'q'], ['r', 'e', 'q'], ['1', 't'], ['g', 't'],
   ['1', 't', 'e'], ['g', 't', 'e'], ['a'], ['s'], ['t'], ['d'], ['%', '%'], ['r', 'e', 'v'],
   ['@', '@'], ['@', 'r'], ['v', '@', '1', 'd'], ['d', 'e', 'c', 't'], ['b', '@', '@', '1'],
   ['c', 'a', 'r'], ['t', 'r', 'v', 'e'], ['f', 'a', '1', 's', 'e']]

theorem mem_apartWords {kind : Terminal} {words : List (List Char)}
    (spelled : kind.spelling = .apart words) : ∀ word ∈ words, word ∈ apartWords := by
  cases kind <;> cases spelled <;> decide

theorem eq_percent_of_mem_apartWords {word : List Char} (member : word ∈ apartWords)
    (isMark : IsMark word) : word = ['%', '%'] := by
  have shapes : ∀ word ∈ apartWords, word = ['%', '%'] ∨ (word ≠ [] ∧ word.all isNameChar = true) := by
    decide
  exact (shapes word member).resolve_right fun isRun => IsRun.not_isMark isRun isMark

/-- How a chunk may stand behind another one and a gap. -/
structure ChunkFits (prev gap chunk : List Char) : Prop where
  isGap : gap.all Cursor.isGap = true
  isChunk : IsRun chunk ∨ IsMark chunk
  /-- Without a gap a run ends at a mark, and so does `%%`. -/
  parted : gap = [] → IsRun prev ∨ prev = ['%', '%'] → IsMark chunk
  /-- Without a gap a word that must stand apart is not joined to what stands before. -/
  isApart : gap = [] → prev.getLast?.any isJoining = true → chunk ∉ apartWords

/-- A text behind a chunk, cut into chunks. -/
inductive Laid : (prev text : List Char) → Prop where
  | done {prev : List Char} : Laid prev []
  | chunk {prev gap chunk rest : List Char} (fits : ChunkFits prev gap chunk)
      (onward : Laid chunk rest) : Laid prev (gap ++ (chunk ++ rest))

section Joined

variable {piece run rest out : List Char} {before : Option Char} {kind : Terminal}

/-- Nothing is taken from a word that must stand apart and is joined to what stands before, unless
an `s` is left. -/
theorem eq_of_take?_joined (joins : before.any isJoining = true) (member : piece ++ run ∈ apartWords)
    (isRun : IsRun (piece ++ run)) (apart : StartsApart rest)
    (taken : kind.spelling.take? before (piece ++ (run ++ rest)) = some (piece, run ++ rest)) :
    run = ['s'] := by
  have known : ∀ word ∈ apartWords, ∀ found ∈ kind.spelling.take? (some 's') word,
      found.2 = ['s'] := by
    cases kind <;> decide
  rw [← append_assoc] at taken
  obtain ⟨left, found, same⟩ := (take?_run_iff isRun apart).mp taken
  obtain rfl := append_cancel_right same
  have also : before.any isJoining = (some 's').any isJoining := joins
  rw [take?_before also] at found
  exact known _ member _ found

theorem of_take?_percent
    (taken : kind.spelling.take? before (['%', '%'] ++ rest) = some (['%', '%'], rest)) :
    before.any isJoining = false ∧ rest.head?.any isJoining = false := by
  generalize spelled : kind.spelling = spelling at taken
  cases spelling with
  | plain word =>
    obtain ⟨rfl, _⟩ := take?_plain.mp taken
    cases kind <;> cases spelled
  | apart words =>
    obtain ⟨alone, _, _, ends⟩ := of_take?_apart taken
    exact ⟨alone, ends⟩
  | number =>
    obtain ⟨digits, _, _, same, _⟩ := take?_number.mp taken
    simp at same
  | quoted =>
    obtain ⟨body, _, same, _⟩ := take?_quoted.mp taken
    simp at same
  | name =>
    obtain ⟨⟨first, more, same, letter, _⟩, _⟩ := take?_name.mp taken
    obtain ⟨rfl, _⟩ := List.cons.inj same
    exact absurd letter (by decide)

/-- No mark that must stand apart is taken where it is joined to what stands before. -/
theorem not_mem_of_take?_joined (joins : before.any isJoining = true) (isMark : IsMark piece)
    (taken : kind.spelling.take? before (piece ++ rest) = some (piece, rest)) : piece ∉ apartWords := by
  intro member
  obtain rfl := eq_percent_of_mem_apartWords member isMark
  rw [(of_take?_percent taken).1] at joins
  cases joins

end Joined

section Behind

variable {gap : List Char} {before : Option Char}

theorem any_isJoining_behind (isGap : gap.all Cursor.isGap = true) :
    (gap.getLast?.or before).any isJoining = (gap.isEmpty && before.any isJoining) := by
  cases gap with
  | nil => rfl
  | cons c gap =>
    have filled : c :: gap ≠ [] := cons_ne_nil _ _
    have last := all_eq_true.mp isGap _ (getLast_mem filled)
    rw [getLast?_eq_some_getLast filled]
    exact (isBreak_facts (isBreak_of_isGap last)).1

end Behind

/-- How a text goes on from a place: apart from what stands before, or inside a run. -/
inductive Front (here : Cursor) : Prop where
  | outside {core tail : List Char} (rest : here.rest = core ++ tail)
      (isGap : tail.all Cursor.isGap = true) (apart : StartsApart (core ++ tail))
      (laid : ∀ prev : List Char, (prev.getLast?.any isJoining = true →
        here.before.any isJoining = true) → Laid prev core)
  | inside {run core tail : List Char} (rest : here.rest = run ++ (core ++ tail)) (isRun : IsRun run)
      (isGap : tail.all Cursor.isGap = true) (apart : StartsApart (core ++ tail)) (laid : Laid run core)
      (alone : here.before.any isJoining = true → run ∉ apartWords)

section Fronts

variable {run other core tail piece rest gap : List Char} {before : Option Char} {kind : Terminal}
  {token : Token} {here next there : Cursor}

theorem startsApart_of_all (isGap : gap.all Cursor.isGap = true) : StartsApart gap := by
  intro c starts
  exact isBreak_of_isGap (all_eq_true.mp isGap c (mem_of_mem_head? starts))

theorem startsApart_of_isGap (isGap : gap.all Cursor.isGap = true) (filled : gap ≠ []) :
    StartsApart (gap ++ rest) := by
  cases gap with
  | nil => exact absurd rfl filled
  | cons c gap =>
    rintro _ ⟨⟩
    exact isBreak_of_isGap (all_eq_true.mp isGap c mem_cons_self)

theorem IsMark.startsApart (isMark : IsMark piece) : StartsApart (piece ++ rest) := by
  obtain ⟨c, more, rfl, break_⟩ := isMark.head?
  rintro _ ⟨⟩
  exact break_

theorem IsRun.append (isRun : IsRun run) (also : other.all isNameChar = true) :
    IsRun (run ++ other) := by
  refine ⟨fun empty => isRun.1 (append_eq_nil_iff.mp empty).1, ?_⟩
  rw [all_append, isRun.2, also]
  rfl

theorem IsRun.any_getLast? (isRun : IsRun run) : run.getLast?.any isJoining = true := by
  rw [getLast?_eq_some_getLast isRun.1]
  exact isJoining_of_isNameChar (all_eq_true.mp isRun.2 _ (getLast_mem isRun.1))

/-- What may stand behind a run may stand behind anything. -/
theorem ChunkFits.of_run (fits : ChunkFits run gap piece) (isRun : IsRun run) :
    ChunkFits other gap piece where
  isGap := fits.isGap
  isChunk := fits.isChunk
  parted empty _ := fits.parted empty (.inl isRun)
  isApart empty _ := fits.isApart empty isRun.any_getLast?

theorem Laid.of_run (laid : Laid run core) (isRun : IsRun run) : Laid other core := by
  cases laid with
  | done => exact .done
  | chunk fits onward => exact .chunk (fits.of_run isRun) onward

theorem Front.of_chunk (isGap : gap.all Cursor.isGap = true) (isChunk : IsRun piece ∨ IsMark piece)
    (parted : gap = [] → IsMark piece)
    (alone : gap = [] → here.before.any isJoining = true → piece ∉ apartWords)
    (laid : Laid piece core) (trails : tail.all Cursor.isGap = true)
    (cut : here.rest = gap ++ (piece ++ (core ++ tail))) : Front here := by
  have apart : StartsApart (gap ++ (piece ++ core) ++ tail) := by
    rw [append_assoc, append_assoc]
    by_cases empty : gap = []
    · rw [empty]
      exact (parted empty).startsApart
    · exact startsApart_of_isGap isGap empty
  refine .outside (by rw [cut]; simp) trails apart ?_
  intro prev joins
  exact .chunk ⟨isGap, isChunk, fun empty _ => parted empty,
    fun empty joined => alone empty (joins joined)⟩ laid

theorem Front.behind_run (isRun : IsRun piece) (behind : next.before = piece.getLast?)
    (front : Front next) : ∃ left core tail, next.rest = left ++ (core ++ tail) ∧
      IsRun (piece ++ left) ∧ tail.all Cursor.isGap = true ∧ StartsApart (core ++ tail) ∧
        Laid (piece ++ left) core ∧ left ≠ ['s'] := by
  cases front with
  | @outside core tail cut isGap apart laid =>
    refine ⟨[], core, tail, cut, ?_, isGap, apart, ?_, by decide⟩
    · rwa [List.append_nil]
    · rw [List.append_nil]
      exact laid piece fun joins => behind ▸ joins
  | @inside run core tail cut also isGap apart laid alone =>
    refine ⟨run, core, tail, cut, isRun.append also.2, isGap, apart, laid.of_run also, ?_⟩
    rintro rfl
    exact alone (behind ▸ isRun.any_getLast?) (by decide)

theorem Front.behind_mark (isMark : IsMark piece) (behind : next.before = piece.getLast?)
    (found : kind.spelling.take? before (piece ++ next.rest) = some (piece, next.rest))
    (front : Front next) :
    ∃ core tail, next.rest = core ++ tail ∧ tail.all Cursor.isGap = true ∧ Laid piece core := by
  cases front with
  | @outside core tail cut isGap apart laid =>
    exact ⟨core, tail, cut, isGap, laid piece fun joins => behind ▸ joins⟩
  | @inside run core tail cut isRun isGap apart laid alone =>
    refine ⟨[] ++ (run ++ core), tail, by rw [cut]; simp, isGap, .chunk ⟨rfl, .inl isRun, ?_, ?_⟩ laid⟩
    · rintro _ (also | rfl)
      · exact absurd isMark also.not_isMark
      · -- A run would join the mark.
        obtain ⟨c, more, rfl, named⟩ := isRun.head?
        have joins := (of_take?_percent found).2
        rw [cut, cons_append, head?_cons, Option.any_some,
          isJoining_of_isNameChar named] at joins
        cases joins
    · exact fun _ joins => alone (behind ▸ joins)

theorem Front.take (taken : here.take? kind = some (token, next)) (front : Front next) : Front here := by
  obtain ⟨gap, piece, rest, isGap, cut, found, _, rfl⟩ := Cursor.take?_iff.mp taken
  rcases isRun_or_isMark_of_take? found with isRun | isMark
  · obtain ⟨left, core, tail, rfl, whole, trails, apart, laid, notS⟩ := front.behind_run isRun rfl
    by_cases empty : gap = []
    · subst empty
      refine .inside (by rw [cut]; simp) whole trails apart laid ?_
      exact fun joins member => notS (eq_of_take?_joined joins member whole apart found)
    · exact .of_chunk isGap (.inl whole) (absurd · empty) (absurd · empty) laid trails
        (by rw [cut]; simp)
  · obtain ⟨core, tail, rfl, trails, laid⟩ := front.behind_mark isMark rfl found
    refine .of_chunk isGap (.inr isMark) (fun _ => isMark) ?_ laid trails cut
    rintro rfl joins
    exact not_mem_of_take?_joined joins isMark found

/-- A text that is cut into tokens is laid out in chunks. -/
theorem Lexes.front {tokens : List Token} (lexes : Lexes here tokens there)
    (ends : there.isAtEnd = true) : Front here := by
  induction lexes with
  | @done here =>
    exact .outside (nil_append here.rest).symm ends (startsApart_of_all ends) fun _ _ => .done
  | token taken _ ih => exact .take taken (ih ends)

/-- A program is laid out in chunks, with a gap behind them. -/
theorem Lexes.laid {text : List Char} {tokens : List Token} (lexes : Lexes (.start text) tokens there)
    (ends : there.isAtEnd = true) :
    ∃ core tail, text = core ++ tail ∧ tail.all Cursor.isGap = true ∧ Laid [] core := by
  cases lexes.front ends with
  | @outside core tail cut isGap _ laid =>
    exact ⟨core, tail, cut, isGap, laid [] fun joins => nomatch joins⟩
  | @inside run core tail cut isRun isGap _ laid _ =>
    refine ⟨[] ++ (run ++ core), tail, cut.trans (by simp), isGap, .chunk ⟨rfl, .inl isRun, ?_, ?_⟩ laid⟩
    · rintro _ (⟨filled, _⟩ | other)
      · exact absurd rfl filled
      · cases other
    · exact fun _ joins => nomatch joins

end Fronts

end LeftHand
