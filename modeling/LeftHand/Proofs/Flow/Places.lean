import LeftHand.Proofs.Lower.Shape

/-!
Each place of a function has one piece of code, and every run of a lowered part keeps to places that
have one.
-/

namespace LeftHand

open List

variable {inner : Site} {position : Nat} {condition : Expr} {pos bodyPos : Pos}
  {stmts body : List Stmt}

/-- The place that a run comes past, unless it is the end of the function. -/
def Visit.site? : Visit → Option Site
  | .stmt site _ | .condition site _ => some site
  | .fallOff => none

/-- Whether a place is inside the part that starts at another place. -/
def Part.Holds : Part → Site → Site → Prop
  | .body _, position :: outer, inner => ∃ later, position ≤ later ∧ later :: outer <:+ inner
  | .body _, [], _ => False
  | .stmt _, site, inner | .rest _, site, inner => site <:+ inner

theorem Site.eq_of_suffix {site other : Site} (first : site <:+ inner) (second : other <:+ inner)
    (depth : site.length = other.length) : site = other :=
  (suffix_of_suffix_length_le first second depth.le).eq_of_length depth

theorem Part.Holds.of_body {site : Site} (held : (Part.body stmts).Holds site.body inner) :
    0 :: site <:+ inner := by
  obtain ⟨later, _, suffix⟩ := held
  exact (suffix_cons later (0 :: site)).trans suffix

theorem Site.suffix_of_cons {site : Site} (deeper : position :: site <:+ inner) : site <:+ inner :=
  (suffix_cons position site).trans deeper

theorem Site.ne_of_cons {site : Site} (deeper : position :: site <:+ inner) : inner ≠ site := by
  rintro rfl
  have := deeper.length_le
  simp at this

variable {isVerbose : Bool} {site : Site} {env env' : Env} {part : Part} {before after : Draft}
  {log : Log}

/-- The visits of a log. -/
def Log.visits (log : Log) : List Visit :=
  log.map (·.1)

@[simp] theorem Log.visits_cons (entry : Visit × List Ir.Event) (log : Log) :
    Log.visits (entry :: log) = entry.1 :: log.visits :=
  rfl

@[simp] theorem Log.visits_append (log more : Log) :
    Log.visits (log ++ more) = log.visits ++ more.visits := by
  simp [visits]

theorem Lowers.holds (lowered : Lowers isVerbose site env part before env' after log)
    (nested : site ≠ []) {visit : Visit} (member : visit ∈ log.visits) :
    ∃ inner, visit.site? = some inner ∧ part.Holds site inner := by
  induction lowered with
  | plain | retVoid | retValue =>
    obtain rfl := mem_singleton.mp member
    exact ⟨_, rfl, suffix_rfl⟩
  | branch _ ih => exact ih nested member
  | loop _ _ _ _ _ ih | ifThen _ _ _ ih =>
    rcases mem_cons.mp member with rfl | inside
    · exact ⟨_, rfl, suffix_rfl⟩
    · obtain ⟨inner, place, held⟩ := ih (cons_ne_nil _ _) inside
      exact ⟨inner, place, Site.suffix_of_cons held.of_body⟩
  | nil | dead | none => cases member
  | @cons site _ _ _ _ _ _ _ _ _ _ _ _ ih othersIh =>
    obtain ⟨position, outer, rfl⟩ := exists_cons_of_ne_nil nested
    rw [Log.visits_append] at member
    rcases mem_append.mp member with inside | later
    · obtain ⟨inner, place, held⟩ := ih nested inside
      exact ⟨inner, place, position, le_rfl, held⟩
    · obtain ⟨inner, place, position', after, held⟩ := othersIh (cons_ne_nil _ _) later
      exact ⟨inner, place, position', by omega, held⟩
  | ifElse _ _ _ _ _ ih restIh =>
    rw [Log.visits_cons, Log.visits_append] at member
    rcases mem_cons.mp member with rfl | member
    · exact ⟨_, rfl, suffix_rfl⟩
    rcases mem_append.mp member with inside | later
    · obtain ⟨inner, place, held⟩ := ih (cons_ne_nil _ _) inside
      exact ⟨inner, place, Site.suffix_of_cons held.of_body⟩
    · obtain ⟨inner, place, held⟩ := restIh (cons_ne_nil _ _) later
      exact ⟨inner, place, Site.suffix_of_cons held⟩
  | otherwise _ ih =>
    obtain ⟨inner, place, held⟩ := ih (cons_ne_nil _ _) member
    exact ⟨inner, place, Site.suffix_of_cons held.of_body⟩

theorem Lowers.condition_notMem
    (lowered : Lowers isVerbose site.body env (.body stmts) before env' after log) :
    Visit.condition site condition ∉ log.visits := by
  intro member
  obtain ⟨inner, place, held⟩ := lowered.holds (cons_ne_nil _ _) member
  exact Site.ne_of_cons held.of_body (Option.some.inj place).symm

/-- No place has two pieces of code. -/
theorem Lowers.nodup (lowered : Lowers isVerbose site env part before env' after log)
    (nested : site ≠ []) : log.visits.Nodup := by
  induction lowered with
  | plain | retVoid | retValue => exact nodup_singleton _
  | branch _ ih => exact ih nested
  | otherwise _ ih => exact ih (cons_ne_nil _ _)
  | loop _ _ _ lowered _ ih | ifThen _ _ lowered ih =>
    exact nodup_cons.mpr ⟨lowered.condition_notMem, ih (cons_ne_nil _ _)⟩
  | nil | dead | none => exact nodup_nil
  | @cons site _ _ _ _ _ _ _ _ _ _ lowered others ih othersIh =>
    obtain ⟨position, outer, rfl⟩ := exists_cons_of_ne_nil nested
    rw [Log.visits_append]
    refine (ih nested).append (othersIh (cons_ne_nil _ _)) fun visit inside later => ?_
    -- The places of later statements differ in the position at the depth of the list.
    obtain ⟨inner, place, held⟩ := lowered.holds nested inside
    obtain ⟨_, samePlace, position', after, held'⟩ := others.holds (cons_ne_nil _ _) later
    cases place.symm.trans samePlace
    have same := (List.cons.inj (Site.eq_of_suffix held held' rfl)).1
    omega
  | ifElse _ _ _ lowered followed ih restIh =>
    rw [Log.visits_cons, Log.visits_append]
    refine nodup_cons.mpr ⟨fun member => ?_, (ih (cons_ne_nil _ _)).append
      (restIh (cons_ne_nil _ _)) fun visit inside later => ?_⟩
    · rcases mem_append.mp member with inside | later
      · exact lowered.condition_notMem inside
      · obtain ⟨inner, place, held⟩ := followed.holds (cons_ne_nil _ _) later
        exact Site.ne_of_cons held (Option.some.inj place).symm
    · obtain ⟨inner, place, held⟩ := lowered.holds (cons_ne_nil _ _) inside
      obtain ⟨_, samePlace, held'⟩ := followed.holds (cons_ne_nil _ _) later
      cases place.symm.trans samePlace
      have same := (List.cons.inj (Site.eq_of_suffix held.of_body held' rfl)).1
      omega

theorem Log.exists_code (once : log.visits.Nodup) :
    ∃ code : Visit → List Ir.Event, ∀ entry ∈ log, code entry.1 = entry.2 := by
  classical
  refine ⟨fun visit => if known : ∃ entry ∈ log, entry.1 = visit then known.choose.2 else [], ?_⟩
  intro entry member
  have known : ∃ other ∈ log, other.1 = entry.1 := ⟨entry, member, rfl⟩
  have same := inj_on_of_nodup_map once known.choose_spec.1 member known.choose_spec.2
  simp only [dif_pos known, same]

section

variable {known : List Visit}
  (inside : ∀ outcomes, ∃ trace result, Runs site.body (.body body) outcomes trace result ∧ trace ⊆ known)

include inside

/-- If the body of a loop runs with any outcomes, so does the loop: each round uses up an
outcome. -/
theorem loop_exists_runs (outcomes : List Bool) :
    ∃ trace result, Runs site (.stmt (.loop pos condition bodyPos body)) outcomes trace result ∧
      trace ⊆ .condition site condition :: known := by
  induction size : outcomes.length using Nat.strong_induction_on generalizing outcomes with
  | _ size' ih =>
    match outcomes with
    | [] => exact ⟨_, _, .loopStarves, by simp⟩
    | false :: outcomes => exact ⟨_, _, .loopLeaves, by simp⟩
    | true :: outcomes =>
      obtain ⟨trace, result, ran, passed⟩ := inside outcomes
      cases result with
      | stops stop => exact ⟨_, _, .loopStops ran, cons_subset_cons _ passed⟩
      | falls left =>
        have shorter := ran.length_le
        simp only [length_cons] at size
        obtain ⟨more, result, again, morePassed⟩ := ih left.length (by omega) left rfl
        refine ⟨_, _, .loopRepeats ran again, ?_⟩
        simp only [cons_subset, append_subset, mem_cons, true_or, true_and]
        exact ⟨subset_cons_of_subset _ passed, morePassed⟩

theorem elseIf_exists_runs {rest : Else} {more : List Visit} (other : ∀ outcomes, ∃ trace result,
      Runs site.rest (.rest rest) outcomes trace result ∧ trace ⊆ more) (outcomes : List Bool) :
    ∃ trace result,
      Runs site (.rest (.elseIf pos condition bodyPos body rest)) outcomes trace result ∧
        trace ⊆ .condition site condition :: (known ++ more) := by
  match outcomes with
  | [] => exact ⟨_, _, .elseIfStarves, by simp⟩
  | true :: outcomes =>
    obtain ⟨trace, result, ran, passed⟩ := inside outcomes
    exact ⟨_, _, .elseIfHolds ran,
      cons_subset_cons _ (subset_append_of_subset_left _ passed)⟩
  | false :: outcomes =>
    obtain ⟨trace, result, ran, passed⟩ := other outcomes
    exact ⟨_, _, .elseIfFails ran,
      cons_subset_cons _ (subset_append_of_subset_right _ passed)⟩

end

/-- With any outcomes, a lowered part runs, past places that have code. -/
theorem Lowers.exists_runs (lowered : Lowers isVerbose site env part before env' after log)
    {waiting : List BlockRef} (shape : before.Shape waiting) (going : before.isEnded = false)
    (outcomes : List Bool) :
    ∃ trace result, Runs site part outcomes trace result ∧ trace ⊆ log.visits := by
  induction lowered generalizing waiting outcomes with
  | plain isPlain => exact ⟨_, _, .plain isPlain, List.Subset.refl _⟩
  | retVoid | retValue => exact ⟨_, _, .ret, List.Subset.refl _⟩
  | branch _ ih =>
    obtain ⟨trace, result, ran, known⟩ := ih shape going outcomes
    exact ⟨trace, result, .branch ran, known⟩
  | loop _ evaluated _ _ _ ih =>
    have atTest := shape.toTest.condition evaluated
    have inside := ih (atTest.toInside _) (atTest.isEnded_toInside _)
    exact loop_exists_runs inside outcomes
  | nil => exact ⟨_, _, .nil, List.Subset.refl _⟩
  | dead isEnded => simp [isEnded] at going
  | @cons _ _ stmt _ _ _ between _ _ _ _ lowered _ ih othersIh =>
    obtain ⟨trace, result, ran, known⟩ := ih shape going outcomes
    rw [Log.visits_append]
    cases result with
    | stops stop => exact ⟨trace, _, .consStops ran, subset_append_of_subset_left _ known⟩
    | falls left =>
      -- A statement that leads on is no return, so the next one is lowered as well.
      have isOpen : between.isEnded = false := by
        rw [lowered.isEnded_eq shape going, ran.isEnding_eq_false]
      obtain ⟨more, result, others, moreKnown⟩ := othersIh (lowered.shape shape) isOpen left
      refine ⟨_, result, .cons ran others, append_subset.mpr ⟨?_, ?_⟩⟩
      · exact subset_append_of_subset_left _ known
      · exact subset_append_of_subset_right _ moreKnown
  | none => exact ⟨_, _, .none, List.Subset.refl _⟩
  | @ifThen site _ _ _ _ _ _ _ _ _ _ evaluated _ _ ih =>
    have atTest := shape.condition evaluated
    have inside := ih (atTest.fork_false _) (atTest.isEnded_fork ..)
    have other (outcomes : List Bool) : ∃ trace result,
        Runs site.rest (.rest .none) outcomes trace result ∧ trace ⊆ [] :=
      ⟨_, _, .none, nil_subset _⟩
    simpa using elseIf_exists_runs inside other outcomes
  | ifElse _ evaluated _ lowered _ ih restIh =>
    have atTest := shape.condition evaluated
    have atEnd := lowered.shape (atTest.fork_true _)
    have inside := ih (atTest.fork_true _) (atTest.isEnded_fork ..)
    have other := restIh (atEnd.leave_goTo _) (atEnd.isEnded_leave_goTo _)
    simpa using elseIf_exists_runs inside other outcomes
  | otherwise _ ih =>
    obtain ⟨trace, result, ran, known⟩ := ih shape going outcomes
    exact ⟨trace, result, .otherwise ran, known⟩

end LeftHand
