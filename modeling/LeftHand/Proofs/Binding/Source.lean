import LeftHand.Proofs.Flow.Places

/-! What a name stands for, read off the program alone. -/

namespace LeftHand

open List

/-- Whether what stands at a place comes behind a statement in the list of that statement, or is
inside something that does. -/
def Site.Precedes (site place : Site) : Prop :=
  ∃ position later outer, site = position :: outer ∧ later :: outer <:+ place ∧ position < later

/-- What brings a name into a function. -/
inductive Binder where
  | param (index : Nat)
  | declared (site : Site)
deriving DecidableEq, Repr

/-- Whether what a binder brings is in scope at a place. -/
def Binder.Precedes : Binder → Site → Prop
  | .param _, _ => True
  | .declared site, place => site.Precedes place

mutual

/-- The live places of a statement: its conditions, and the statements that hold no others. -/
def Stmt.visits (site : Site) : Stmt → List Visit
  | .branch _ condition _ body rest =>
    .condition site condition :: (bodyVisits site.body body ++ rest.visits site.rest)
  | .loop _ condition _ body => .condition site condition :: bodyVisits site.body body
  | stmt => [.stmt site stmt]

/-- The live places of a list of statements. Nothing is live behind a return. -/
def bodyVisits (site : Site) : List Stmt → List Visit
  | [] => []
  | stmt :: stmts => stmt.visits site ++ if stmt.isRet then [] else bodyVisits site.next stmts

/-- The live places of an else part. -/
def Else.visits (site : Site) : Else → List Visit
  | .none => []
  | .elseIf _ condition _ body rest =>
    .condition site condition :: (bodyVisits site.body body ++ rest.visits site.rest)
  | .otherwise _ body => bodyVisits site.body body

end

/-- The live places of a part. -/
def Part.visits (site : Site) : Part → List Visit
  | .stmt single => single.visits site
  | .body stmts => bodyVisits site stmts
  | .rest last => last.visits site

/-- The live places of a function, with the end of its statements if that can be reached. -/
def Function.visits (function : Function) : List Visit :=
  bodyVisits [0] function.body.statements ++
    if function.body.statements.any Stmt.isRet then [] else [.fallOff]

/-- What brings a name into a function: its parameters, and its live declarations. -/
inductive Function.Declares (function : Function) : Binder → String → Ty → Prop where
  | param {index param} (located : function.params[index]? = some param) :
      function.Declares (.param index) param.ident.text param.type
  | declared {site pos type ident} (live : .stmt site (.declare pos type ident) ∈ function.visits) :
      function.Declares (.declared site) ident.text type

section Precedes

variable {site other place outer : Site} {position later : Nat}

/-- A declaration is in scope only inside the list in which it stands. -/
theorem Site.Precedes.tail_suffix (precedes : site.Precedes place) : site.tail <:+ place := by
  obtain ⟨_, later, outer, rfl, inside, _⟩ := precedes
  exact Site.suffix_of_cons inside

theorem Site.not_precedes_self : ¬ site.Precedes site := by
  rintro ⟨position, later, outer, rfl, inside, before⟩
  have same := (List.cons.inj (Site.eq_of_suffix inside suffix_rfl rfl)).1
  omega

theorem Site.not_precedes_of_deeper (deeper : position :: place <:+ site) : ¬ site.Precedes place := by
  rintro ⟨_, _, outer, rfl, inside, _⟩
  have below := deeper.length_le
  have above := inside.length_le
  simp only [length_cons] at below above
  omega

theorem Site.not_precedes_of_later (here : position :: outer <:+ place)
    (behind : later :: outer <:+ site) (after : position < later) : ¬ site.Precedes place := by
  rintro ⟨first, second, shared, rfl, inside, before⟩
  rcases suffix_cons_iff.mp behind with same | deeper
  · -- The list is the same, and so is the position in it.
    obtain ⟨rfl, rfl⟩ := List.cons.inj same
    obtain ⟨rfl, _⟩ := List.cons.inj (Site.eq_of_suffix inside here rfl)
    omega
  · have same := Site.eq_of_suffix (deeper.trans (Site.suffix_of_cons inside)) here rfl
    exact absurd (List.cons.inj same).1 (by omega)

theorem Site.not_precedes_of_inside {marker : Nat} (here : position :: outer <:+ place)
    (inside : marker :: later :: outer <:+ site) (other : later ≠ position) :
    ¬ site.Precedes place := by
  intro precedes
  obtain ⟨_, _, shared, rfl, _, _⟩ := id precedes
  have within : later :: outer <:+ shared := by
    rcases suffix_cons_iff.mp inside with same | deeper
    · exact (List.cons.inj same).2 ▸ suffix_rfl
    · exact Site.suffix_of_cons deeper
  have same := Site.eq_of_suffix (within.trans precedes.tail_suffix) here rfl
  exact other (List.cons.inj same).1

/-- What comes before one place comes one before the other. -/
theorem Site.Precedes.total (first : site.Precedes place) (second : other.Precedes place) :
    site = other ∨ site.Precedes other ∨ other.Precedes site := by
  obtain ⟨position, later, outer, rfl, inside, before⟩ := first
  obtain ⟨position', later', outer', rfl, inside', before'⟩ := second
  rcases Nat.lt_trichotomy outer.length outer'.length with shorter | same | longer
  · -- The shorter way leads to a list that holds the other one.
    have holds : later :: outer <:+ outer' :=
      suffix_of_suffix_length_le inside (Site.suffix_of_cons inside') shorter
    exact .inr (.inl ⟨_, later, outer, rfl, holds.trans (suffix_cons ..), before⟩)
  · obtain ⟨rfl, rfl⟩ := List.cons.inj (Site.eq_of_suffix inside inside' (by simp [same]))
    rcases Nat.lt_trichotomy position position' with less | rfl | greater
    · exact .inr (.inl ⟨_, _, _, rfl, suffix_rfl, less⟩)
    · exact .inl rfl
    · exact .inr (.inr ⟨_, _, _, rfl, suffix_rfl, greater⟩)
  · have holds : later' :: outer' <:+ outer :=
      suffix_of_suffix_length_le inside' (Site.suffix_of_cons inside) longer
    exact .inr (.inr ⟨_, later', outer', rfl, holds.trans (suffix_cons ..), before'⟩)

end Precedes

section Visits

variable {isVerbose : Bool} {site : Site} {env env' : Env} {part : Part} {before after : Draft}
  {log : Log}

theorem Stmt.visits_of_isPlain {stmt : Stmt} (isPlain : stmt.isPlain = true) :
    stmt.visits site = [.stmt site stmt] := by
  cases stmt <;> first | rfl | cases isPlain

/-- The places with code are the live places, in order. -/
theorem Lowers.visits_eq (lowered : Lowers isVerbose site env part before env' after log)
    {waiting : List BlockRef} (shape : before.Shape waiting) (going : before.isEnded = false) :
    log.visits = part.visits site := by
  induction lowered generalizing waiting with
  | plain isPlain => exact (Stmt.visits_of_isPlain isPlain).symm
  | retVoid | retValue | nil | none => rfl
  | branch _ ih => exact ih shape going
  | loop _ evaluated _ _ _ ih =>
    have atTest := shape.toTest.condition evaluated
    rw [Log.visits_cons, ih (atTest.toInside _) (atTest.isEnded_toInside _)]
    rfl
  | dead isEnded => simp [isEnded] at going
  | @cons _ _ stmt stmts _ _ between _ _ _ _ first others ih othersIh =>
    rw [Log.visits_append, ih shape going, Part.visits, Part.visits, bodyVisits]
    have ended : between.isEnded = stmt.isRet := first.isEnded_eq shape going
    cases isRet : stmt.isRet with
    | true => rw [(others.eq_of_isEnded (ended.trans isRet)).2, if_pos rfl]; rfl
    | false =>
      rw [othersIh (first.shape shape) (ended.trans isRet), if_neg (by decide)]
      rfl
  | ifThen evaluated _ _ ih =>
    have atTest := shape.condition evaluated
    rw [Log.visits_cons, ih (atTest.fork_false _) (atTest.isEnded_fork ..)]
    simp [Part.visits, Else.visits]
  | ifElse _ evaluated _ lowered _ ih restIh =>
    have atTest := shape.condition evaluated
    have atEnd := lowered.shape (atTest.fork_true _)
    rw [Log.visits_cons, Log.visits_append,
      ih (atTest.fork_true _) (atTest.isEnded_fork ..),
      restIh (atEnd.leave_goTo _) (atEnd.isEnded_leave_goTo _)]
    rfl
  | otherwise _ ih => exact ih shape going

end Visits

end LeftHand
