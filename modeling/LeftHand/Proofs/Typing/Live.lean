import LeftHand.Proofs.Typing.Rules

/-! Rules for the live statements of a part, and for its conditions. -/

namespace LeftHand

/-- The conditions of a part, apart from those of the statements that it holds. -/
def Part.conditions : Part → List Expr
  | .rest last => last.conditions
  | .stmt _ | .body _ => []

/-- The variables in scope behind a part. -/
def Part.scope (vars : Vars) : Part → Vars
  | .stmt single => single.scope vars
  | .body _ | .rest _ => vars

/-- A part whose live statements keep one rule, and whose conditions keep another. -/
structure Part.Keeps (asks : Vars → Expr → Prop) (rule : Vars → Stmt → Prop) (vars : Vars)
    (part : Part) : Prop where
  live : ∀ inner stmt, Live vars part inner stmt → rule inner stmt
  asked : ∀ condition ∈ part.conditions, asks vars condition

namespace Part.Keeps

variable {asks : Vars → Expr → Prop} {rule : Vars → Stmt → Prop} {vars : Vars}
  {pos bodyPos : Pos} {condition : Expr} {stmt : Stmt} {body stmts : List Stmt} {rest : Else}

theorem single (holdsNone : stmt.isPlain = true ∨ stmt.isRet = true) :
    (Part.stmt stmt).Keeps asks rule vars ↔ rule vars stmt := by
  constructor
  · intro keeps
    exact keeps.live _ _ .self
  · intro kept
    refine ⟨fun inner other live => ?_, by simp [conditions]⟩
    cases live with
    | self => exact kept
    | branch | loop => rcases holdsNone with isPlain | isRet <;> contradiction

theorem elseIf :
    (Part.rest (.elseIf pos condition bodyPos body rest)).Keeps asks rule vars ↔
      asks vars condition ∧ (Part.body body).Keeps asks rule vars ∧
        (Part.rest rest).Keeps asks rule vars := by
  constructor
  · intro keeps
    refine ⟨keeps.asked _ List.mem_cons_self, ⟨fun _ _ live => keeps.live _ _ (.inside live), ?_⟩,
      ⟨fun _ _ live => keeps.live _ _ (.other live), fun asked member => ?_⟩⟩
    · simp [conditions]
    · exact keeps.asked asked (List.mem_cons_of_mem _ member)
  · intro keeps
    obtain ⟨first, bodyKeeps, restKeeps⟩ := keeps
    refine ⟨fun inner other live => ?_, fun asked member => ?_⟩
    · cases live with
      | inside live => exact bodyKeeps.live _ _ live
      | other live => exact restKeeps.live _ _ live
    · rcases List.mem_cons.mp member with rfl | later
      · exact first
      · exact restKeeps.asked asked later

/-- A branch keeps the rules if the else-if does that has its parts, as long as the rule for
branches is the one for conditions. -/
theorem branch
    (same : rule vars (.branch pos condition bodyPos body rest) ↔
      ∀ asked ∈ condition :: rest.conditions, asks vars asked) :
    (Part.stmt (.branch pos condition bodyPos body rest)).Keeps asks rule vars ↔
      (Part.rest (.elseIf pos condition bodyPos body rest)).Keeps asks rule vars := by
  constructor
  · intro keeps
    exact ⟨fun _ _ live => keeps.live _ _ (.branch live), same.mp (keeps.live _ _ .self)⟩
  · intro keeps
    refine ⟨fun inner other live => ?_, by simp [conditions]⟩
    cases live with
    | self => exact same.mpr keeps.asked
    | branch live => exact keeps.live _ _ live

theorem loop :
    (Part.stmt (.loop pos condition bodyPos body)).Keeps asks rule vars ↔
      rule vars (.loop pos condition bodyPos body) ∧ (Part.body body).Keeps asks rule vars := by
  constructor
  · intro keeps
    exact ⟨keeps.live _ _ .self, fun _ _ live => keeps.live _ _ (.loop live), by simp [conditions]⟩
  · intro keeps
    refine ⟨fun inner other live => ?_, by simp [conditions]⟩
    cases live with
    | self => exact keeps.1
    | loop live => exact keeps.2.live _ _ live

/-- Behind a return, statements need not keep the rules. -/
theorem cons :
    (Part.body (stmt :: stmts)).Keeps asks rule vars ↔
      (Part.stmt stmt).Keeps asks rule vars ∧
        (stmt.isRet = false → (Part.body stmts).Keeps asks rule (stmt.scope vars)) := by
  constructor
  · intro keeps
    refine ⟨⟨fun _ _ live => keeps.live _ _ (.first live), by simp [conditions]⟩, fun goesOn => ?_⟩
    exact ⟨fun _ _ live => keeps.live _ _ (.later goesOn live), by simp [conditions]⟩
  · intro keeps
    refine ⟨fun inner other live => ?_, by simp [conditions]⟩
    cases live with
    | first live => exact keeps.1.live _ _ live
    | later goesOn live => exact (keeps.2 goesOn).live _ _ live

theorem nil : (Part.body []).Keeps asks rule vars where
  live _ _ live := by cases live
  asked := by simp [conditions]

theorem none : (Part.rest .none).Keeps asks rule vars where
  live _ _ live := by cases live
  asked := by simp [conditions, Else.conditions]

theorem otherwise :
    (Part.rest (.otherwise bodyPos body)).Keeps asks rule vars ↔
      (Part.body body).Keeps asks rule vars := by
  constructor
  · intro keeps
    exact ⟨fun _ _ live => keeps.live _ _ (.otherwise live), by simp [conditions]⟩
  · intro keeps
    refine ⟨fun inner other live => ?_, by simp [conditions, Else.conditions]⟩
    cases live with
    | otherwise live => exact keeps.live _ _ live

end Part.Keeps

end LeftHand
