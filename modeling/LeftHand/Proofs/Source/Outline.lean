import LeftHand.Proofs.Ast.Outline
import LeftHand.Proofs.Source.Nodes

/-! The outline of a program of a text: no other data of the shape of programs have it. -/

namespace LeftHand

open List

/-- An item of the demanded shape: a word has none, and a list of items is shaped if they are. -/
def Item.IsShaped : Item → Prop
  | .word _ => True
  | .list items => ∀ datum ∈ toData items, datum.Shaped
  | item => item.toDatum.Shaped

variable {items : List Item} {item : Item}

theorem Pointed.isShaped {base written : Ty} (pointed : Pointed base items written)
    (shaped : base.toDatum.Shaped) : written.toDatum.Shaped := by
  induction pointed with
  | nil => exact shaped
  | cons _ _ ih => exact ih (.node (.plain rfl) (by simpa using shaped))

theorem Chained.isShaped {level : Rule} {first value : Expr} (chained : Chained level first items value)
    (given : ∀ part ∈ items, part.IsShaped) : value.toDatum.Shaped := by
  induction chained with
  | start => exact given _ mem_cons_self
  | @more _ lhs _ op rhs _ _ ih =>
    rw [forall_mem_append] at given
    have operand : rhs.toDatum.Shaped := given.2 (.expr rhs) (by simp)
    rw [Expr.toDatum]
    exact .node (.plain (by cases op <;> rfl)) (by simpa using ⟨ih given.1, operand⟩)

/-- What the items of a phrase make has the demanded shape if they have. -/
theorem Rule.Forms.isShaped {rule : Rule} (forms : rule.Forms items item)
    (given : ∀ part ∈ items, part.IsShaped) : item.IsShaped := by
  cases forms with
  | program first functions =>
    refine .node (.listed [] _ [] rfl rfl) ?_
    simpa [Item.IsShaped, Item.toDatum] using given
  | function mark result ident params body =>
    refine .node (.listed [_, _] _ [_] rfl rfl) ?_
    simp_all [Item.IsShaped, Item.toDatum, Item.toData_eq_map, or_imp, forall_and]
  | params params => simpa [Item.IsShaped, Item.toDatum, Item.toData_eq_map] using given
  | block mark last actions =>
    refine .node (.listed [] _ [] rfl rfl) ?_
    simp_all [Item.IsShaped, Item.toDatum, Stmt.toData_eq_map, or_imp]
  | exec ident values =>
    refine .node (.listed [_] _ [] rfl rfl) ?_
    simp_all [Item.IsShaped, Item.toDatum, Expr.toData_eq_map]
  | branch condition body parts otherwise =>
    obtain ⟨guarded, final⟩ := Else.data_ofParts otherwise parts
    simp only [Item.IsShaped, Item.toDatum, Stmt.toDatum, guarded, final]
    refine .node (.listed [_, _] _ [_] rfl rfl) ?_
    cases otherwise <;>
      simp_all [Item.IsShaped, Item.toDatum, Block.toDatum, Datum.Shaped.null, or_imp, forall_and]
  | chain _ chained => exact chained.isShaped given
  | type pointed => exact pointed.isShaped (given _ mem_cons_self)
  | expr | factor | otherwise => exact given _ mem_cons_self
  | neg value =>
    have zero : (Expr.decimal value.pos 0).toDatum.Shaped := .node (.plain rfl) (by simpa using .int)
    exact .node (.plain rfl) (by simpa using ⟨zero, given _ mem_cons_self⟩)
  | _ =>
    refine .node (.plain rfl) ?_
    simp_all [Item.IsShaped, Item.toDatum, Target.toDatum, Expr.toDatum, Block.toDatum, Datum.Shaped.null]

theorem Terminal.isShaped_construct {kind : Terminal} {word : Word}
    (made : kind.construct word = .ok item) : item.IsShaped := by
  unfold construct at made
  split at made
  · obtain ⟨value, _, made⟩ := bind_eq_ok.mp made
    obtain ⟨_, _, made⟩ := bind_eq_ok.mp made
    cases made
    exact .node (.plain rfl) (by simpa using .int)
  · cases made
    exact .node (.plain rfl) (by simpa using .text)
  · cases made
    exact .node (.plain rfl) (by simpa using .bool)
  · cases made
    exact .node (.plain rfl) (by simpa using .text)
  · cases made
    trivial

/-- Outlines tell apart all data of the shape that programs of texts have: no name, string, number,
truth value or place can be changed, and no part added or left out, without a change of the
outline. -/
theorem outline_eq_iff :
    (∀ text program, readProgram text = .ok program → program.toDatum.Shaped) ∧
      ∀ one other : Datum, one.Shaped → other.Shaped → (one.outline = other.outline ↔ one = other) := by
  refine ⟨fun text program read => ?_, fun one other shaped also => ⟨shaped.eq_of_outline_eq also, ?_⟩⟩
  · exact readProgram_holds (fun _ _ _ => Terminal.isShaped_construct) (fun _ _ _ forms => forms.isShaped) read
  · rintro rfl
    rfl

/-- Two programs that differ only in the column of a name have different outlines. -/
theorem outline_eq_iff_columns :
    let program (column : Int) : Datum := .node .program ⟨1, 1⟩ [.list [.node .function ⟨1, 1⟩
      [.node .voidType ⟨1, 5⟩ [], .node .identifier ⟨1, column⟩ [.text "it's"], .list [],
        .node .block ⟨1, 20⟩ [.list []]]]]
    (program 10).Shaped ∧ (program 11).Shaped ∧ (program 10).outline ≠ (program 11).outline := by
  intro program
  have shaped (column : Int) : (program column).Shaped := by
    have type : (Datum.node .voidType ⟨1, 5⟩ []).Shaped := .node (.plain rfl) (by simp)
    have name : (Datum.node .identifier ⟨1, column⟩ [.text "it's"]).Shaped :=
      .node (.plain rfl) (by simpa using .text)
    have body : (Datum.node .block ⟨1, 20⟩ [.list []]).Shaped := .node (.listed [] [] [] rfl rfl) (by simp)
    refine .node (.listed [] [_] [] rfl rfl) (forall_mem_singleton.mpr ?_)
    exact .node (.listed [_, _] [] [_] rfl rfl) (by simpa using ⟨type, name, body⟩)
  refine ⟨shaped 10, shaped 11, fun same => ?_⟩
  have equal := (outline_eq_iff.2 _ _ (shaped 10) (shaped 11)).mp same
  simp [program] at equal

end LeftHand
