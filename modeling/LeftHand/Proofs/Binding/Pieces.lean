import LeftHand.Proofs.Binding.Scope
import LeftHand.Proofs.Ir.Assembly

/-!
Pieces of code: what is written at the places of a part stands in the blocks of the function, piece
by piece. No two pieces share a register, and nothing is written but these pieces.
-/

namespace LeftHand

open Ir List

/-- Pieces of code without a register in common. -/
def Apart (entry other : Visit × List Event) : Prop :=
  ∀ instr ∈ instrsOf entry.2, ∀ later ∈ instrsOf other.2, instr.name ≠ later.name

instance : Std.Symm Apart where
  symm _ _ apart later writtenLater instr written := (apart instr written later writtenLater).symm

/-- Code that is appended to a block is all that is new. -/
theorem Appends.perm_instrs {before after : Draft} {code : List Instr}
    (appended : Appends before code after)
    (inside : before.current < before.function.blocks.length) (going : before.isEnded = false) :
    after.function.instrs.Perm (before.function.instrs ++ code) := by
  -- The other blocks stand in front of the one that is written and behind it, and stay.
  have located := getElem?_eq_getElem inside
  obtain ⟨front, back, whole, changed⟩ := Ir.Function.exists_split located
  rw [Ir.Function.instrs, Ir.Function.instrs, appended.blocks, Ir.modify_eq_set located, changed,
    Ir.Block.append_of_open (Draft.exit_eq_none going located)]
  generalize before.function.blocks[before.current] = block at whole
  rw [whole]
  simp only [flatMap_append, flatMap_cons, append_assoc]
  exact (perm_append_comm.append_left _).append_left _

namespace Spans

variable {before after : Draft} {log : Log} {entry : Visit × List Event}
  (spans : Spans before log after)

include spans

/-- All that is written is in the pieces. -/
theorem perm_instrs :
    after.function.instrs.Perm
      (before.function.instrs ++ log.flatMap fun entry => instrsOf entry.2) := by
  induction spans with
  | nil moved => simp [moved.instrs]
  | @cons before start stop after entry log _ moved shape going appended _ ih =>
    have first := appended.perm_instrs shape.inside going
    rw [moved.instrs] at first
    rw [flatMap_cons, ← append_assoc]
    exact ih.trans (first.append_right _)

theorem infix_code (member : entry ∈ log) :
    ∃ block ∈ after.function.blocks, instrsOf entry.2 <:+: block.code := by
  induction spans with
  | nil => cases member
  | @cons _ start stop _ written _ _ _ shape going appended others ih =>
    rcases mem_cons.mp member with rfl | later
    · -- The block goes on behind the piece, and nothing in it changes.
      have inside := shape.inside
      have before := getElem?_eq_getElem inside
      have located : stop.function.blocks[start.current]? =
          some (.append (instrsOf entry.2) start.function.blocks[start.current]) := by
        simp [appended.blocks, before]
      rw [Ir.Block.append_of_open (Draft.exit_eq_none going before)] at located
      obtain ⟨block, found, goesOn⟩ := others.grows.blocks _ _ located
      refine ⟨block, mem_of_getElem? found, ?_⟩
      exact (suffix_append ..).isInfix.trans goesOn.code.isInfix
    · exact ih later

/-- The registers of the pieces were not in use before. -/
theorem fresh (member : entry ∈ log) {instr : Instr} (written : instr ∈ instrsOf entry.2) :
    instr.name ∉ before.function.scope.used := by
  induction spans with
  | nil => cases member
  | cons moved _ going appended _ ih =>
    intro used
    rcases mem_cons.mp member with rfl | later
    · exact appended.fresh.2 instr written (moved.used used)
    · exact ih later ((appended.grows going).used (moved.used used))

/-- No two pieces have a register in common. -/
theorem pairwise : log.Pairwise Apart := by
  induction spans with
  | nil => exact .nil
  | cons _ _ _ appended others ih =>
    refine .cons (fun other member instr written later writtenLater same => ?_) ih
    -- The registers of the first piece are in use when the others are written.
    refine others.fresh member writtenLater ?_
    rw [appended.used, ← same]
    exact mem_append_left _ (mem_reverse.mpr (mem_map_of_mem written))

/-- Memory is taken by one declaration only. -/
theorem site_eq {site other : Site} {name otherName : String} {type otherType : Ty}
    {address : Value} (takes : log.Takes site name type address)
    (again : log.Takes other otherName otherType address) : site = other := by
  obtain ⟨_, _, lowered, register, taken, _, rfl⟩ := takes.exists_entry
  obtain ⟨_, _, _, _, takenAgain, _, same⟩ := again.exists_entry
  cases same
  -- Different declarations have different pieces, and these have different registers.
  by_contra different
  have apart : Apart _ _ := spans.pairwise.forall taken takenAgain (by simp [different])
  have inside : ⟨register, .alloca lowered⟩ ∈ instrsOf [.instr ⟨register, .alloca lowered⟩] :=
    mem_singleton_self _
  exact apart _ inside _ inside rfl

end Spans

end LeftHand
