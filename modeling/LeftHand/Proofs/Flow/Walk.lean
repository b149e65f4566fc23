import LeftHand.Ir.Code
import LeftHand.Proofs.Flow.Source

/-!
Walks through the blocks of a function, with the outcomes of its conditions given from outside.
-/

namespace LeftHand.Ir

/-- What happens on a walk through the code. -/
inductive Event where
  | instr (instr : Instr)
  /-- The block ends where a condition decides. -/
  | test (condition : Value)
  | ret (value : Option Value)

/-- The block of a label. -/
def Function.block? (function : Function) (label : String) : Option Block :=
  function.blocks.find? (·.label == label)

/-- The walks from some place in a block: through its last instructions, its end, and on. -/
inductive Walks (function : Function) :
    List Instr → Exit → List Bool → List Event → Stop → Prop where
  | instr {instr code exit outcomes events stop}
      (onward : Walks function code exit outcomes events stop) :
      Walks function (instr :: code) exit outcomes (.instr instr :: events) stop
  | ret {value outcomes} : Walks function [] (.ret value) outcomes [.ret (some value)] .returns
  | retVoid {outcomes} : Walks function [] .retVoid outcomes [.ret none] .returns
  | jump {label block exit outcomes events stop} (found : function.block? label = some block)
      (ended : block.exit = some exit)
      (onward : Walks function block.code exit outcomes events stop) :
      Walks function [] (.jump label) outcomes events stop
  | branch {condition whenTrue whenFalse outcome block exit outcomes events stop}
      (found : function.block? (if outcome then whenTrue else whenFalse) = some block)
      (ended : block.exit = some exit)
      (onward : Walks function block.code exit outcomes events stop) :
      Walks function [] (.branch condition whenTrue whenFalse) (outcome :: outcomes)
        (.test condition :: events) stop
  | starves {condition whenTrue whenFalse} :
      Walks function [] (.branch condition whenTrue whenFalse) [] [.test condition] .starves

/-- The walks through a function from its entry, which is its first block. -/
def Function.Walks (function : Function) (outcomes : List Bool) (events : List Event)
    (stop : Stop) : Prop :=
  ∃ block exit, function.blocks.head? = some block ∧ block.exit = some exit ∧
    Ir.Walks function block.code exit outcomes events stop

variable {function : Function} {outcomes : List Bool} {events others : List Event}
  {stop other : Stop}

/-- The outcomes decide a walk. -/
theorem Walks.unique {code : List Instr} {exit : Exit}
    (walked : Walks function code exit outcomes events stop)
    (again : Walks function code exit outcomes others other) : events = others ∧ stop = other := by
  induction walked generalizing others other with
  | instr _ ih =>
    cases again with
    | instr onward =>
      obtain ⟨rfl, rfl⟩ := ih onward
      exact ⟨rfl, rfl⟩
  | ret | retVoid | starves =>
    cases again
    exact ⟨rfl, rfl⟩
  | jump found ended _ ih =>
    cases again with
    | jump sameFound sameEnded onward =>
      cases found.symm.trans sameFound
      cases ended.symm.trans sameEnded
      exact ih onward
  | branch found ended _ ih =>
    cases again with
    | branch sameFound sameEnded onward =>
      cases found.symm.trans sameFound
      cases ended.symm.trans sameEnded
      obtain ⟨rfl, rfl⟩ := ih onward
      exact ⟨rfl, rfl⟩

theorem Function.Walks.unique (walked : function.Walks outcomes events stop)
    (again : function.Walks outcomes others other) : events = others ∧ stop = other := by
  obtain ⟨block, exit, first, ended, walked⟩ := walked
  obtain ⟨_, _, sameFirst, sameEnded, again⟩ := again
  cases first.symm.trans sameFirst
  cases ended.symm.trans sameEnded
  exact Ir.Walks.unique walked again

end LeftHand.Ir
