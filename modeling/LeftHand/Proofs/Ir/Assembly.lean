import LeftHand.Lower.Program
import LeftHand.Proofs.Ir.Dominance
import LeftHand.Proofs.Ir.Scope

/-!
Assembly: a function is put together by small changes. Code goes only into blocks that are open, so
that nothing stands behind the end of a block.
-/

namespace LeftHand.Ir

open List

variable {blocks : List Block} {base : String} {operation : Operation}

theorem modify_eq_set {i : Nat} {block : Block} {change : Block → Block}
    (located : blocks[i]? = some block) : blocks.modify i change = blocks.set i (change block) := by
  simp [modify_eq_set_getElem?, located]

theorem Block.Fits.congr {later : List Block} {known : Known} {i : Nat} {block : Block}
    (fits : block.Fits blocks known i)
    (kept : ∀ (j : Nat) (target : Block), blocks[j]? = some target →
      ∃ again, later[j]? = some again ∧ again.label = target.label) :
    block.Fits later known i where
  code := fits.code
  ends := fits.ends
  leads exit ended label leads := by
    obtain ⟨j, target, located, rfl, inner, subset⟩ := fits.leads exit ended label leads
    obtain ⟨again, found, same⟩ := kept j target located
    exact ⟨j, again, found, same, inner, subset⟩

/-- What is known, with the same known at the start of every block from a position on. -/
def Known.extend (known : Known) (length : Nat) (values : List Value) : Known :=
  fun i => if i < length then known i else values

/-- A function that has been put together with operations and ends of some kinds. -/
structure Function.Assembled (rule : Operation → Prop) (ends : Exit → Prop) (known : Known)
    (function : Function) : Prop where
  certified : function.Certified known
  names : function.names.Nodup
  used : function.names ⊆ function.scope.used
  /-- Nothing stands behind the end of a block. -/
  whole : ∀ block ∈ function.blocks, block.rest = []
  operations : ∀ block ∈ function.blocks, ∀ instr ∈ block.code, rule instr.operation
  exits : ∀ block ∈ function.blocks, ∀ exit ∈ block.exit, ends exit

namespace Function

variable {rule : Operation → Prop} {ends : Exit → Prop} {known : Known} {function later : Function}
  {i : Nat} {block changed : Block}

/-- A block that gets more results, and still fits, keeps the certificate. -/
theorem Certified.set (certified : function.Certified known)
    (arguments : later.arguments = function.arguments)
    (blocks : later.blocks = function.blocks.set i changed)
    (located : function.blocks[i]? = some block) (label : changed.label = block.label)
    (more : block.results ⊆ changed.results) (fits : changed.Fits function.blocks known i) :
    later.Certified known := by
  have within : i < function.blocks.length := (List.getElem?_eq_some_iff.mp located).1
  -- Every block is where it was, with its label and no result less.
  have kept (j : Nat) (target : Block) (found : function.blocks[j]? = some target) :
      ∃ again, later.blocks[j]? = some again ∧ again.label = target.label ∧
        target.results ⊆ again.results := by
    rw [blocks, getElem?_set]
    -- At its position the changed block stands, and elsewhere what stood there.
    by_cases here : i = j
    · subst here
      cases located.symm.trans found
      exact ⟨changed, by simp [within], label, more⟩
    · exact ⟨target, by simp [here, found], rfl, List.Subset.refl _⟩
  have labels (j : Nat) (target : Block) (found : function.blocks[j]? = some target) :=
    (kept j target found).imp fun _ again => And.intro again.1 again.2.1
  refine ⟨certified.entry.trans arguments.symm, fun j other found => ?_, fun j other found => ?_⟩
  · rw [blocks, getElem?_set] at found
    by_cases here : i = j
    · subst here
      simp only [within, if_true, Option.some.injEq] at found
      exact (found ▸ fits).congr labels
    · rw [if_neg here] at found
      exact (certified.fits j other found).congr labels
  · -- The block that was there before had its origins, and no result has been lost since.
    intro value member
    obtain ⟨earlier, before⟩ : ∃ earlier, function.blocks[j]? = some earlier := by
      have := (List.getElem?_eq_some_iff.mp found).1
      rw [blocks, length_set] at this
      exact ⟨_, getElem?_eq_getElem this⟩
    rw [arguments]
    rcases certified.origins j earlier before value member with isArgument | origin
    · exact .inl isArgument
    · obtain ⟨k, definer, apart, definerLocated, defines⟩ := origin
      obtain ⟨again, located, _, subset⟩ := kept k definer definerLocated
      exact .inr ⟨k, again, apart, located, subset defines⟩

/-- A block that is added may take for known what is known at some place of another block. -/
theorem Certified.add (certified : function.Certified known)
    (arguments : later.arguments = function.arguments) {label : String}
    (blocks : later.blocks = function.blocks ++ [{ label := label }])
    (located : function.blocks[i]? = some block) :
    later.Certified (known.extend function.blocks.length (known i ++ block.results)) := by
  have within : i < function.blocks.length := (List.getElem?_eq_some_iff.mp located).1
  -- Earlier blocks are where they were, and the same is known at their starts.
  have same {j : Nat} {other : Block} (found : function.blocks[j]? = some other) :
      later.blocks[j]? = some other ∧
        known.extend function.blocks.length (known i ++ block.results) j = known j := by
    have below : j < function.blocks.length := (List.getElem?_eq_some_iff.mp found).1
    rw [blocks, getElem?_append_left below]
    exact ⟨found, if_pos below⟩
  -- A block is an earlier one, or it is the one that has been added.
  have cases {j : Nat} {other : Block} (found : later.blocks[j]? = some other) :
      function.blocks[j]? = some other ∨ j = function.blocks.length ∧ other = { label := label } := by
    rw [blocks, getElem?_append] at found
    split at found
    · exact .inl found
    · have last : j - function.blocks.length = 0 := by
        have := (List.getElem?_eq_some_iff.mp found).1
        simpa using this
      rw [last] at found
      exact .inr ⟨by omega, (Option.some.inj found).symm⟩
  refine ⟨?_, fun j other found => ?_, fun j other found => ?_⟩
  · rw [Known.extend, if_pos (Nat.zero_lt_of_lt within), arguments, certified.entry]
  · -- An earlier block fits as before, and an empty one fits anywhere.
    rcases cases found with earlier | ⟨_, rfl⟩
    · have fits := certified.fits j other earlier
      refine ⟨?_, ?_, fun exit ended label leads => ?_⟩
      · rw [(same earlier).2]
        exact fits.code
      · rw [(same earlier).2]
        exact fits.ends
      · obtain ⟨k, target, reached, named, inner, subset⟩ := fits.leads exit ended label leads
        obtain ⟨reachedStill, knownThere⟩ := same reached
        refine ⟨k, target, reachedStill, named, inner, ?_⟩
        rwa [knownThere, (same earlier).2]
    · exact ⟨trivial, by simp, by simp⟩
  · intro value member
    rw [arguments]
    -- What is known at the start of an earlier block has its origin in an earlier block.
    have origin {k : Nat} {earlier : Block} (before : function.blocks[k]? = some earlier)
        (member : value ∈ known k)
        (apart : ∀ l other, function.blocks[l]? = some other → l ≠ k → l ≠ j) :
        value ∈ function.arguments ∨
          ∃ l other, l ≠ j ∧ later.blocks[l]? = some other ∧ value ∈ other.results := by
      rcases certified.origins k earlier before value member with isArgument | found
      · exact .inl isArgument
      · obtain ⟨l, definer, differs, definerLocated, defines⟩ := found
        exact .inr ⟨l, definer, apart l definer definerLocated differs, (same definerLocated).1,
          defines⟩
    rcases cases found with earlier | ⟨rfl, _⟩
    · rw [(same earlier).2] at member
      exact origin earlier member fun _ _ _ differs => differs
    · rw [Known.extend, if_neg (Nat.lt_irrefl _)] at member
      -- The new block knows what the other one does, and every earlier block is apart from it.
      have below {l : Nat} {other : Block} (found : function.blocks[l]? = some other) :
          l ≠ function.blocks.length :=
        Nat.ne_of_lt (List.getElem?_eq_some_iff.mp found).1
      rcases mem_append.mp member with atStart | computed
      · exact origin located atStart fun _ _ found _ => below found
      · exact .inr ⟨i, block, below located, (same located).1, computed⟩

theorem exists_split (located : blocks[i]? = some block) :
    ∃ front back, blocks = front ++ block :: back ∧
      ∀ changed, blocks.set i changed = front ++ changed :: back := by
  obtain ⟨within, rfl⟩ := List.getElem?_eq_some_iff.mp located
  refine ⟨blocks.take i, blocks.drop (i + 1), ?_, fun changed => ?_⟩
  · rw [getElem_cons_drop, take_append_drop]
  · rw [set_eq_take_append_cons_drop, if_pos within]

theorem insertIdx_length_append (front rest : List Instr) (instr : Instr) :
    (front ++ rest).insertIdx front.length instr = front ++ instr :: rest := by
  induction front with
  | nil => simp
  | cons first front ih => simp [ih]

namespace Assembled

variable (assembled : function.Assembled rule ends known)

include assembled

theorem names_take {names : List String}
    (added : names.Perm ((function.scope.take base).1 :: function.names)) :
    names.Nodup ∧ names ⊆ (function.scope.take base).2.used := by
  -- The name was not in use, so it is none of the others.
  constructor
  · refine added.symm.nodup (nodup_cons.mpr ⟨fun taken => ?_, assembled.names⟩)
    exact Scope.take_notMem function.scope base (assembled.used taken)
  · rw [Scope.used_take]
    exact fun name member => cons_subset_cons _ assembled.used (added.subset member)

/-- An instruction is put somewhere in front of the end of a block, under a name of its own. -/
theorem put {front rest : List Instr} (located : function.blocks[i]? = some block)
    (split : block.code = front ++ rest) (uses : ∀ value ∈ operation.operands,
      value.UsableIn (known i ++ front.map Instr.result)) (allowed : rule operation)
    (same : blocks = function.blocks.set i
      { block with code := front ++ ⟨(function.scope.take base).1, operation⟩ :: rest }) :
    Assembled rule ends known
      { function with scope := (function.scope.take base).2, blocks := blocks } := by
  have fits := assembled.certified.fits i block located
  -- No result is lost, so all that the block leads to can still be led to.
  have more : block.results ⊆ ({ block with
      code := front ++ ⟨(function.scope.take base).1, operation⟩ :: rest } : Block).results := by
    rw [Block.results, Block.results, split]
    simp only [map_append, map_cons]
    exact append_subset.mpr ⟨subset_append_left _ _,
      subset_append_of_subset_right _ (subset_cons_self _ _)⟩
  -- So all that was known behind the block is known there still.
  have growing : known i ++ block.results ⊆ known i ++ ({ block with
      code := front ++ ⟨(function.scope.take base).1, operation⟩ :: rest } : Block).results :=
    append_subset.mpr ⟨subset_append_left _ _, subset_append_of_subset_right _ more⟩
  -- Wherever the instruction stands, there is one name more.
  have added : (function.params ++ blocks.flatMap Block.names).Perm
      ((function.scope.take base).1 :: function.names) := by
    obtain ⟨before, behind, whole, changed⟩ := exists_split located
    rw [Function.names, same, changed, whole]
    simp only [flatMap_append, flatMap_cons, Block.names, split, map_append,
      map_cons]
    grind
  obtain ⟨names, used⟩ := assembled.names_take added
  refine ⟨assembled.certified.set rfl same located rfl more ⟨?_, ?_, ?_⟩, names, used, ?_, ?_, ?_⟩
  · -- The code behind the instruction may use more than before.
    exact (split ▸ fits.code).insert uses
  · exact fun exit ended value operand => (fits.ends exit ended value operand).mono growing
  · intro exit ended label leads
    obtain ⟨j, target, reached, named, inner, subset⟩ := fits.leads exit ended label leads
    exact ⟨j, target, reached, named, inner, List.Subset.trans subset growing⟩
  · intro other member
    simp only [same] at member
    rcases mem_or_eq_of_mem_set member with earlier | rfl
    · exact assembled.whole other earlier
    · exact assembled.whole block (mem_of_getElem? located)
  · intro other member instr written
    simp only [same] at member
    rcases mem_or_eq_of_mem_set member with earlier | rfl
    · exact assembled.operations other earlier instr written
    · -- The instructions of the block are the earlier ones and the new one.
      have inFront := assembled.operations block (mem_of_getElem? located) instr
      rw [split] at inFront
      simp only [mem_append, mem_cons] at written
      rcases written with before | rfl | behind
      · exact inFront (mem_append_left _ before)
      · exact allowed
      · exact inFront (mem_append_right _ behind)
  · intro other member exit ended
    simp only [same] at member
    rcases mem_or_eq_of_mem_set member with earlier | rfl
    · exact assembled.exits other earlier exit ended
    · exact assembled.exits block (mem_of_getElem? located) exit ended

theorem append (located : function.blocks[i]? = some block) (isOpen : block.exit = none)
    (uses : ∀ value ∈ operation.operands, value.UsableIn (known i ++ block.results))
    (allowed : rule operation) :
    Assembled rule ends known
      { function with
        scope := (function.scope.take base).2
        blocks := function.blocks.modify i (.push ⟨(function.scope.take base).1, operation⟩) } := by
  rw [modify_eq_set located, Block.push_of_open isOpen]
  -- All code of the block stands in front of the instruction.
  exact assembled.put located (List.append_nil _).symm uses allowed rfl

theorem insertAtEntry {front : List Instr}
    (split : ∀ block ∈ function.blocks[0]?, ∃ rest, block.code = front ++ rest)
    (uses : ∀ value ∈ operation.operands,
      value.UsableIn (function.arguments ++ front.map Instr.result)) (allowed : rule operation) :
    Assembled rule ends known (function.insertAtEntry front.length base operation).2 := by
  rw [Function.insertAtEntry]
  cases located : function.blocks[0]? with
  | none =>
    -- Without an entry only the name is taken.
    have empty : function.blocks = [] := by simpa using located
    simp only [empty, modify_nil]
    refine ⟨⟨assembled.certified.entry, by simp, by simp⟩, ?_, ?_, by simp, by simp, by simp⟩
    · simpa [Function.names, empty] using assembled.names
    · have used := assembled.used
      rw [Function.names, empty] at used
      rw [Function.names, Scope.used_take]
      exact subset_cons_of_subset _ used
  | some block =>
    obtain ⟨rest, split⟩ := split block located
    refine assembled.put located split ?_ allowed ?_
    · -- Only the parameters are known at the start of the entry.
      rw [assembled.certified.entry]
      exact uses
    · rw [modify_eq_set located, split, insertIdx_length_append]

theorem close {exit : Exit} (located : function.blocks[i]? = some block)
    (uses : ∀ value ∈ exit.operands, value.UsableIn (known i ++ block.results))
    (leads : ∀ label ∈ exit.targets, ∃ j target, function.blocks[j]? = some target ∧
      target.label = label ∧ j ≠ 0 ∧ known j ⊆ known i ++ block.results)
    (allowed : ends exit) :
    Assembled rule ends known
      { function with
        scope := (function.scope.take "").2
        blocks := function.blocks.modify i fun block => { block with exit := some exit } } := by
  rw [modify_eq_set located]
  have fits := assembled.certified.fits i block located
  -- The names are the same as before, and the one that the end takes is not among them.
  have names : (function.blocks.set i { block with exit := some exit }).flatMap Block.names =
      function.blocks.flatMap Block.names := by
    obtain ⟨before, behind, whole, changed⟩ := exists_split located
    rw [changed, whole]
    simp [Block.names]
  refine ⟨assembled.certified.set rfl rfl located rfl (List.Subset.refl _)
    ⟨fits.code, ?_, ?_⟩, ?_, ?_, ?_, ?_, ?_⟩
  · -- The end is this one, for which all of it has been asked.
    intro last ended
    obtain rfl := Option.some.inj ended
    exact uses
  · intro last ended
    obtain rfl := Option.some.inj ended
    exact leads
  · rw [Function.names, names]
    exact assembled.names
  · rw [Function.names, names, Scope.used_take]
    exact subset_cons_of_subset _ assembled.used
  · intro other member
    rcases mem_or_eq_of_mem_set member with earlier | rfl
    · exact assembled.whole other earlier
    · exact assembled.whole block (mem_of_getElem? located)
  · intro other member instr written
    rcases mem_or_eq_of_mem_set member with earlier | rfl
    · exact assembled.operations other earlier instr written
    · exact assembled.operations block (mem_of_getElem? located) instr written
  · intro other member last ended
    rcases mem_or_eq_of_mem_set member with earlier | rfl
    · exact assembled.exits other earlier last ended
    · obtain rfl := Option.some.inj ended
      exact allowed

theorem names_add (base : String) :
    let blocks := function.blocks ++ [{ label := (function.scope.take base).1 : Block }]
    (function.params ++ blocks.flatMap Block.names).Nodup ∧
      function.params ++ blocks.flatMap Block.names ⊆ (function.scope.take base).2.used := by
  refine assembled.names_take ?_
  rw [flatMap_append, ← append_assoc]
  exact perm_append_singleton ..

/-- An empty block is added; what is known in another block is known at its start. -/
theorem add (located : function.blocks[i]? = some block) :
    Assembled rule ends (known.extend function.blocks.length (known i ++ block.results))
      { function with
        scope := (function.scope.take base).2
        blocks := function.blocks ++ [{ label := (function.scope.take base).1 }] } := by
  obtain ⟨names, used⟩ := assembled.names_add base
  refine ⟨assembled.certified.add rfl rfl located, names, used, ?_, ?_, ?_⟩
  · intro other member
    rcases mem_append.mp member with earlier | added
    · exact assembled.whole other earlier
    · obtain rfl := mem_singleton.mp added
      rfl
  · intro other member instr written
    rcases mem_append.mp member with earlier | added
    · exact assembled.operations other earlier instr written
    · -- The block that has been added is empty.
      obtain rfl := mem_singleton.mp added
      simp at written
  · intro other member exit ended
    rcases mem_append.mp member with earlier | added
    · exact assembled.exits other earlier exit ended
    · obtain rfl := mem_singleton.mp added
      simp at ended

end Assembled

theorem names_declare (name : String) (signature : Signature) :
    (declare name signature).params.Nodup ∧
      (declare name signature).params ⊆ (declare name signature).scope.used := by
  -- Parameters are named first, in a scope where nothing is taken.
  obtain ⟨distinct, _, used⟩ := Scope.takeAll_fresh {} (signature.params.map fun _ => "")
  refine ⟨distinct, ?_⟩
  rw [declare, Scope.used_take, used]
  exact fun param member => mem_cons_of_mem _
    (mem_append_left _ (mem_reverse.mpr member))

theorem assembled_declare (name : String) (signature : Signature) :
    (declare name signature).Assembled rule ends fun _ => (declare name signature).arguments := by
  have empty : (declare name signature).blocks = [] := rfl
  obtain ⟨distinct, taken⟩ := names_declare name signature
  have names : (declare name signature).names = (declare name signature).params := by
    rw [Function.names, empty, flatMap_nil, List.append_nil]
  refine ⟨⟨rfl, ?_, ?_⟩, names ▸ distinct, names ▸ taken, ?_, ?_, ?_⟩ <;> simp [empty]

/-- The entry block is added first; the parameters are known at its start. -/
theorem Assembled.addEntry (assembled : function.Assembled rule ends known)
    (empty : function.blocks = []) :
    Assembled rule ends (fun _ => function.arguments)
      { function with
        scope := (function.scope.take base).2
        blocks := function.blocks ++ [{ label := (function.scope.take base).1 }] } := by
  -- There is no other block that could lead anywhere.
  obtain ⟨names, used⟩ := assembled.names_add base
  refine ⟨⟨rfl, fun i block located => ?_, fun _ _ _ _ member => .inl member⟩, names, used,
    ?_, ?_, ?_⟩
  · have only : block = { label := (function.scope.take base).1 } := by
      simpa [empty] using mem_of_getElem? located
    subst only
    exact ⟨trivial, by simp, by simp⟩
  all_goals simp [empty]

theorem Assembled.mono {weaker : Operation → Prop} {weakerEnds : Exit → Prop}
    (assembled : function.Assembled rule ends known)
    (operations : ∀ operation, rule operation → weaker operation)
    (exits : ∀ exit, ends exit → weakerEnds exit) :
    function.Assembled weaker weakerEnds known where
  certified := assembled.certified
  names := assembled.names
  used := assembled.used
  whole := assembled.whole
  operations block member instr written :=
    operations _ (assembled.operations block member instr written)
  exits block member exit ended := exits _ (assembled.exits block member exit ended)

end Function

end LeftHand.Ir
