import LeftHand.Proofs.Flow.Walk
import Mathlib

/-!
Single assignment: every name of a function stands for one thing, and every register that is used
has been given its value on all the paths that lead there.
-/

namespace LeftHand.Ir

open List

/-- The values that an operation works on. -/
def Operation.operands : Operation → List Value
  | alloca _ => []
  | load source => [source]
  | store value target => [value, target]
  | arith _ lhs rhs => [lhs, rhs]
  | compare _ lhs rhs => [lhs, rhs]
  | cast _ value _ => [value]
  | element base indices _ => base :: indices
  | call _ _ arguments => arguments
  | select condition whenTrue whenFalse => [condition, whenTrue, whenFalse]

/-- The values that the end of a block works on. -/
def Exit.operands : Exit → List Value
  | ret value => [value]
  | branch condition _ _ => [condition]
  | retVoid | jump _ => []

/-- The labels of the blocks that may come next. -/
def Exit.targets : Exit → List String
  | jump label => [label]
  | branch _ whenTrue whenFalse => [whenTrue, whenFalse]
  | ret _ | retVoid => []

/-- Whether a value is a register. -/
def Value.isRegister : Value → Bool
  | register _ _ => true
  | _ => false

/-- The register of an instruction. -/
def Instr.result (instr : Instr) : Value :=
  .register instr.name instr.operation.type

/-- The registers of a block. -/
def Block.results (block : Block) : List Value :=
  block.code.map Instr.result

/-- The names of a block and of its instructions. -/
def Block.names (block : Block) : List String :=
  block.label :: block.code.map (·.name)

/-- The names of the parameters, blocks and instructions of a function. -/
def Function.names (function : Function) : List String :=
  function.params ++ function.blocks.flatMap Block.names

/-- The paths through a function from its entry, each as the blocks that it passes, the last
first. -/
inductive Function.Path (function : Function) : List Block → Prop where
  | entry {block} (first : function.blocks.head? = some block) : function.Path [block]
  | step {block passed exit label next} (path : function.Path (block :: passed))
      (ended : block.exit = some exit) (leads : label ∈ exit.targets)
      (found : function.block? label = some next) : function.Path (next :: block :: passed)

/-- A block that every path to another one passes. -/
def Function.Dominates (function : Function) (definer block : Block) : Prop :=
  ∀ passed, function.Path (block :: passed) → definer ∈ block :: passed

/-- The registers that have their values behind some instructions of a block: parameters, results of
these instructions, and results of other blocks that every path has passed. -/
def Function.Knows (function : Function) (block : Block) (earlier : List Instr) (value : Value) :
    Prop :=
  value ∈ function.arguments ∨ value ∈ earlier.map Instr.result ∨
    ∃ other ∈ function.blocks, other ≠ block ∧ value ∈ other.results ∧ function.Dominates other block

/-- Code in which every name stands for one thing and every register has its value where it is
used. -/
structure Function.SingleAssignment (function : Function) : Prop where
  names : function.names.Nodup
  uses : ∀ block ∈ function.blocks, ∀ earlier instr later, block.code = earlier ++ instr :: later →
    ∀ value ∈ instr.operation.operands, value.isRegister → function.Knows block earlier value
  ends : ∀ block ∈ function.blocks, ∀ exit ∈ block.exit,
    ∀ value ∈ exit.operands, value.isRegister → function.Knows block block.code value

/-- Memory that has been taken behind some instructions of a block: by one of them, or in another
block that every path has passed. -/
def Function.Reserves (function : Function) (block : Block) (earlier : List Instr) (address : Value) :
    Prop :=
  ∃ name type, address = .register name (.pointer type) ∧
    (⟨name, .alloca type⟩ ∈ earlier ∨
      ∃ other ∈ function.blocks, other ≠ block ∧ ⟨name, .alloca type⟩ ∈ other.code ∧
        function.Dominates other block)

/-- A value that can be used where some registers are known. -/
def Value.UsableIn (known : List Value) (value : Value) : Prop :=
  value.isRegister = true → value ∈ known

theorem Value.UsableIn.mono {known more : List Value} {value : Value} (usable : value.UsableIn known)
    (subset : known ⊆ more) : value.UsableIn more :=
  fun isRegister => subset (usable isRegister)

/-- Code that uses only what is known before it and what it has computed itself. -/
def Orderly : List Value → List Instr → Prop
  | _, [] => True
  | known, instr :: code =>
    (∀ value ∈ instr.operation.operands, value.UsableIn known) ∧
      Orderly (known ++ [instr.result]) code

section Orderly

variable {known more : List Value} {code rest : List Instr} {instr : Instr}

theorem orderly_append :
    Orderly known (code ++ rest) ↔
      Orderly known code ∧ Orderly (known ++ code.map Instr.result) rest := by
  induction code generalizing known with
  | nil => simp [Orderly]
  | cons instr code ih => simp [Orderly, ih, and_assoc]

theorem Orderly.mono (orderly : Orderly known code) (subset : known ⊆ more) : Orderly more code := by
  -- What is known grows along the code in both lists alike.
  induction code generalizing known more with
  | nil => trivial
  | cons instr code ih =>
    obtain ⟨uses, rest⟩ := orderly
    refine ⟨fun value member => (uses value member).mono subset, ih rest ?_⟩
    exact append_subset.mpr ⟨subset_append_of_subset_left _ subset,
      subset_append_right _ _⟩

theorem Orderly.insert (orderly : Orderly known (code ++ rest))
    (uses : ∀ value ∈ instr.operation.operands,
      value.UsableIn (known ++ code.map Instr.result)) :
    Orderly known (code ++ instr :: rest) := by
  obtain ⟨first, last⟩ := orderly_append.mp orderly
  exact orderly_append.mpr ⟨first, uses, last.mono (subset_append_left _ _)⟩

end Orderly

/-- The registers known at the start of each block, by its position. -/
abbrev Known := Nat → List Value

/-- A block that uses only what is known, and leads only to blocks where no more is taken for known.
Nothing leads to the entry. -/
structure Block.Fits (blocks : List Block) (known : Known) (i : Nat) (block : Block) : Prop where
  code : Orderly (known i) block.code
  ends : ∀ exit ∈ block.exit, ∀ value ∈ exit.operands, value.UsableIn (known i ++ block.results)
  leads : ∀ exit ∈ block.exit, ∀ label ∈ exit.targets, ∃ j target, blocks[j]? = some target ∧
    target.label = label ∧ j ≠ 0 ∧ known j ⊆ known i ++ block.results

/-- A function whose blocks all fit what is known at their starts. -/
structure Function.Certified (function : Function) (known : Known) : Prop where
  entry : known 0 = function.arguments
  fits : ∀ (i : Nat) (block : Block), function.blocks[i]? = some block →
    block.Fits function.blocks known i
  /-- What is known is a parameter or comes from another block. -/
  origins : ∀ (i : Nat) (block : Block), function.blocks[i]? = some block → ∀ value ∈ known i,
    value ∈ function.arguments ∨
      ∃ j other, j ≠ i ∧ function.blocks[j]? = some other ∧ value ∈ other.results

namespace Function

variable {function : Function} {known : Known}

section Names

variable (names : function.names.Nodup)

include names

theorem pairwise_disjoint :
    function.blocks.Pairwise fun block other => block.names.Disjoint other.names :=
  (nodup_flatMap.mp (nodup_append.mp names).2.1).2

theorem position_eq {i j : Nat} {block other : Block} (located : function.blocks[i]? = some block)
    (again : function.blocks[j]? = some other) (same : block.label = other.label) :
    i = j ∧ block = other := by
  -- Labels are names of blocks, and no two blocks share a name.
  have labels : (function.blocks.map (·.label)).Nodup := by
    refine pairwise_map.mpr ((pairwise_disjoint names).imp fun disjoint shared => ?_)
    exact disjoint mem_cons_self (mem_cons.mpr (.inl shared))
  have within : i < (function.blocks.map (·.label)).length := by
    simpa using (List.getElem?_eq_some_iff.mp located).1
  obtain rfl : i = j :=
    (getElem?_inj within labels).mp (by simp [located, again, same])
  exact ⟨rfl, Option.some.inj (located.symm.trans again)⟩

variable {block : Block} (member : block ∈ function.blocks)

include member

theorem definer_eq {other : Block} {value : Value} (otherMember : other ∈ function.blocks)
    (defines : value ∈ block.results) (again : value ∈ other.results) : block = other := by
  -- Two blocks with a register in common would share its name.
  by_contra differ
  have symmetric : Std.Symm fun block other : Block => block.names.Disjoint other.names :=
    ⟨fun _ _ disjoint => disjoint.symm⟩
  have disjoint := (pairwise_disjoint names).forall member otherMember differ
  obtain ⟨instr, written, rfl⟩ := mem_map.mp defines
  obtain ⟨another, writtenToo, same⟩ := mem_map.mp again
  injection same with same
  exact disjoint (mem_cons_of_mem _ (mem_map_of_mem written))
    (mem_cons_of_mem _ (same ▸ mem_map_of_mem writtenToo))

theorem instr_eq {other : Block} {instr another : Instr} (otherMember : other ∈ function.blocks)
    (written : instr ∈ block.code) (writtenToo : another ∈ other.code)
    (same : instr.result = another.result) : instr = another := by
  -- Both are in one block, and the names in a block are apart.
  have results : instr.result ∈ other.results := same ▸ mem_map_of_mem writtenToo
  obtain rfl := definer_eq names member otherMember (mem_map_of_mem written) results
  injection same with same
  have inside := (nodup_flatMap.mp (nodup_append.mp names).2.1).1 block member
  exact inj_on_of_nodup_map (nodup_cons.mp inside).2 written writtenToo same

theorem notMem_arguments {value : Value} (defines : value ∈ block.results) :
    value ∉ function.arguments := by
  -- The names of the parameters are apart from those in the blocks.
  intro isArgument
  obtain ⟨instr, written, rfl⟩ := mem_map.mp defines
  rw [arguments, ← map_uncurry_zip_eq_zipWith] at isArgument
  obtain ⟨⟨param, type⟩, paired, same⟩ := mem_map.mp isArgument
  injection same with same
  have inBlocks : instr.name ∈ function.blocks.flatMap Block.names :=
    mem_flatMap.mpr ⟨block, member, mem_cons_of_mem _ (mem_map_of_mem written)⟩
  exact (nodup_append.mp names).2.2 param (of_mem_zip paired).1 _ inBlocks same

end Names

theorem Path.subset {passed : List Block} (path : function.Path passed) :
    passed ⊆ function.blocks := by
  induction path with
  | entry first => exact cons_subset.mpr ⟨mem_of_mem_head? first, nil_subset _⟩
  | step _ _ _ found ih => exact cons_subset.mpr ⟨mem_of_find?_eq_some found, ih⟩

variable (certified : function.Certified known)

include certified

variable (names : function.names.Nodup)

include names

/-- What is known at the start of a block is a parameter, or has been computed on the way, whichever
path was taken. -/
theorem Certified.computed {i : Nat} {block : Block} {passed : List Block}
    (path : function.Path (block :: passed)) (located : function.blocks[i]? = some block)
    {value : Value} (member : value ∈ known i) :
    value ∈ function.arguments ∨ ∃ definer ∈ passed, value ∈ definer.results := by
  -- The induction is on the path, with what is known where it ends.
  generalize whole : block :: passed = trail at path
  induction path generalizing i block passed value with
  | entry first =>
    cases whole
    rw [head?_eq_getElem?] at first
    obtain ⟨rfl, _⟩ := position_eq names located first rfl
    rw [certified.entry] at member
    exact .inl member
  | @step block passed exit label next path ended leads found ih =>
    cases whole
    obtain ⟨j, previous⟩ := getElem?_of_mem (path.subset mem_cons_self)
    -- The certificate of the block before covers what is known at the one it leads to.
    obtain ⟨target, aimed, reached, label, _, subset⟩ :=
      (certified.fits j block previous).leads exit ended label leads
    have named : next.label = aimed.label := by
      have := find?_some found
      rw [label]
      simpa using this
    obtain ⟨rfl, _⟩ := position_eq names located reached named
    rcases mem_append.mp (subset member) with earlier | here
    · rcases ih previous earlier rfl with isArgument | ⟨definer, onWay, defines⟩
      · exact .inl isArgument
      · exact .inr ⟨definer, mem_cons_of_mem _ onWay, defines⟩
    · exact .inr ⟨block, mem_cons_self, here⟩

/-- What is known at the start of a block is a parameter, or comes from a block that dominates
it. -/
theorem Certified.knows {i : Nat} {block : Block} (located : function.blocks[i]? = some block)
    {earlier : List Instr} {value : Value}
    (usable : value.UsableIn (known i ++ earlier.map Instr.result))
    (isRegister : value.isRegister = true) : function.Knows block earlier value := by
  -- What was not computed in the block itself was known at its start.
  rcases mem_append.mp (usable isRegister) with atStart | computed
  · rcases certified.origins i block located value atStart with isArgument | origin
    · exact .inl isArgument
    · obtain ⟨j, other, apart, otherLocated, defines⟩ := origin
      have member := mem_of_getElem? otherLocated
      refine .inr (.inr ⟨other, member, fun same => ?_, defines, fun passed path => ?_⟩)
      · exact apart (position_eq names otherLocated located (congrArg _ same)).1
      · -- On the path the register was computed by some block, and only one block computes it.
        rcases certified.computed names path located atStart with isArgument | onWay
        · exact absurd isArgument (notMem_arguments names member defines)
        · obtain ⟨definer, passedIt, again⟩ := onWay
          have onPath := mem_cons_of_mem block passedIt
          obtain rfl := definer_eq names member (path.subset onPath) defines again
          exact onPath
  · exact .inr (.inl computed)

/-- Where the address of memory is known, the memory has been taken. -/
theorem Certified.reserves {i : Nat} {block definer : Block}
    (located : function.blocks[i]? = some block) {front back : List Instr}
    (split : block.code = front ++ back) {name : String} {type : Ty}
    (inSight : .register name (.pointer type) ∈ known i ++ front.map Instr.result)
    (member : definer ∈ function.blocks) (taken : ⟨name, .alloca type⟩ ∈ definer.code) :
    function.Reserves block front (.register name (.pointer type)) := by
  have own : (⟨name, .alloca type⟩ : Instr).result ∈ definer.results := mem_map_of_mem taken
  refine ⟨name, type, rfl, ?_⟩
  rcases certified.knows names located (fun _ => inSight) rfl with isArgument | earlier | other
  · exact absurd isArgument (notMem_arguments names member own)
  · -- The instruction in front is the one that takes the memory, since no two share a name.
    obtain ⟨instr, written, same⟩ := mem_map.mp earlier
    have inBlock : instr ∈ block.code := split ▸ mem_append_left _ written
    obtain rfl := instr_eq names (mem_of_getElem? located) member inBlock taken same
    exact .inl written
  · -- Only one block has the register, so it is the one that dominates.
    obtain ⟨other, otherMember, apart, defines, dominates⟩ := other
    obtain rfl := definer_eq names member otherMember own defines
    exact .inr ⟨_, member, apart, taken, dominates⟩

/-- A certificate and distinct names make single assignment. -/
theorem Certified.singleAssignment : function.SingleAssignment where
  names := names
  uses block member earlier instr later split value operand isRegister := by
    obtain ⟨i, located⟩ := getElem?_of_mem member
    have orderly := (certified.fits i block located).code
    rw [split, orderly_append] at orderly
    exact certified.knows names located (orderly.2.1 value operand) isRegister
  ends block member exit ended value operand isRegister := by
    obtain ⟨i, located⟩ := getElem?_of_mem member
    exact certified.knows names located ((certified.fits i block located).ends exit ended value operand)
      isRegister

end Function

end LeftHand.Ir
