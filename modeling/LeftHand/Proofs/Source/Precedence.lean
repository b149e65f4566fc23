import LeftHand.Proofs.Source.Literals

/-!
Precedence and associativity: a line of literals with operators between them is read in one way,
which is how precedence climbing groups it.
-/

namespace LeftHand

open List

/-- A number or a truth value. -/
inductive Literal where
  | number (numeral : Numeral)
  | truth (value : Bool)

namespace Literal

/-- The word of a literal. -/
def word : Literal → List Char
  | number numeral => numeral.word
  | truth value => truthWord value

/-- The expression that a literal denotes. -/
def value : Literal → Expr
  | number numeral => .decimal .start numeral.value
  | truth value => .boolean .start value

theorem isSolid (literal : Literal) : IsSolid literal.word := by
  cases literal with
  | number numeral => exact isSolid_of_take? numeral.take?_word
  | truth value => exact isSolid_of_take? (take?_truthWord value)

theorem isOperand (literal : Literal) :
    IsOperand (fun _ => True) value (fun literal => [literal.word]) literal := by
  intro after _
  cases literal with
  | number numeral => exact .number numeral
  | truth value => exact .truth value

theorem onlyFor (literal : Literal) : OnlyFor [.integer, .booleanLiteral] literal.word := by
  intro kind foreign
  rw [mem_cons, mem_singleton, not_or] at foreign
  cases literal with
  | number numeral => exact numeral.onlyFor kind fun same => foreign.1 (mem_singleton.mp same)
  | truth value => exact onlyFor_truthWord value kind fun same => foreign.2 (mem_singleton.mp same)

end Literal

/-- The words of literals with operators between them. -/
def lineWords (first : Literal) (rest : List (BinOp × Literal)) : List (List Char) :=
  [first.word] ++ chainWords (fun literal => [literal.word]) rest

/-- The words of a program that is one statement. -/
def lineProgram (line : List (List Char)) : List (List Char) :=
  [['d', 'e', 'f'], ['d', 'e', 'c', 't'], ['s', 't', 'a', 'r', 't']] ++ braced (line ++ [['$']])

section Line

variable {first : Literal} {rest : List (BinOp × Literal)}

theorem allSolid_lineProgram : AllSolid (lineProgram (lineWords first rest)) := by
  have line : AllSolid (lineWords first rest) := by
    refine .cons first.isSolid ?_
    intro word inside
    obtain ⟨⟨op, literal⟩, _, among⟩ := mem_flatMap.mp inside
    rcases mem_cons.mp among with rfl | among
    · exact isSolid_of_take? op.take?_text
    · rw [mem_singleton.mp among]
      exact literal.isSolid
  refine .append (fun word inside => isSolid_of_typed ?_)
    (AllSolid.append line allSolid_lineEnd).braced
  revert word
  decide

/-- A line is read as one statement. -/
theorem Reads.line (more : List (List Char)) :
    ReadsBody (lineWords first rest ++ [['$']])
      [.expr .start (climb Literal.value 1 first.value rest).1.1] more := by
  have chain : Reads (Cursor.Breaks 1) false (.phrase .expr)
      ([first.word] ++ (chainWords (fun literal => [literal.word]) rest ++ ['$'] :: ['!', 's'] :: more))
      [.expr (climb Literal.value 1 first.value rest).1.1] (['$'] :: ['!', 's'] :: more) := by
    refine .chain first.isOperand (fun item _ => item.2.isOperand) (fun _ _ => trivial) trivial ?_
    rintro _ _ ⟨⟩
    decide
  rw [← append_assoc] at chain
  have placed : (climb Literal.value 1 first.value rest).1.1.pos = .start :=
    pos_of_climb _ _ _ (by cases first <;> rfl)
  rw [ReadsBody, append_assoc]
  refine .many_cons (Reads.folded .statement
    (.chooseOnly (.exprStmt chain placed) (by decide) first.onlyFor (by decide)) rfl)
    (.many_nil (rejects_of_refuses (by decide))) ?_
  intro here faces
  exact not_starts (first.onlyFor.all_refuses (by decide)) faces

end Line

/-- Literals with operators between them are parsed without ambiguity, and the program that they
make is one expression statement, grouped as precedence climbing groups it. -/
theorem operators_group_by_precedence (first : Literal) (rest : List (BinOp × Literal)) :
    ∃ tree program, parse (spaced (lineProgram (lineWords first rest))) = .ok tree ∧
      tree.item = .ok (.program program) ∧
        program.unplaced = ⟨.start, [⟨.start, .decimal .start, ⟨.start, "start"⟩, [],
          ⟨.start, [.expr .start (climb Literal.value 1 first.value rest).1.1]⟩⟩]⟩ := by
  refine Reads.parse allSolid_lineProgram ?_
  have isName : IsName ['s', 't', 'a', 'r', 't'] := by decide
  have whole := @Reads.program Unit (fun _ => lineProgram (lineWords first rest))
    (fun _ => ⟨.start, .decimal .start, ⟨.start, "start"⟩, [],
      ⟨.start, [.expr .start (climb Literal.value 1 first.value rest).1.1]⟩⟩) () [] rfl
  rw [flatMap_cons, flatMap_nil, List.append_nil] at whole
  refine whole fun _ _ => ⟨⟨_, rfl⟩, fun stop more => ?_⟩
  have written : lineProgram (lineWords first rest) ++ more =
      ['d', 'e', 'f'] :: ((Ty.decimal .start).words ++ ['s', 't', 'a', 'r', 't'] ::
        (([] : List Param).flatMap Param.words ++
          (braced (lineWords first rest ++ [['$']]) ++ more))) := by
    simp [lineProgram, Ty.words]
  rw [written]
  exact .function rfl isName (fun _ inside => absurd inside not_mem_nil) (.line more)

end LeftHand
