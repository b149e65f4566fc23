import LeftHand.Lower.Script
import LeftHand.Proofs.Ast.Inversion
import LeftHand.Proofs.Typing.Program

/-!
Programs that are read from a text have solid functions only, so exactly those that keep the rules
are built.
-/

namespace LeftHand

open List

section Success

variable {ε α : Type}

theorem exists_of_isOk {result : Except ε α} (isOk : result.isOk = true) :
    ∃ value, result = .ok value := by
  cases result with
  | error => cases isOk
  | ok value => exact ⟨value, rfl⟩

end Success

/-- What is known of an item that was made from a phrase. -/
def Item.Solid : Item → Prop
  | .type written => written.isKnown = true
  | .stmt action => ∀ type ∈ action.declares, type.isSolid = true
  | .param declared => declared.type.isSolid = true
  | .list items => ∀ declared, .param declared ∈ items → declared.type.isSolid = true
  | .block body => ∀ type ∈ bodyDeclares body.statements, type.isSolid = true
  | .elseIf part => ∀ type ∈ bodyDeclares part.body.statements, type.isSolid = true
  | .function defined => defined.Solid
  | .program whole => ∀ function ∈ whole.functions, function.Solid
  -- The others declare nothing.
  | .word _ | .ident _ | .expr _ | .other _ => True

theorem Pointed.isKnown {base written : Ty} {marks : List Item} (pointed : Pointed base marks written)
    (known : base.isKnown = true) : written.isKnown = true := by
  induction pointed with
  | nil => exact known
  | cons _ _ ih => exact ih known

theorem mem_bodyDeclares {stmts : List Stmt} {type : Ty} :
    type ∈ bodyDeclares stmts ↔ ∃ stmt ∈ stmts, type ∈ stmt.declares := by
  induction stmts with
  | nil => simp [bodyDeclares]
  | cons stmt stmts ih => simp [bodyDeclares, ih]

theorem declares_ofParts {last : Option Block} {parts : List ElseIf} {type : Ty}
    (member : type ∈ (Else.ofParts last parts).declares) :
    (∃ part ∈ parts, type ∈ bodyDeclares part.body.statements) ∨
      ∃ block, last = some block ∧ type ∈ bodyDeclares block.statements := by
  induction parts with
  | nil =>
    cases last with
    | none => cases member
    | some block => exact .inr ⟨block, rfl, member⟩
  | cons part parts ih =>
    rcases mem_append.mp member with here | later
    · exact .inl ⟨part, mem_cons_self, here⟩
    · rcases ih later with ⟨other, inside, found⟩ | behind
      · exact .inl ⟨other, mem_cons_of_mem _ inside, found⟩
      · exact .inr behind

/-- An item of a phrase is known if the items of the phrase are. -/
theorem Rule.Forms.solid {rule : Rule} {items : List Item} {item : Item} (forms : rule.Forms items item)
    (solid : ∀ part ∈ items, part.Solid) : item.Solid := by
  cases forms with
  | program first functions => simpa [Item.Solid] using solid
  | function mark result ident params body =>
    refine ⟨solid (.type result) (by simp), fun param member => ?_, solid (.block body) (by simp)⟩
    exact solid (.list (params.map .param)) (by simp) param (mem_map_of_mem member)
  | params params => exact fun declared member => solid (.param declared) member
  | @param written ident full | @declare written ident full =>
    have known : written.isKnown = true := solid (.type written) mem_cons_self
    simp [Item.Solid, Stmt.declares, Ty.isSolid, known, full]
  | block mark last actions =>
    intro type member
    obtain ⟨action, inside, declared⟩ := mem_bodyDeclares.mp member
    exact solid (.stmt action) (by simp [inside]) type declared
  | branch condition body parts otherwise =>
    -- A branch declares what its first body and its else part declare.
    intro type member
    rcases mem_append.mp member with first | later
    · exact solid (.block body) (by simp) type first
    · rcases declares_ofParts later with ⟨part, inside, declared⟩ | ⟨block, rfl, declared⟩
      · exact solid (.elseIf part) (by simp [inside]) type declared
      · exact solid (.block block) (by simp) type declared
  | elseIf _ body | loop _ body | otherwise body => exact solid (.block body) (by simp)
  | type pointed => exact pointed.isKnown (solid _ mem_cons_self)
  | _ => simp [Item.Solid, Stmt.declares, Ty.isKnown]

theorem Terminal.construct_solid {kind : Terminal} {word : Word} {item : Item}
    (made : kind.construct word = .ok item) : item.Solid := by
  unfold Terminal.construct at made
  split at made
  · obtain ⟨value, _, made⟩ := bind_eq_ok.mp made
    obtain ⟨_, _, made⟩ := bind_eq_ok.mp made
    cases made
    trivial
  all_goals
    cases made
    trivial

/-- The functions of a program that is read from a text are solid. -/
theorem readProgram_solid {text : List Char} {program : Program}
    (read : readProgram text = .ok program) : ∀ function ∈ program.functions, function.Solid := by
  have solid : (Item.program program).Solid := readProgram_holds
    (fun _ _ _ => Terminal.construct_solid) (fun _ _ _ forms => forms.solid) read
  exact solid

theorem gives_iff_runOn {build : Build Unit} {session : Session} :
    (∃ after, Gives build session () after) ↔ (build.runOn session).1 = .ok () := by
  unfold Gives Build.runOn
  rcases build.run.run session with ⟨result, after⟩
  constructor
  · intro given
    obtain ⟨_, same⟩ := given
    exact congrArg Prod.fst same
  · intro isOk
    exact ⟨after, Prod.ext isOk rfl⟩

theorem compileText_eq_ok {isVerbose : Bool} {text : List Char} {program : Program}
    {session : Session} (read : readProgram text = .ok program) :
    (compileText isVerbose text session).1 = .ok () ↔
      ∃ after, Gives (Build.program isVerbose program) session.renew () after := by
  rw [gives_iff_runOn, compileText, read]
  dsimp only
  -- What the program is has no part in this.
  generalize Build.runOn (Build.program isVerbose program) session.renew = ran
  obtain ⟨fault | _, after⟩ := ran
  · simp [Except.mapError]
  · simp [Except.mapError]

/-- The code generator builds the module of a program text if and only if the program keeps the
rules. String constants must not have been numbered before. -/
theorem compileText_iff_wellFormed {isVerbose : Bool} {text : List Char} {program : Program}
    {session : Session} (read : readProgram text = .ok program) (numbers : session.counters = [])
    (casts : session.casts ∈ castsLeft) :
    (compileText isVerbose text session).1 = .ok () ↔ program.WellFormed := by
  -- Only the casts are left of the session when a new module is begun.
  have renewed : session.renew = { casts := session.casts } := by rw [Session.renew, numbers]
  rw [compileText_eq_ok read, renewed]
  exact gives_program casts (readProgram_solid read)

/-- A program whose last parameter hides the one before it, and which uses an unknown name only
behind a return. -/
def unknownBehind : List Char :=
  "def dect add dect e car# e %s # e ass `c`$ ret %d1!d$ v ass trve$ !s ".toList ++
    "def dect start %s car c$ ret exec add %e %d2!d addr c !e$ !s".toList

/-- A program that uses the unknown name before the return. -/
def unknownBefore : List Char :=
  "def dect start %s v ass trve$ ret %d1!d$ !s".toList

/-- The first program is built, the second is not. -/
theorem compileText_iff_wellFormed_unknown :
    (∃ program, readProgram unknownBehind = .ok program ∧ program.WellFormed) ∧
      ∃ program, readProgram unknownBefore = .ok program ∧ ¬program.WellFormed := by
  have behindRead : (readProgram unknownBehind).isOk = true := by decide +kernel
  have behindBuilt : (compileText false unknownBehind {}).1.isOk = true := by decide +kernel
  have beforeRead : (readProgram unknownBefore).isOk = true := by decide +kernel
  have beforeRefused : (compileText false unknownBefore {}).1.isOk = false := by decide +kernel
  constructor
  · obtain ⟨program, read⟩ := exists_of_isOk behindRead
    obtain ⟨_, built⟩ := exists_of_isOk behindBuilt
    exact ⟨program, read, (compileText_iff_wellFormed read rfl (by decide)).mp built⟩
  · obtain ⟨program, read⟩ := exists_of_isOk beforeRead
    refine ⟨program, read, fun wellFormed => ?_⟩
    have built : (compileText false unknownBefore {}).1 = .ok () :=
      (compileText_iff_wellFormed read rfl (by decide)).mpr wellFormed
    rw [built] at beforeRefused
    cases beforeRefused

end LeftHand
