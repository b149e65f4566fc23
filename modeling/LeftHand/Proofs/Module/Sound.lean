import LeftHand.Proofs.Lower.Program
import LeftHand.Proofs.Lower.Whole

/-!
Sound modules: every function is finished, has a name of its own, takes what its signature says, and
the names of the C library stand for its functions.
-/

namespace LeftHand

open Ir List

variable {name : String} {global : Global}

/-- A function whose code is well assembled, and all of whose blocks have ended. -/
structure Ir.Function.Finished (code : Ir.Function) : Prop where
  assembled : ∃ known, code.Assembled (fun _ => True) (fun _ => True) known
  ended : ∀ block ∈ code.blocks, block.exit.isSome

/-- A string constant whose name starts with a dot. -/
def Ir.Global.IsDotted (global : Global) : Prop :=
  ∃ name bytes, global = .string name bytes ∧ name.toList.head? = some '.'

/-- A module all of whose functions are finished. -/
structure Session.Sound (session : Session) : Prop where
  finished : ∀ code, .function code ∈ session.globals → code.Finished
  counts : ∀ code, .function code ∈ session.globals →
    code.params.length = code.signature.params.length
  distinct : ∀ code other, .function code ∈ session.globals → .function other ∈ session.globals →
    code.name = other.name → code = other
  library : ∀ (libc : Libc) (global : Global), global ∈ session.globals →
    global.name = libc.name → ∃ code, global = .function code ∧ code.signature = libc.signature

theorem Session.sound_renew (session : Session) : session.renew.Sound where
  finished := by simp [renew]
  counts := by simp [renew]
  distinct := by simp [renew]
  library := by simp [renew]

theorem Session.name_ne_of_isTaken {session : Session} (free : session.isTaken name = false)
    (member : global ∈ session.globals) :
    global.name ≠ name := by
  rintro rfl
  rw [Session.isTaken_eq, Bool.or_eq_false_iff] at free
  -- The module itself holds the name, so it would be taken.
  have taken : session.names.contains global.name = true :=
    contains_iff_mem.mpr (mem_map_of_mem member)
  rw [taken] at free
  cases free.2

section Names

theorem Libc.head_name (libc : Libc) : ∃ c, libc.name.toList.head? = some c ∧ c.isAlpha = true := by
  cases libc <;> exact ⟨_, rfl, by decide⟩

theorem Ir.Global.IsDotted.name_ne (dotted : global.IsDotted) (libc : Libc) :
    global.name ≠ libc.name := by
  obtain ⟨name, bytes, rfl, head⟩ := dotted
  obtain ⟨c, first, isLetter⟩ := libc.head_name
  -- The same name would start with a dot and with a letter.
  intro same
  rw [Global.name_string] at same
  rw [same, first, Option.some.injEq] at head
  rw [head] at isLetter
  cases isLetter

/-- No function of a program has the name of a library function. -/
theorem functionName_ne_name (text : String) (libc : Libc) : functionName text ≠ libc.name := by
  obtain ⟨c, first, isLetter⟩ := libc.head_name
  intro same
  rw [← same, functionName, String.toList_append] at first
  -- What is put in front of the names of a program starts with a digit.
  have digit : c = '1' := by simpa using first.symm
  rw [digit] at isLetter
  cases isLetter

theorem head_constantName {counters : List (String × Nat)} {c : Char}
    (head : name.toList.head? = some c) :
    (constantName counters name).1.toList.head? = some c := by
  rw [constantName]
  -- A number is only ever put behind a name.
  split
  · simp only [String.toList_append, append_assoc]
    cases letters : name.toList with
    | nil => simp [letters] at head
    | cons first rest => simpa [letters] using head
  · exact head

end Names

variable {rule : Operation → Prop} {ends : Exit → Prop}

theorem Chart.Steps.dotted {before after : Chart} (steps : Chart.Steps rule ends before after)
    (dotted : ∀ global ∈ before.draft.strings, global.IsDotted) :
    ∀ global ∈ after.draft.strings, global.IsDotted := by
  -- Only keeping a text adds a constant, and its name is one of those that start with a dot.
  induction steps with
  | refl => exact dotted
  | tail _ step ih =>
    cases step with
    | keep =>
      intro global member
      rcases mem_append.mp member with earlier | added
      · exact ih global earlier
      · exact ⟨_, _, mem_singleton.mp added, head_constantName rfl⟩
    | write | finish | grow | goTo => exact ih

namespace Session.Sound

variable {session : Session} (sound : session.Sound)

include sound

theorem of_globals {after : Session}
    (cases : ∀ global ∈ after.globals, global ∈ session.globals ∨ global.IsDotted) : after.Sound := by
  -- All functions were there before.
  have earlier {code : Ir.Function} (member : .function code ∈ after.globals) :
      .function code ∈ session.globals := by
    rcases cases _ member with earlier | ⟨_, _, isString, _⟩
    · exact earlier
    · cases isString
  refine ⟨fun code member => sound.finished code (earlier member),
    fun code member => sound.counts code (earlier member),
    fun code other member otherMember => sound.distinct _ _ (earlier member) (earlier otherMember),
    fun libc global member named => ?_⟩
  -- A constant that has been added does not have the name of a library function.
  rcases cases global member with there | dotted
  · exact sound.library libc global there named
  · exact absurd named (dotted.name_ne libc)

theorem add (dotted : global.IsDotted) (counters : List (String × Nat)) :
    Session.Sound { session with globals := session.globals ++ [global], counters } := by
  refine sound.of_globals fun other member => ?_
  rcases mem_append.mp member with earlier | added
  · exact .inl earlier
  · exact .inr (mem_singleton.mp added ▸ dotted)

theorem extend {code : Ir.Function} (free : session.isTaken code.name = false)
    (finished : code.Finished) (count : code.params.length = code.signature.params.length)
    (library : ∀ libc : Libc, code.name = libc.name → code.signature = libc.signature) :
    (session.add (.function code)).Sound where
  finished other member := by
    rcases mem_append.mp member with earlier | added
    · exact sound.finished other earlier
    · cases mem_singleton.mp added
      exact finished
  counts other member := by
    rcases mem_append.mp member with earlier | added
    · exact sound.counts other earlier
    · cases mem_singleton.mp added
      exact count
  distinct first second firstMember secondMember same := by
    -- The new name is not taken, so no other function has it.
    have apart {other : Ir.Function} (member : .function other ∈ session.globals) :
        other.name ≠ code.name := by
      have differs := Session.name_ne_of_isTaken free member
      exact differs
    rcases mem_append.mp firstMember with firstThere | firstAdded <;>
      rcases mem_append.mp secondMember with secondThere | secondAdded
    · exact sound.distinct _ _ firstThere secondThere same
    · cases mem_singleton.mp secondAdded
      exact absurd same (apart firstThere)
    · cases mem_singleton.mp firstAdded
      exact absurd same.symm (apart secondThere)
    · cases mem_singleton.mp firstAdded
      cases mem_singleton.mp secondAdded
      rfl
  library libc global member named := by
    rcases mem_append.mp member with earlier | added
    · exact sound.library libc global earlier named
    · cases mem_singleton.mp added
      exact ⟨code, rfl, library libc named⟩

theorem declare {libc : Libc} (free : session.isTaken libc.name = false) :
    (session.add (.function (.declare libc.name libc.signature))).Sound := by
  refine sound.extend free ⟨⟨_, Ir.Function.assembled_declare ..⟩, ?_⟩ ?_ fun other named => ?_
  · simp [Ir.Function.declare]
  · simp [Ir.Function.declare]
  · -- No two library functions share a name.
    have same : libc = other := by
      change libc.name = other.name at named
      revert named
      cases libc <;> cases other <;> decide
    rw [same]
    rfl

/-- A function that has been written to its end is added to the module, with its constants. -/
theorem close {signature : Signature} {final : Draft} {start known : Known}
    (free : session.isTaken name = false)
    (steps : Chart.Steps rule ends ⟨.opening session name signature, start⟩ ⟨final, known⟩)
    (finished : final.function.Finished) (named : ∀ libc : Libc, name ≠ libc.name) :
    final.close.Sound := by
  have grown := steps.grows
  have sameName : final.function.name = name := grown.name
  -- First the function is added, then the constants that it needs.
  have added : (session.add (.function final.function)).Sound := by
    refine sound.extend (sameName ▸ free) finished ?_ fun libc same => ?_
    · rw [grown.params, grown.signature]
      simp [Draft.opening, Draft.grow, Ir.Function.declare]
    · exact absurd (sameName.symm.trans same) (named libc)
  -- Behind the function stand the constants.
  refine added.of_globals fun global member => ?_
  rw [Draft.close, Draft.globals, grown.globals, append_cons] at member
  rcases mem_append.mp member with there | isString
  · exact .inl there
  · exact .inr (steps.dotted (by simp [Draft.opening, Draft.grow]) global isString)

theorem replace {code changed : Ir.Function} (member : .function code ∈ session.globals)
    (named : ∀ libc : Libc, code.name ≠ libc.name) (name : changed.name = code.name)
    (signature : changed.signature = code.signature) (params : changed.params = code.params)
    (finished : changed.Finished) : (session.replace code.name changed).Sound := by
  -- What stands in the module now is the changed function or something of another name.
  have origin {global : Global} (found : global ∈ (session.replace code.name changed).globals) :
      global = .function changed ∨ global ∈ session.globals ∧ global.name ≠ code.name := by
    obtain ⟨old, there, rfl⟩ := mem_map.mp found
    split
    · exact .inl rfl
    · rename_i differs
      exact .inr ⟨there, differs⟩
  refine ⟨fun other found => ?_, fun other found => ?_,
    fun first second firstFound secondFound same => ?_, fun libc global found isLibc => ?_⟩
  · rcases origin found with same | ⟨there, _⟩
    · cases same
      exact finished
    · exact sound.finished other there
  · rcases origin found with same | ⟨there, _⟩
    · cases same
      rw [params, signature]
      exact sound.counts code member
    · exact sound.counts other there
  · -- A function of another name cannot share that of the changed one.
    rcases origin firstFound with isFirst | ⟨firstThere, firstDiffers⟩ <;>
      rcases origin secondFound with isSecond | ⟨secondThere, secondDiffers⟩
    · cases isFirst
      cases isSecond
      rfl
    · cases isFirst
      exact absurd (same.symm.trans name) secondDiffers
    · cases isSecond
      exact absurd (same.trans name) firstDiffers
    · exact sound.distinct _ _ firstThere secondThere same
  · -- The function that is changed is not one of the library.
    rcases origin found with rfl | ⟨there, _⟩
    · exact absurd (name.symm.trans isLibc) (named libc)
    · exact sound.library libc global there isLibc

end Session.Sound

end LeftHand
