import LeftHand.Proofs.Lower.Tandem
import LeftHand.Proofs.Module.Growth
import LeftHand.Proofs.Module.Sound

/-! Names in a module before it has an entry point. -/

namespace LeftHand

open Ir List

/-- What a module can hold before it has an entry point: string constants, declarations of library
functions other than the time, and functions of the language with their code. -/
inductive Ir.Global.IsFamiliar : Global → Prop where
  | constant {name : String} {bytes : List UInt8} (dotted : name.toList.head? = some '.') :
      IsFamiliar (.string name bytes)
  | library {libc : Libc} (early : libc ≠ .time) : IsFamiliar libc.global
  | own {code : Ir.Function} {text : String} (named : code.name = functionName text)
      (filled : code.blocks ≠ []) : IsFamiliar (.function code)

/-- Familiar globals, each with a name of its own. -/
structure Tidy (globals : List Global) : Prop where
  distinct : (globals.map Global.name).Nodup
  familiar : ∀ global ∈ globals, global.IsFamiliar

/-- A module that is kept tidy. -/
def Session.StaysTidy (before after : Session) : Prop :=
  Tidy before.globals → Tidy after.globals

/-- A function of the language that is written in a tidy module. -/
structure Draft.IsTidy (draft : Draft) : Prop where
  tidy : Tidy draft.globals
  named : ∃ text, draft.function.name = functionName text
  filled : draft.function.blocks ≠ []

def Draft.StaysTidy (before after : Draft) : Prop :=
  before.IsTidy → after.IsTidy

section Familiar

variable {globals : List Global} {global : Global}

/-- Under the name of a library function stands its declaration. -/
theorem Ir.Global.IsFamiliar.eq_library {libc : Libc} (familiar : global.IsFamiliar)
    (named : global.name = libc.name) : global = libc.global ∧ libc ≠ .time := by
  cases familiar with
  | constant dotted => exact absurd named (Global.IsDotted.name_ne ⟨_, _, rfl, dotted⟩ libc)
  | own ours => exact absurd (ours.symm.trans named) (functionName_ne_name _ _)
  | @library other early =>
    have same : other = libc := by
      revert named
      cases other <;> cases libc <;> decide
    exact ⟨same ▸ rfl, same ▸ early⟩

theorem Ir.Global.IsFamiliar.exists_code {text : String} (familiar : global.IsFamiliar)
    (named : global.name = functionName text) :
    ∃ code, global = .function code ∧ code.blocks ≠ [] := by
  cases familiar with
  | @constant name bytes dotted =>
    -- The name would start with a dot and with a digit.
    rw [Global.name_string] at named
    rw [named, functionName, String.toList_append] at dotted
    simp at dotted
  | library => exact absurd named.symm (functionName_ne_name _ _)
  | own _ filled => exact ⟨_, rfl, filled⟩

/-- Neither the time nor the entry point is there yet. -/
theorem Ir.Global.IsFamiliar.name_ne (familiar : global.IsFamiliar) :
    global.name ≠ Libc.time.name ∧ global.name ≠ "main" := by
  refine ⟨fun named => (familiar.eq_library named).2 rfl, fun named => ?_⟩
  cases familiar with
  | @constant name bytes dotted =>
    rw [Global.name_string] at named
    simp [named] at dotted
  | @library libc =>
    revert named
    cases libc <;> decide
  | @own code text ours =>
    rw [Global.name_function, ours] at named
    simp [functionName, String.ext_iff] at named

theorem tidy_nil : Tidy [] :=
  ⟨nodup_nil, fun _ member => absurd member not_mem_nil⟩

theorem Tidy.concat (tidy : Tidy globals) (familiar : global.IsFamiliar)
    (free : ∀ other ∈ globals, other.name ≠ global.name) : Tidy (globals ++ [global]) where
  distinct := by
    rw [map_append, nodup_append]
    refine ⟨tidy.distinct, nodup_singleton _, fun name held other added same => ?_⟩
    obtain ⟨there, member, rfl⟩ := mem_map.mp held
    rw [map_singleton, mem_singleton] at added
    exact free there member (same.trans added)
  familiar := by
    intro other member
    rcases mem_append.mp member with earlier | added
    · exact tidy.familiar other earlier
    · exact mem_singleton.mp added ▸ familiar

end Familiar

/-- A relation that holds along sequences is kept if the steps that add to a module keep it. -/
theorem Build.Respected.of_leaves {drafts : Draft → Draft → Prop} {kept : Session → Session → Prop}
    (refl : ∀ session, kept session session)
    (trans : ∀ {one two three}, kept one two → kept two three → kept one three)
    (setCasts : ∀ (change : List (String × List Nat) → List (String × List Nat)) session,
      kept session { session with casts := change session.casts })
    (libc : ∀ {libc}, libc ≠ .time → Leaves kept (Build.libc libc))
    (addString : ∀ text {name}, name ∈ Predefined.constantNames →
      Leaves kept (Build.addString text name true))
    (define : ∀ name signature {body}, Leaves drafts body →
      Leaves kept (Build.define (functionName name) signature body)) :
    Build.Respected (LeaveBoth drafts) (LeaveBoth kept) where
  pure _ := ⟨refl, refl⟩
  bind before behind := ⟨before.1.bind trans fun value => (behind value).1,
    before.2.bind trans fun value => (behind value).2⟩
  fails _ := ⟨refl, refl⟩
  get := ⟨refl, refl⟩
  setCasts change := ⟨setCasts change, setCasts change⟩
  libc early := ⟨libc early, libc early⟩
  addString text _ ready := ⟨addString text ready, addString text ready⟩
  define name signature _ _ same := ⟨define name signature same.1, define name signature same.2⟩

section Drafts

variable {before after : Draft}

theorem Draft.IsTidy.of_code (isTidy : before.IsTidy) (session : after.session = before.session)
    (strings : after.strings = before.strings) (name : after.function.name = before.function.name)
    (filled : after.function.blocks ≠ []) : after.IsTidy := by
  obtain ⟨⟨distinct, familiar⟩, ⟨text, named⟩, _⟩ := isTidy
  have ours : after.function.name = functionName text := name.trans named
  refine ⟨⟨?_, fun global member => ?_⟩, ⟨text, ours⟩, filled⟩
  · have names : after.globals.map Global.name = before.globals.map Global.name := by
      simp [Draft.globals, session, strings, name]
    rw [names]
    exact distinct
  · rw [Draft.globals, session, strings] at member
    rcases mem_append.mp member with earlier | behind
    · exact familiar global (mem_append_left _ earlier)
    · rcases mem_cons.mp behind with rfl | constant
      · exact .own ours filled
      · exact familiar global (mem_append_right _ (mem_cons_of_mem _ constant))

theorem Draft.IsTidy.keep (isTidy : before.IsTidy) (text : String)
    (free : ∀ global ∈ before.globals, global.name ≠ before.constant) : (before.keep text).IsTidy := by
  have globals : (before.keep text).globals =
      before.globals ++ [.string before.constant (constantBytes text)] := by
    simp [Draft.globals, Draft.keep]
  have dotted : before.constant.toList.head? = some '.' := head_constantName rfl
  refine ⟨?_, isTidy.named, isTidy.filled⟩
  rw [globals]
  exact isTidy.tidy.concat (.constant dotted) free

theorem staysTidy_addString (text : String) : Leaves Draft.StaysTidy (Emit.addString text) := by
  intro before isTidy
  rw [run_addString]
  split
  · exact ⟨isTidy.tidy, isTidy.named, isTidy.filled⟩
  · rename_i free
    refine isTidy.keep text fun global member same => free ?_
    rw [Bool.or_eq_true, any_eq_true]
    exact .inr ⟨global, member, beq_iff_eq.mpr same⟩

theorem respected_staysTidy : Emit.Respected (LeaveBoth Draft.StaysTidy) where
  toUpheld := by
    refine .of_leaves (fun _ isTidy => isTidy) (fun first second isTidy => second (first isTidy)) ?_ ?_ ?_ ?_
    · exact fun _ _ isTidy => isTidy.of_code rfl rfl rfl isTidy.filled
    · intro change before isTidy
      refine isTidy.of_code rfl rfl rfl fun empty => isTidy.filled ?_
      -- There are as many blocks as before.
      have length := congrArg List.length empty
      change (before.function.blocks.modify before.current change).length = 0 at length
      rw [length_modify] at length
      exact eq_nil_of_length_eq_zero length
    · exact fun _ _ isTidy =>
        isTidy.of_code rfl rfl rfl (append_ne_nil_of_right_ne_nil _ (cons_ne_nil _ _))
    · exact fun _ _ isTidy => isTidy.of_code rfl rfl rfl isTidy.filled
  addString text := ⟨staysTidy_addString text, staysTidy_addString text⟩

end Drafts

section Build

theorem staysTidy_addGlobal {global : Global} (familiar : global.IsFamiliar) :
    Leaves Session.StaysTidy (Build.addGlobal global) := by
  intro before tidy
  rw [Build.addGlobal, run_get_bind]
  split
  · exact tidy
  · rename_i free
    exact tidy.concat familiar fun other member =>
      Session.name_ne_of_isTaken (Bool.eq_false_iff.mpr free) member

theorem Session.StaysTidy.trans {one two three : Session} (first : one.StaysTidy two)
    (second : two.StaysTidy three) : one.StaysTidy three :=
  fun tidy => second (first tidy)

theorem Session.StaysTidy.refl (session : Session) : session.StaysTidy session := id

theorem staysTidy_libc {libc : Libc} (early : libc ≠ .time) :
    Leaves Session.StaysTidy (Build.libc libc) := by
  refine .bind .trans .refl fun session => ?_
  split
  · exact .refl
  · exact (staysTidy_addGlobal (.library early)).bind .trans fun _ => .refl

theorem staysTidy_string (text : String) {name : String} (dotted : name.toList.head? = some '.') :
    Leaves Session.StaysTidy (Build.addString text name true) := by
  have added {name : String} (dotted : name.toList.head? = some '.') : Leaves Session.StaysTidy (do
      Build.addGlobal (.string name (constantBytes text))
      return Global.string name (constantBytes text)) :=
    (staysTidy_addGlobal (.constant dotted)).bind .trans fun _ => .refl
  rw [Build.addString, if_pos rfl]
  refine .bind .trans .refl fun session => .bind .trans (fun _ tidy => tidy) fun _ => ?_
  exact added (head_constantName dotted)

theorem staysTidy_define (name : String) (signature : Signature) {body : Emit Unit}
    (stays : Leaves Draft.StaysTidy body) :
    Leaves Session.StaysTidy (Build.define (functionName name) signature body) := by
  intro before tidy
  rw [run_define]
  split
  · exact tidy
  · rename_i free
    -- The function is opened behind the module, with its entry block.
    have opened : (Draft.opening before (functionName name) signature).IsTidy := by
      refine ⟨?_, ⟨name, rfl⟩, cons_ne_nil _ _⟩
      exact tidy.concat (.own rfl (cons_ne_nil _ _)) fun other member =>
        Session.name_ne_of_isTaken (Bool.eq_false_iff.mpr free) member
    exact (stays _ opened).tidy

theorem respected_staysTidy_build :
    Build.Respected (LeaveBoth Draft.StaysTidy) (LeaveBoth Session.StaysTidy) := by
  have dotted : ∀ name ∈ Predefined.constantNames, name.toList.head? = some '.' := by decide
  exact .of_leaves .refl .trans (fun _ _ tidy => tidy) staysTidy_libc
    (fun text _ ready => staysTidy_string text (dotted _ ready)) staysTidy_define

theorem staysTidy_functions (isVerbose : Bool) (functions : List Function) :
    Leaves Session.StaysTidy (Build.functions isVerbose functions) := by
  have added := respected_staysTidy_build.addAll respected_staysTidy.toUpheld
  have each (function : Function) : Leaves Session.StaysTidy (Build.function isVerbose function) := by
    exact .of_both (Build.function · function)
      (respected_staysTidy_build.function respected_staysTidy function) isVerbose
  exact added.1.bind .trans fun _ => .forM .refl .trans each functions

/-- The predefined functions and those of a program make a tidy module, whatever was counted
before. -/
theorem tidy_of_functions {isVerbose : Bool} {functions : List Function} {earlier session : Session}
    (reached : Gives (Build.functions isVerbose functions) earlier.renew () session) :
    Tidy session.globals :=
  reached.leaves (staysTidy_functions isVerbose functions) tidy_nil

end Build

end LeftHand
