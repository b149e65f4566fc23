import LeftHand.Proofs.Lower.Parallel
import LeftHand.Proofs.Lower.Program

/-! What a step leaves alone, whether it succeeds or fails. -/

namespace LeftHand

open Ir List

section Leaves

variable {σ α β : Type} {kept : σ → σ → Prop}

/-- A step that keeps a relation between the states before and behind it, even if it fails. -/
def Leaves (kept : σ → σ → Prop) (step : ExceptT Fault (StateM σ) α) : Prop :=
  ∀ before, kept before (step.run.run before : Except Fault α × σ).2

/-- A sequence stops behind its first step, or goes on from there. -/
theorem Leaves.bind {first : ExceptT Fault (StateM σ) α} {next : α → ExceptT Fault (StateM σ) β}
    (trans : ∀ {one two three}, kept one two → kept two three → kept one three)
    (before : Leaves kept first) (behind : ∀ value, Leaves kept (next value)) :
    Leaves kept (first >>= next) := by
  intro state
  have started := before state
  simp only [ExceptT.run, StateT.run, Bind.bind, ExceptT.bind, ExceptT.mk, StateT.bind] at started ⊢
  rcases ran : first state with ⟨fault | value, between⟩
  · rw [ran] at started
    exact started
  · rw [ran] at started
    exact trans started (behind value between)

theorem Leaves.forM {step : α → ExceptT Fault (StateM σ) PUnit} (refl : ∀ state, kept state state)
    (trans : ∀ {one two three}, kept one two → kept two three → kept one three)
    (each : ∀ item, Leaves kept (step item)) (items : List α) : Leaves kept (items.forM step) := by
  induction items with
  | nil => exact fun state => refl state
  | cons item items ih => exact (each item).bind trans fun _ => ih

/-- Two steps that keep a relation. -/
abbrev LeaveBoth (kept : σ → σ → Prop) ⦃α : Type⦄ (quiet loud : ExceptT Fault (StateM σ) α) : Prop :=
  Leaves kept quiet ∧ Leaves kept loud

theorem Leaves.of_both (step : Bool → ExceptT Fault (StateM σ) α)
    (both : LeaveBoth kept (step false) (step true)) (isVerbose : Bool) :
    Leaves kept (step isVerbose) := by
  cases isVerbose with
  | false => exact both.1
  | true => exact both.2

/-- A relation that holds along sequences is kept if the steps that change a function keep it. -/
theorem Emit.Upheld.of_leaves {kept : Draft → Draft → Prop} (refl : ∀ draft, kept draft draft)
    (trans : ∀ {one two three}, kept one two → kept two three → kept one three)
    (takeName : ∀ base, Leaves kept (Emit.takeName base))
    (modifyBlock : ∀ change, Leaves kept (modify (·.modifyBlock change) : Emit PUnit))
    (addBlock : ∀ base, Leaves kept (Emit.addBlock base))
    (enter : ∀ block, Leaves kept (Emit.enter block)) : Emit.Upheld (LeaveBoth kept) where
  pure _ := ⟨refl, refl⟩
  bind before behind := ⟨before.1.bind trans fun value => (behind value).1,
    before.2.bind trans fun value => (behind value).2⟩
  fails _ := ⟨refl, refl⟩
  report _ := ⟨refl, refl⟩
  get := ⟨refl, refl⟩
  takeName base := ⟨takeName base, takeName base⟩
  modifyBlock change := ⟨modifyBlock change, modifyBlock change⟩
  addBlock base := ⟨addBlock base, addBlock base⟩
  enter block := ⟨enter block, enter block⟩

end Leaves

/-- Counters that can differ in the number of string constants only. -/
def SameCounts (before after : List (String × Nat)) : Prop :=
  ∀ name, name ≠ ".str" → after.lookup name = before.lookup name

theorem lookup_setKey_of_ne {α : Type} {key name : String} (other : name ≠ key) (value : α)
    (entries : List (String × α)) : (setKey key value entries).lookup name = entries.lookup name := by
  have apart : (name == key) = false := beq_eq_false_iff_ne.mpr other
  induction entries with
  | nil => rw [setKey, lookup_cons, apart]
  | cons entry entries ih =>
    obtain ⟨given, old⟩ := entry
    rw [setKey]
    split
    · -- The entry that is changed is not the one that is looked up.
      rename_i same
      obtain rfl : given = key := same
      rw [lookup_cons, lookup_cons, apart]
    · rw [lookup_cons, lookup_cons, ih]

theorem sameCounts_constantName (counters : List (String × Nat)) :
    SameCounts counters (constantName counters ".str").2 := by
  intro name other
  rw [constantName]
  split <;> exact lookup_setKey_of_ne other _ _

/-- A draft later on: the module before the function is the same, and constants have been added. -/
structure Draft.Onward (before after : Draft) : Prop where
  globals : after.session.globals = before.session.globals
  casts : after.session.casts = before.session.casts
  counts : SameCounts before.session.counters after.session.counters
  name : after.function.name = before.function.name
  strings : before.strings <+: after.strings

namespace Draft.Onward

theorem refl (draft : Draft) : draft.Onward draft :=
  ⟨rfl, rfl, fun _ _ => rfl, rfl, prefix_refl _⟩

theorem trans {one two three : Draft} (first : one.Onward two) (second : two.Onward three) :
    one.Onward three where
  globals := second.globals.trans first.globals
  casts := second.casts.trans first.casts
  counts name other := (second.counts name other).trans (first.counts name other)
  name := second.name.trans first.name
  strings := first.strings.trans second.strings

end Draft.Onward

/-- Whatever is written into a draft leads onward, in quiet and in verbose runs. -/
theorem respected_leaves : Emit.Respected (LeaveBoth Draft.Onward) where
  -- Of the basic steps only a string constant changes what is not the function's own.
  toUpheld := .of_leaves .refl .trans
    (fun _ _ => ⟨rfl, rfl, fun _ _ => rfl, rfl, prefix_refl _⟩)
    (fun _ _ => ⟨rfl, rfl, fun _ _ => rfl, rfl, prefix_refl _⟩)
    (fun _ _ => ⟨rfl, rfl, fun _ _ => rfl, rfl, prefix_refl _⟩)
    fun _ _ => ⟨rfl, rfl, fun _ _ => rfl, rfl, prefix_refl _⟩
  addString text := by
    have added : Leaves Draft.Onward (Emit.addString text) := by
      intro before
      rw [run_addString]
      split
      · exact ⟨rfl, rfl, sameCounts_constantName _, rfl, prefix_refl _⟩
      · exact ⟨rfl, rfl, sameCounts_constantName _, rfl, prefix_append _ _⟩
    exact ⟨added, added⟩

theorem onward_lowerFunctionBody (isVerbose : Bool) (function : Function) :
    Leaves Draft.Onward (lowerFunctionBody isVerbose function) :=
  .of_both (lowerFunctionBody · function) (respected_leaves.lowerFunctionBody function) isVerbose

/-- A session later on: globals have been added behind those that were there, each under its
name. -/
structure Session.Onward (before after : Session) : Prop where
  names : before.names <+: after.names
  casts : after.casts = before.casts
  counts : SameCounts before.counters after.counters

namespace Session.Onward

theorem refl (session : Session) : session.Onward session :=
  ⟨prefix_refl _, rfl, fun _ _ => rfl⟩

theorem trans {one two three : Session} (first : one.Onward two) (second : two.Onward three) :
    one.Onward three where
  names := first.names.trans second.names
  casts := second.casts.trans first.casts
  counts name other := (second.counts name other).trans (first.counts name other)

end Session.Onward

section Build

/-- A step of building that only adds to the module. -/
abbrev Build.Adds {α : Type} (step : Build α) : Prop :=
  Leaves Session.Onward step

theorem adds_addGlobal (global : Global) : Build.Adds (Build.addGlobal global) := by
  refine .bind .trans .refl fun session => ?_
  have added : Build.Adds (modify fun session : Session =>
      { session with globals := session.globals ++ [global] }) := by
    intro before
    refine ⟨?_, rfl, fun _ _ => rfl⟩
    change before.names <+: (before.globals ++ [global]).map Global.name
    rw [map_append]
    exact prefix_append _ _
  split
  · exact .bind .trans .refl fun _ => added
  · exact added

theorem adds_libc (libc : Libc) : Build.Adds (Build.libc libc) := by
  refine .bind .trans .refl fun session => ?_
  split
  · exact .refl
  · exact (adds_addGlobal _).bind .trans fun _ => .refl

/-- A function stands behind what the module held before, whether it could be finished or not. -/
theorem adds_define (name : String) (signature : Signature) {body : Emit Unit}
    (onward : Leaves Draft.Onward body) : Build.Adds (Build.define name signature body) := by
  intro before
  rw [run_define]
  split
  · exact .refl before
  · -- Even a function that cannot be finished is added, behind its constants.
    have written := onward (.opening before name signature)
    refine ⟨?_, written.casts, written.counts⟩
    simp only [Session.names, Draft.close, Draft.globals, written.globals, map_append]
    exact prefix_append _ _

theorem adds_insertCall (owner : String) (position : Nat) (callee : Global)
    (arguments : List Value) (base : String) :
    Build.Adds (Build.insertCall owner position callee arguments base) := by
  intro before
  rw [Build.insertCall]
  split
  · exact .refl before
  · rw [run_get_bind]
    split
    · exact .refl before
    · rename_i operation _ _ function found
      -- The function was looked up by its name.
      have named : (function.insertAtEntry position base operation).2.name = owner := by
        obtain ⟨global, located, isFunction⟩ := Option.bind_eq_some_iff.mp found
        have same := find?_some located
        rw [Global.function?_eq_some.mp isFunction] at same
        exact beq_iff_eq.mp same
      refine ⟨?_, rfl, fun _ _ => rfl⟩
      change before.names <+:
        (before.replace owner (function.insertAtEntry position base operation).2).names
      rw [Session.names_replace before named]

theorem adds_function (isVerbose : Bool) (function : Function) :
    Build.Adds (Build.function isVerbose function) := by
  rw [Build.function]
  split
  · exact .refl
  · exact adds_define _ _ (onward_lowerFunctionBody isVerbose function)

theorem adds_wrapMain : Build.Adds Build.wrapMain := by
  refine .bind .trans .refl fun session => ?_
  split
  · exact .refl
  · refine (adds_libc _).bind .trans fun time => (adds_libc _).bind .trans fun srand => ?_
    refine (adds_insertCall _ _ _ _ _).bind .trans fun now => ?_
    refine (adds_insertCall _ _ _ _ _).bind .trans fun _ => adds_define _ _ ?_
    exact (respected_leaves.bind (respected_leaves.call _ _ _) fun _ =>
      respected_leaves.bind (respected_leaves.cast _ _ _ _) fun _ => respected_leaves.exit _).1

end Build

end LeftHand
