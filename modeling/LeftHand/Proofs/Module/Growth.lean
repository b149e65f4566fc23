import LeftHand.Proofs.Lower.Literals
import LeftHand.Proofs.Module.History

/-!
Modules only grow: a function is added behind what a module holds, followed by the string constants
of its literals, and nothing that comes later changes it. The start function alone is changed once
more, when the entry point puts its calls into it.
-/

namespace LeftHand

open List

theorem Gives.leaves {σ α : Type} {kept : σ → σ → Prop} {step : ExceptT Fault (StateM σ) α}
    {before after : σ} {value : α} (given : Gives step before value after) (leaves : Leaves kept step) :
    kept before after := by
  have result := leaves before
  rwa [given] at result

/-- Where a sequence has been left by its first step, it goes on with steps that keep a relation. -/
theorem Leaves.behind {σ α β : Type} {kept : σ → σ → Prop} (refl : ∀ state, kept state state)
    {first : ExceptT Fault (StateM σ) α} {next : α → ExceptT Fault (StateM σ) β}
    (others : ∀ value, Leaves kept (next value)) (state : σ) :
    kept (first.run.run state : Except Fault α × σ).2
      ((first >>= next).run.run state : Except Fault β × σ).2 := by
  simp only [ExceptT.run, StateT.run, Bind.bind, ExceptT.bind, ExceptT.mk, StateT.bind]
  rcases first state with ⟨fault | value, between⟩
  · exact refl between
  · exact others value between

/-- A module later on: what it held is still there, in the same places. -/
def Session.Extends (before after : Session) : Prop :=
  before.globals <+: after.globals

/-- A module later on, in which what has one name can have been changed. -/
def Session.KeepsBut (owner : String) (before after : Session) : Prop :=
  ∀ (i : Nat) (global : Ir.Global), before.globals[i]? = some global → global.name ≠ owner →
    after.globals[i]? = some global

/-- Adds the predefined functions, and the functions of a program behind them. -/
def Build.functions (isVerbose : Bool) (functions : List Function) : Build Unit := do
  Predefined.addAll
  functions.forM (Build.function isVerbose)

section Later

variable {owner : String} {one two three : Session}

theorem Session.Extends.refl (session : Session) : session.Extends session :=
  prefix_refl _

theorem Session.Extends.trans (first : one.Extends two) (second : two.Extends three) :
    one.Extends three :=
  List.IsPrefix.trans first second

theorem Session.Extends.keepsBut (first : one.Extends two) : one.KeepsBut owner two := by
  intro i global located _
  obtain ⟨added, whole⟩ := first
  have inside : i < one.globals.length := (List.getElem?_eq_some_iff.mp located).1
  rw [← whole, getElem?_append_left inside, located]

theorem Session.KeepsBut.refl (session : Session) : session.KeepsBut owner session :=
  fun _ _ located _ => located

theorem Session.KeepsBut.trans (first : one.KeepsBut owner two) (second : two.KeepsBut owner three) :
    one.KeepsBut owner three := by
  intro i global located other
  exact second i global (first i global located other) other

theorem Session.keepsBut_replace (session : Session) (changed : Ir.Function) :
    session.KeepsBut owner (session.replace owner changed) := by
  intro i global located other
  simp [replace, located, other]

end Later

section Steps

theorem extends_addGlobal (global : Ir.Global) : Leaves Session.Extends (Build.addGlobal global) := by
  refine .bind .trans .refl fun session => ?_
  have added : Leaves Session.Extends (modify fun session : Session =>
      { session with globals := session.globals ++ [global] }) := fun _ => prefix_append _ _
  split
  · exact .bind .trans .refl fun _ => added
  · exact added

theorem extends_libc (libc : Libc) : Leaves Session.Extends (Build.libc libc) := by
  refine .bind .trans .refl fun session => ?_
  split
  · exact .refl
  · exact (extends_addGlobal _).bind .trans fun _ => .refl

/-- A function is added behind what is there, with its constants behind it. -/
theorem extends_define (name : String) (signature : Ir.Signature) {body : Emit Unit}
    (onward : Leaves Draft.Onward body) : Leaves Session.Extends (Build.define name signature body) := by
  intro before
  rw [run_define]
  split
  · exact .refl before
  · -- The module before the function is part of the draft, and does not change.
    have same := (onward (.opening before name signature)).globals
    simp only [Session.Extends, Draft.close, Draft.globals, same]
    exact prefix_append _ _

theorem extends_function (isVerbose : Bool) (function : Function) :
    Leaves Session.Extends (Build.function isVerbose function) := by
  rw [Build.function]
  split
  · exact .refl
  · exact extends_define _ _ (onward_lowerFunctionBody isVerbose function)

theorem extends_functions (isVerbose : Bool) (functions : List Function) :
    Leaves Session.Extends (functions.forM (Build.function isVerbose)) :=
  .forM .refl .trans (extends_function isVerbose) functions

theorem keepsBut_insertCall (owner : String) (position : Nat) (callee : Ir.Global)
    (arguments : List Ir.Value) (base : String) :
    Leaves (Session.KeepsBut owner) (Build.insertCall owner position callee arguments base) := by
  intro before
  rw [Build.insertCall]
  split
  · exact .refl before
  · rw [run_get_bind]
    split
    · exact .refl before
    · exact before.keepsBut_replace _

theorem keepsBut_wrapMain : Leaves (Session.KeepsBut (functionName "start")) Build.wrapMain := by
  have extending {α : Type} {step : Build α} (extends_ : Leaves Session.Extends step) :
      Leaves (Session.KeepsBut (functionName "start")) step :=
    fun before => (extends_ before).keepsBut
  intro before
  rw [Build.wrapMain, run_get_bind]
  split
  · exact .refl before
  · rename_i start found
    -- What has been found is a function of that name.
    rw [(Session.start?_eq_some found).2.1]
    refine (extending (extends_libc .time)).bind .trans (fun time => ?_) before
    refine (extending (extends_libc .srand)).bind .trans fun srand => ?_
    refine (keepsBut_insertCall _ _ _ _ _).bind .trans fun now => ?_
    refine (keepsBut_insertCall _ _ _ _ _).bind .trans fun _ => extending (extends_define _ _ ?_)
    exact (respected_leaves.bind (respected_leaves.call _ _ _) fun _ =>
      respected_leaves.bind (respected_leaves.cast _ _ _ _) fun _ => respected_leaves.exit _).1

end Steps

section Functions

variable {isVerbose : Bool} {function : Function} {session : Session}

theorem runOn_function_refused
    (refused : function.signature.isOk = false ∨
      session.isTaken (functionName function.ident.text) = true) :
    ∃ fault, (Build.function isVerbose function).runOn session = (.error fault, session) := by
  rw [Build.function, ← Function.signature, Build.runOn]
  cases typed : function.signature with
  | error fault => exact ⟨fault, rfl⟩
  | ok signature =>
    have taken : session.isTaken (functionName function.ident.text) = true :=
      refused.resolve_left (by simp [typed, Except.isOk, Except.toBool])
    refine ⟨.duplicate (functionName function.ident.text), ?_⟩
    rw [run_define, if_pos taken]

/-- A function that has been begun stands behind the module, and the constants of its first literals
stand behind it; if it has been finished, those of all its literals. -/
theorem runOn_function_begun (typed : function.signature.isOk = true)
    (free : session.isTaken (functionName function.ident.text) = false) :
    ∃ code texts,
      ((Build.function isVerbose function).runOn session).2.globals = session.globals ++
        .function code :: constantsFrom (constantCount session.counters) texts ∧
      code.name = functionName function.ident.text ∧ texts <+: function.literals ∧
      (((Build.function isVerbose function).runOn session).1.isOk = true →
        texts = function.literals ∧
          constantCount ((Build.function isVerbose function).runOn session).2.counters =
            constantCount session.counters + function.literals.length) := by
  obtain ⟨signature, typed⟩ : ∃ signature, function.signature = .ok signature := by
    cases given : function.signature with
    | error => simp [given, Except.isOk, Except.toBool] at typed
    | ok signature => exact ⟨signature, rfl⟩
  have ran : (Build.function isVerbose function).runOn session =
      let ended : Except Fault Unit × Draft := (lowerFunctionBody isVerbose function).run.run
        (.opening session (functionName function.ident.text) signature)
      (ended.1, ended.2.close) := by
    rw [Build.function, ← Function.signature, Build.runOn, typed]
    rw [run_define, if_neg (by simp [free])]
  have onward := onward_lowerFunctionBody isVerbose function
    (.opening session (functionName function.ident.text) signature)
  obtain ⟨texts, isPrefix, strings, whole⟩ := Stores.lowerFunctionBody isVerbose function session
    (functionName function.ident.text) signature
  rw [ran]
  dsimp only
  refine ⟨_, texts, ?_, onward.name, isPrefix, fun isOk => ?_⟩
  · rw [Draft.close, Draft.globals, onward.globals, strings]
    rfl
  · obtain ⟨_, final, given⟩ := Gives.of_isOk isOk
    have finished := whole _ final given
    rw [given]
    exact finished

/-- Later functions and the entry point change no global that a function of the program has added,
the start function excepted. -/
theorem keepsBut_program (isVerbose : Bool) (pos : Pos) (front : List Function) (function : Function)
    (back : List Function) (session : Session) :
    Session.KeepsBut (functionName "start")
      ((Build.functions isVerbose (front ++ [function])).runOn session).2
      ((Build.program isVerbose ⟨pos, front ++ function :: back⟩).runOn session).2 := by
  have later : Leaves (Session.KeepsBut (functionName "start")) (do
      back.forM (Build.function isVerbose); Build.wrapMain : Build Unit) :=
    Leaves.bind .trans (fun before => (extends_functions isVerbose back before).keepsBut)
      fun _ => keepsBut_wrapMain
  -- The build of the whole program goes on where the functions up to this one have led.
  have split : Build.program isVerbose ⟨pos, front ++ function :: back⟩ =
      Build.functions isVerbose (front ++ [function]) >>= fun _ =>
        (do back.forM (Build.function isVerbose); Build.wrapMain) := by
    rw [Build.program, Build.functions, append_cons front function back]
    simp only [forM_eq_forM, forM_append, bind_assoc]
  rw [split]
  exact Leaves.behind .refl (fun _ => later) session

/-- **Functions only append**: in any module and for any function, whether it can be added or not,
everything that was there stays as it is and where it is. A function that cannot be begun adds
nothing; any other adds its code under its name, and behind it the string constants of its first
literals in the order in which they are lowered, or of all of them if it is finished. So whatever
functions follow, each function of a program is the same, unless it is the start function. -/
theorem function_only_appends (isVerbose : Bool) :
    (∀ (session : Session) (function : Function),
      let ended := (Build.function isVerbose function).runOn session
      if function.signature.isOk = true ∧
          session.isTaken (functionName function.ident.text) = false then
        ∃ code texts,
          ended.2.globals = session.globals ++
            .function code :: constantsFrom (constantCount session.counters) texts ∧
          code.name = functionName function.ident.text ∧ texts <+: function.literals ∧
          (ended.1.isOk = true → texts = function.literals)
      else ended.1.isOk = false ∧ ended.2 = session) ∧
    ∀ (session : Session) (pos : Pos) (front : List Function) (function : Function)
        (back : List Function) (i : Nat) (global : Ir.Global),
      ((Build.functions isVerbose (front ++ [function])).runOn session).2.globals[i]? = some global →
        global.name ≠ functionName "start" →
        ((Build.program isVerbose ⟨pos, front ++ function :: back⟩).runOn session).2.globals[i]? =
          some global := by
  constructor
  · intro session function ended
    split
    · rename_i begun
      obtain ⟨code, texts, globals, named, isPrefix, whole⟩ :=
        @runOn_function_begun isVerbose function session begun.1 begun.2
      exact ⟨code, texts, globals, named, isPrefix, fun isOk => (whole isOk).1⟩
    · rename_i stopped
      have refused : function.signature.isOk = false ∨
          session.isTaken (functionName function.ident.text) = true := by
        by_cases typed : function.signature.isOk = true
        · exact .inr (by simpa [typed] using stopped)
        · exact .inl (by simpa using typed)
      obtain ⟨fault, ran⟩ := @runOn_function_refused isVerbose function session refused
      exact ⟨by rw [show ended = (.error fault, session) from ran]; rfl, congrArg Prod.snd ran⟩
  · intro session pos front function back i global
    exact keepsBut_program isVerbose pos front function back session i global

/-- A function that prints a text. -/
def greeting : Function :=
  ⟨⟨1, 1⟩, .void ⟨1, 5⟩, ⟨⟨1, 10⟩, "greet"⟩, [],
    ⟨⟨1, 16⟩, [.expr ⟨1, 19⟩ (.exec ⟨1, 19⟩ ⟨⟨1, 24⟩, "wr1te"⟩ [.string ⟨1, 33⟩ "hi"])]⟩⟩

/-- Behind the predefined functions, the constant of a function that prints a text stays where it is
when the start function follows. -/
theorem function_only_appends_greeting :
    (((Build.functions false ([] ++ [greeting])).runOn {}).2.globals[24]? =
        some (.string ".str" (constantBytes "hi")) ∧ ".str" ≠ functionName "start") ∧
      ((Build.program false ⟨⟨1, 1⟩, [] ++ greeting :: zeroReturned.functions⟩).runOn {}).2.globals[24]? =
        some (.string ".str" (constantBytes "hi")) := by
  have made : ((Build.functions false ([] ++ [greeting])).runOn {}).2.globals[24]? =
      some (.string ".str" (constantBytes "hi")) := by
    decide +kernel
  refine ⟨⟨made, by decide⟩, ?_⟩
  exact (function_only_appends false).2 {} ⟨1, 1⟩ [] greeting zeroReturned.functions 24 _ made (by decide)

end Functions

end LeftHand
