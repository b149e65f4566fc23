import LeftHand.Proofs.Ir.Constant
import LeftHand.Proofs.Module.EntryPoint

/-!
The string constants of a whole program: those of its live literals, one after the other, and no
others.
-/

namespace LeftHand

open Ir List

/-- The live string literals of a program, in the order in which they are lowered. -/
def Program.literals (program : Program) : List String :=
  program.functions.flatMap Function.literals

/-- Whether a global has a name that string literals get. -/
def Ir.Global.isLiteral (global : Global) : Bool :=
  ".str".toList.isPrefixOf global.name.toList

/-- The constants of the literals in a module. -/
def Session.literals (session : Session) : List Global :=
  session.globals.filter Global.isLiteral

section Names

theorem isLiteral_constant (n : Nat) (bytes : List UInt8) :
    (Global.string (constantNumbered n) bytes).isLiteral = true := by
  rw [Global.isLiteral, Global.name_string, isPrefixOf_iff_prefix]
  exact prefix_constantNumbered n

theorem filter_constantsFrom (count : Nat) (texts : List String) :
    (constantsFrom count texts).filter Global.isLiteral = constantsFrom count texts := by
  induction texts generalizing count with
  | nil => rfl
  | cons text texts ih => rw [constantsFrom, filter_cons_of_pos (isLiteral_constant _ _), ih]

theorem isLiteral_function {code : Ir.Function} {text : String} (named : code.name = functionName text) :
    (Global.function code).isLiteral = false := by
  rw [Global.isLiteral, Global.name_function, named, functionName, String.toList_append]
  rfl

/-- Functions of the library are no literals. -/
theorem isLiteral_libc (libc : Libc) : libc.global.isLiteral = false := by
  cases libc <;> decide

/-- The constants of predefined functions are not those of literals, whatever their numbers. -/
theorem isLiteral_predefined {name : String} (ready : name ∈ Predefined.constantNames)
    (counters : List (String × Nat)) (bytes : List UInt8) :
    (Global.string (constantName counters name).1 bytes).isLiteral = false := by
  -- A number can stand behind the name, which differs from the others from the start.
  have begins : ∃ more, (constantName counters name).1.toList = name.toList ++ more := by
    rw [constantName]
    split
    · rename_i n _
      exact ⟨".".toList ++ (toString (n + 1)).toList, by simp only [String.toList_append, append_assoc]⟩
    · exact ⟨[], (List.append_nil _).symm⟩
  obtain ⟨more, begins⟩ := begins
  rw [Global.isLiteral, Global.name_string, begins]
  simp only [Predefined.constantNames, mem_cons, not_mem_nil, or_false] at ready
  rcases ready with rfl | rfl | rfl | rfl | rfl | rfl | rfl <;> rfl

end Names

section Predefined

/-- A module with the same constants of literals, and the same number of them counted. -/
def Session.SameLiterals (before after : Session) : Prop :=
  after.literals = before.literals ∧ after.counters.lookup ".str" = before.counters.lookup ".str"

theorem Session.SameLiterals.refl (session : Session) : session.SameLiterals session :=
  ⟨rfl, rfl⟩

theorem Session.SameLiterals.trans {one two three : Session} (first : one.SameLiterals two)
    (second : two.SameLiterals three) : one.SameLiterals three :=
  ⟨second.1.trans first.1, second.2.trans first.2⟩

theorem sameLiterals_addGlobal {global : Global} (other : global.isLiteral = false) :
    Leaves Session.SameLiterals (Build.addGlobal global) := by
  intro before
  rw [Build.addGlobal, run_get_bind]
  split
  · exact .refl before
  · refine ⟨?_, rfl⟩
    show (before.globals ++ [global]).filter _ = _
    rw [filter_append, filter_cons_of_neg (by simp [other]), filter_nil, List.append_nil]
    rfl

theorem sameLiterals_libc (libc : Libc) : Leaves Session.SameLiterals (Build.libc libc) := by
  refine .bind .trans .refl fun session => ?_
  split
  · exact .refl
  · exact (sameLiterals_addGlobal (isLiteral_libc libc)).bind .trans fun _ => .refl

theorem sameLiterals_string (text : String) {name : String} (ready : name ∈ Predefined.constantNames) :
    Leaves Session.SameLiterals (Build.addString text name true) := by
  have apart : ".str" ≠ name := by
    rintro rfl
    exact absurd ready (by decide)
  have counted (counters : List (String × Nat)) :
      (constantName counters name).2.lookup ".str" = counters.lookup ".str" := by
    rw [constantName]
    split <;> exact lookup_setKey_of_ne apart _ _
  intro before
  rw [Build.addString, if_pos rfl, run_get_bind]
  -- The name is counted first, and then the constant is added if the name is not taken.
  have named : Session.SameLiterals before
      { before with counters := (constantName before.counters name).2 } := ⟨rfl, counted _⟩
  have added : Leaves Session.SameLiterals (do
      Build.addGlobal (.string (constantName before.counters name).1 (constantBytes text))
      return Global.string (constantName before.counters name).1 (constantBytes text)) :=
    (sameLiterals_addGlobal (isLiteral_predefined ready before.counters _)).bind .trans fun _ => .refl
  exact named.trans (added _)

theorem sameLiterals_define (name : String) (signature : Signature) {body : Emit Unit}
    (silent : Silent body) (onward : Leaves Draft.Onward body) :
    Leaves Session.SameLiterals (Build.define (functionName name) signature body) := by
  intro before
  rw [run_define]
  split
  · exact .refl before
  · obtain ⟨strings, counters⟩ := silent (.opening before (functionName name) signature)
    have written := onward (.opening before (functionName name) signature)
    refine ⟨?_, congrArg (List.lookup ".str") counters⟩
    have ours := isLiteral_function written.name
    simp only [Session.literals, Draft.close, Draft.globals, written.globals, strings, filter_append]
    rw [filter_cons_of_neg (by simp [ours])]
    exact List.append_nil _

/-- Drafts of which the later one goes on from the other without a string constant. -/
def Draft.Quietly (before after : Draft) : Prop :=
  SameStrings before after ∧ before.Onward after

theorem upheld_quietly : Emit.Upheld (LeaveBoth Draft.Quietly) := by
  have both {α : Type} {step : Emit α} (silent : LeaveBoth SameStrings step step)
      (onward : LeaveBoth Draft.Onward step step) : Leaves Draft.Quietly step :=
    fun before => ⟨silent.1 before, onward.1 before⟩
  exact .of_leaves (fun _ => ⟨⟨rfl, rfl⟩, .refl _⟩)
    (fun first second => ⟨first.1.trans second.1, first.2.trans second.2⟩)
    (fun _ => both (upheld_silent.takeName _) (respected_leaves.takeName _))
    (fun _ => both (upheld_silent.modifyBlock _) (respected_leaves.modifyBlock _))
    (fun _ => both (upheld_silent.addBlock _) (respected_leaves.addBlock _))
    fun _ => both (upheld_silent.enter _) (respected_leaves.enter _)

theorem sameLiterals_addAll : Leaves Session.SameLiterals Predefined.addAll := by
  have respected : Build.Respected (LeaveBoth Draft.Quietly) (LeaveBoth Session.SameLiterals) :=
    .of_leaves .refl .trans (fun _ => .refl) (fun _ => sameLiterals_libc _) sameLiterals_string
      fun name signature _ same => sameLiterals_define name signature
        (fun before => (same before).1) fun before => (same before).2
  exact (respected.addAll upheld_quietly).1

end Predefined

section Program

variable {isVerbose : Bool} {before after : Session} {functions : List Function}

/-- A function that has been added has added the constants of its literals, with the next
numbers. -/
theorem literals_of_function {function : Function}
    (built : Gives (Build.function isVerbose function) before () after) :
    after.literals = before.literals ++ constantsFrom (constantCount before.counters) function.literals ∧
      constantCount after.counters = constantCount before.counters + function.literals.length := by
  obtain ⟨signature, typed, free, _⟩ := gives_function.mp built
  obtain ⟨code, texts, globals, named, _, whole⟩ :=
    @runOn_function_begun isVerbose function before (by rw [typed]; rfl) free
  have ran : (Build.function isVerbose function).runOn before = (.ok (), after) := built
  rw [ran] at globals whole
  obtain ⟨rfl, count⟩ := whole rfl
  refine ⟨?_, count⟩
  rw [Session.literals, globals, filter_append,
    filter_cons_of_neg (by simp [isLiteral_function named]), filter_constantsFrom]
  rfl

/-- The literals of some functions follow each other, numbered on. -/
theorem literals_of_forM
    (built : Gives (functions.forM (Build.function isVerbose)) before () after) :
    after.literals = before.literals ++
        constantsFrom (constantCount before.counters) (functions.flatMap Function.literals) ∧
      constantCount after.counters =
        constantCount before.counters + (functions.flatMap Function.literals).length := by
  induction functions generalizing before with
  | nil =>
    obtain ⟨_, rfl⟩ := gives_pure.mp built
    exact ⟨(List.append_nil _).symm, rfl⟩
  | cons function functions ih =>
    obtain ⟨_, between, first, others⟩ := gives_bind.mp built
    obtain ⟨held, count⟩ := literals_of_function first
    obtain ⟨heldLater, countLater⟩ := ih others
    -- The others count on from where the first function ends.
    rw [flatMap_cons, constantsFrom_append, length_append, ← append_assoc, ← held, ← count]
    refine ⟨heldLater, ?_⟩
    rw [countLater, count]
    omega

theorem lookup_eq_of_constantCount {counters : List (String × Nat)} {count : Nat}
    (counted : constantCount counters = count) :
    counters.lookup ".str" = if count = 0 then none else some (count - 1) := by
  subst counted
  rw [constantCount]
  cases counters.lookup ".str" with
  | none => rfl
  | some n => simp

/-- The entry point leaves the constants as they are, and all names distinct. -/
theorem literals_of_wrapMain {earlier session : Session}
    (reached : Gives (Build.functions isVerbose functions) earlier.renew () session)
    (wrapped : Gives Build.wrapMain session () after) :
    after.literals = session.literals ∧ after.counters = session.counters ∧
      (after.globals.map Global.name).Nodup := by
  obtain ⟨start, found, _⟩ := gives_wrapMain.mp wrapped
  obtain ⟨front, code, back, changed, main, split, isStart, seeded, launches, given⟩ :=
    exists_wrapMain_of_hasStart reached (Session.hasStart_iff.mpr ⟨start, found⟩)
  obtain ⟨_, rfl⟩ := wrapped.unique given
  have tidy := tidy_of_functions reached
  have mainOther : (Global.function main).isLiteral = false := by
    rw [Global.isLiteral, Global.name_function, launches.name]
    decide
  refine ⟨?_, rfl, ?_⟩
  · -- Neither the start function nor what is added is a constant.
    have before := isLiteral_function isStart.name
    have behind := isLiteral_function (seeded.name.trans isStart.name)
    simp [Session.literals, split, before, behind, mainOther, isLiteral_libc]
  · have names : (front ++ .function changed :: back ++ [Libc.time.global, .function main]).map
        Global.name = session.names ++ [Libc.time.name, "main"] := by
      rw [Session.names, split]
      simp [seeded.name, launches.name, Libc.global, Ir.Function.declare]
    rw [names, nodup_append]
    refine ⟨tidy.distinct, by decide, fun name held other added same => ?_⟩
    obtain ⟨global, member, rfl⟩ := mem_map.mp held
    have apart := (tidy.familiar global member).name_ne
    rcases mem_cons.mp added with time | main
    · exact apart.1 (same.trans time)
    · exact apart.2 (same.trans (mem_singleton.mp main))

theorem getElem?_constantsFrom (count : Nat) (texts : List String) (i : Nat) :
    (constantsFrom count texts)[i]? =
      texts[i]?.map fun text => .string (constantNumbered (count + i)) (constantBytes text) := by
  induction texts generalizing count i with
  | nil => rfl
  | cons text texts ih =>
    cases i with
    | zero => rfl
    | succ i =>
      have shift : count + 1 + i = count + (i + 1) := by omega
      simp only [constantsFrom, getElem?_cons_succ, ih, shift]

/-- **String constants are exact**: in a module that was built with nothing counted before, the
globals whose names start like those of literals are the constants of the live literals of the
program, numbered in the order in which they are lowered. All globals have names of their own. The
constant of a literal is shown as an array of its bytes in UTF-8 and a zero, which is what stands
between its quotes, and the counter says how many there are. -/
theorem constants_exact {program : Program} {casts : List (String × List Nat)}
    (built : Gives (Build.program isVerbose program) { casts } () after) :
    after.literals = constantsFrom 0 program.literals ∧
    (after.globals.map Ir.Global.name).Nodup ∧
    (∀ (i : Nat) (text : String), program.literals[i]? = some text →
      after.literals[i]? = some (.string (constantNumbered i) (constantBytes text)) ∧
      ∃ body : List Char, (Ir.Global.string (constantNumbered i) (constantBytes text)).text =
          "@" ++ Ir.quoteName (constantNumbered i) ++ " = internal constant [" ++
            toString (text.utf8ByteSize + 1) ++ " x i8] c\"" ++ String.ofList body ++ "\"" ∧
        Ir.unescape body = text.toUTF8.toList ++ [0] ∧ '"' ∉ body) ∧
    after.counters.lookup ".str" =
      if program.literals.length = 0 then none else some (program.literals.length - 1) := by
  obtain ⟨_, base, added, built⟩ := gives_bind.mp built
  obtain ⟨_, session, functions, wrapped⟩ := gives_bind.mp built
  have reached : Gives (Build.functions isVerbose program.functions) ({ casts } : Session).renew ()
      session := gives_bind.mpr ⟨(), base, added, functions⟩
  obtain ⟨same, counters, distinct⟩ := literals_of_wrapMain reached wrapped
  -- Behind the predefined functions nothing has been counted yet.
  obtain ⟨none, uncounted⟩ := added.leaves sameLiterals_addAll
  have start : constantCount base.counters = 0 := by
    rw [constantCount, uncounted]
    rfl
  obtain ⟨held, count⟩ := literals_of_forM functions
  rw [none, start] at held
  rw [start, Nat.zero_add] at count
  have exact_ : after.literals = constantsFrom 0 program.literals := same.trans held
  refine ⟨exact_, distinct, fun i text located => ⟨?_, text_constant _ _⟩, ?_⟩
  · rw [exact_, getElem?_constantsFrom, located, Nat.zero_add]
    rfl
  · rw [counters]
    exact lookup_eq_of_constantCount count

/-- A program that prints a text in one function and another one, with a quote in it, in its start
function; a third one stands behind the return. -/
def greetings : Program :=
  let print (text : String) : Stmt := .expr ⟨1, 1⟩ (.exec ⟨1, 1⟩ ⟨⟨1, 1⟩, "wr1te"⟩ [.string ⟨1, 1⟩ text])
  ⟨⟨1, 1⟩, [greeting, ⟨⟨1, 1⟩, .decimal ⟨1, 1⟩, ⟨⟨1, 1⟩, "start"⟩, [],
    ⟨⟨1, 1⟩, [print "\"é\"", .ret ⟨1, 1⟩ (some (.decimal ⟨1, 1⟩ 0)), print "never"]⟩⟩]⟩

/-- Of the three literals of the program two are live, and have constants. -/
theorem constants_exact_greetings :
    ∃ after, Gives (Build.program false greetings) {} () after ∧
      after.literals = [.string ".str" (constantBytes "hi"), .string ".str.1" (constantBytes "\"é\"")] ∧
      after.counters.lookup ".str" = some 1 := by
  have built : ((Build.program false greetings).runOn {}).1.isOk = true := by decide +kernel
  have texts : greetings.literals = ["hi", "\"é\""] := by decide +kernel
  obtain ⟨_, after, given⟩ := Gives.of_isOk built
  obtain ⟨literals, _, _, counted⟩ := constants_exact given
  rw [texts] at literals counted
  exact ⟨after, given, literals, counted⟩

end Program

end LeftHand
