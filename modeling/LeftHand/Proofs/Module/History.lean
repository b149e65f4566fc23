import LeftHand.Lower.Script
import LeftHand.Proofs.Lower.Frame
import LeftHand.Proofs.Typing.Program

/-! Builds one after the other in one process. -/

namespace LeftHand

open Ir List

section Printers

variable {session : Session} {name : String} {counters : List (String × Nat)}

/-- A function is added behind a global that it uses. -/
theorem gives_behind {helper : Global} {first : Build Global} {signature : Signature}
    {body : Global → Emit Unit} {final : Draft} {between : Session}
    (extended : between = ⟨session.globals ++ [helper], counters, session.casts⟩)
    (gave : Gives first session helper between) (own : session.isTaken (functionName name) = false)
    (differ : helper.name ≠ functionName name)
    (written : Gives (body helper) (.opening between (functionName name) signature) () final)
    (alone : final.session = between ∧ final.function.name = functionName name ∧ final.strings = []) :
    ∃ added : List Global, added.map Global.name = [helper.name, functionName name] ∧
      Gives (first >>= fun helper => Build.define (functionName name) signature (body helper)) session ()
        ⟨session.globals ++ added, counters, session.casts⟩ := by
  obtain ⟨same, named, none⟩ := alone
  have apart : between.isTaken (functionName name) = false := by
    rw [extended, Session.isTaken, any_append, ← Bool.or_assoc, ← Session.isTaken, own]
    simpa using differ
  refine ⟨[helper, .function final.function], by rw [← named]; rfl,
    gives_bind.mpr ⟨helper, between, gave, gives_define.mpr ⟨apart, final, written, ?_⟩⟩⟩
  rw [Draft.close, Draft.globals, same, none, extended, append_cons]

/-- A printing function is added behind its format, which gets a name that is not taken. -/
theorem gives_printer {chosen formatName : String}
    (numbered : constantName session.counters formatName = (chosen, counters))
    (free : session.isTaken chosen = false) (own : session.isTaken (functionName name) = false)
    (differ : chosen ≠ functionName name) (format : String) (param : Ir.Ty) :
    ∃ added : List Global, added.map Global.name = [chosen, functionName name] ∧
      Gives (do
        let format ← Build.addString format formatName true
        Build.define (functionName name) ⟨.void, [param], false⟩
          (Predefined.printArgument Libc.printf.global format)) session ()
        ⟨session.globals ++ added, counters, session.casts⟩ := by
  let constant := Global.string chosen (constantBytes format)
  let extended : Session := ⟨session.globals ++ [constant], counters, session.casts⟩
  have formatted : Gives (Build.addString format formatName true) session constant extended := by
    simp only [Build.addString, if_true, gives_bind, gives_get, gives_modify, gives_addGlobal,
      gives_pure]
    refine ⟨_, _, ⟨rfl, rfl⟩, (), _, rfl, (), extended, ?_, ?_, rfl⟩
    · rw [numbered]
      exact ⟨free, rfl⟩
    · rw [numbered]
  -- The code is written step by step, whatever the format and the names that were counted.
  exact gives_behind rfl formatted own differ rfl ⟨rfl, rfl, rfl⟩

theorem gives_addWriteLine (missing : session.global? Libc.puts.name = none)
    (free : session.isTaken Libc.puts.name = false)
    (own : session.isTaken (functionName Predefined.writeLine.name) = false) :
    ∃ added : List Global,
      added.map Global.name = [Libc.puts.name, functionName Predefined.writeLine.name] ∧
        Gives Predefined.addWriteLine session ()
          ⟨session.globals ++ added, session.counters, session.casts⟩ :=
  gives_behind rfl ((gives_libc_missing missing).mpr ⟨rfl, free, rfl⟩) own (by decide) rfl ⟨rfl, rfl, rfl⟩

theorem constantName_again {name : String} {n : Nat} (known : counters.lookup name = some n) :
    constantName counters name = (name ++ "." ++ toString (n + 1), setKey name (n + 1) counters) := by
  rw [constantName, known]

/-- The names that a later build gives to its globals before it stops. -/
def namesAgain (n m : Nat) : List String :=
  [Libc.printf.name, ".fmt.s" ++ "." ++ toString n, functionName Predefined.writeString.name,
    Libc.puts.name, functionName Predefined.writeLine.name, ".fmt.d" ++ "." ++ toString m,
    functionName Predefined.writeNumber.name]

theorem nodup_namesAgain (n m : Nat) : (".fmt.s" :: "" :: namesAgain n m).Nodup := by
  refine List.Nodup.of_map String.toList ?_
  simp [namesAgain, functionName, Libc.name, Predefined.name]

theorem Session.free_of_nodup {names : List String} (distinct : ("" :: names).Nodup) {count : Nat}
    (held : session.names = names.take count) {name : String} (member : name ∈ names.drop count) :
    session.isTaken name = false ∧ session.global? name = none := by
  -- The names that are held are those that come first.
  rw [← take_append_drop count names, ← held, ← cons_append, nodup_append] at distinct
  have absent : name ∉ "" :: session.names := fun earlier => distinct.2.2 _ earlier _ member rfl
  rw [mem_cons, not_or] at absent
  refine ⟨?_, global?_eq_none absent.2⟩
  rw [isTaken_eq, Bool.or_eq_false_iff]
  exact ⟨by simpa using absent.1, by simpa using absent.2⟩

/-- Where the formats have been asked for before, the predefined functions cannot be added: the
format of strings is not found under its name. -/
theorem addAll_stops {n m : Nat} (empty : session.globals = [])
    (strings : session.counters.lookup ".fmt.s" = some n)
    (numbers : session.counters.lookup ".fmt.d" = some m) :
    ∃ after : Session, StopsAt Predefined.addAll session (.missing ".fmt.s") after ∧
      after.names = namesAgain (n + 1) (m + 1) ∧ after.casts = session.casts ∧
        after.counters = setKey ".fmt.d" (m + 1) (setKey ".fmt.s" (n + 1) session.counters) := by
  obtain ⟨globals, counters, casts⟩ := session
  obtain rfl : globals = [] := empty
  obtain ⟨notNamed, distinct⟩ := nodup_cons.mp (nodup_namesAgain (n + 1) (m + 1))
  have later : (setKey ".fmt.s" (n + 1) counters).lookup ".fmt.d" = some m :=
    (lookup_setKey_of_ne (by decide) _ _).trans numbers
  -- The functions that print strings, lines and numbers are added, one behind the other.
  let declared : Session := ⟨[Libc.printf.global], counters, casts⟩
  have free {name : String} := @Session.free_of_nodup declared _ distinct 1 rfl name
  obtain ⟨one, oneNames, oneGiven⟩ := @gives_printer declared Predefined.writeString.name _ _ _
    (constantName_again strings) (free (by simp [namesAgain])).1 (free (by simp [namesAgain])).1
    (by simp [functionName, String.ext_iff]) "%s" .bytes
  let first : Session := ⟨[Libc.printf.global] ++ one, setKey ".fmt.s" (n + 1) counters, casts⟩
  have firstNames : first.names = (namesAgain (n + 1) (m + 1)).take 3 := by
    rw [Session.names, map_append, oneNames]
    rfl
  have free {name : String} := @Session.free_of_nodup first _ distinct 3 firstNames name
  obtain ⟨two, twoNames, twoGiven⟩ := @gives_addWriteLine first (free (by simp [namesAgain])).2
    (free (by simp [namesAgain])).1 (free (by simp [namesAgain])).1
  let second : Session := ⟨[Libc.printf.global] ++ one ++ two, setKey ".fmt.s" (n + 1) counters, casts⟩
  have secondNames : second.names = (namesAgain (n + 1) (m + 1)).take 5 := by
    rw [Session.names, map_append, map_append, oneNames, twoNames]
    rfl
  have free {name : String} := @Session.free_of_nodup second _ distinct 5 secondNames name
  obtain ⟨three, threeNames, threeGiven⟩ := @gives_printer second Predefined.writeNumber.name _ _ _
    (constantName_again later) (free (by simp [namesAgain])).1 (free (by simp [namesAgain])).1
    (by simp [functionName, String.ext_iff]) "%ld" .i64
  let third : Session := ⟨[Libc.printf.global] ++ one ++ two ++ three,
    setKey ".fmt.d" (m + 1) (setKey ".fmt.s" (n + 1) counters), casts⟩
  have thirdNames : third.names = namesAgain (n + 1) (m + 1) := by
    rw [Session.names, map_append, map_append, map_append, oneNames, twoNames, threeNames]
    rfl
  have oneAdded : Gives Predefined.writeString.add ⟨[], counters, casts⟩ () first :=
    gives_bind.mpr ⟨_, declared, (gives_libc_missing rfl).mpr ⟨rfl, rfl, rfl⟩, oneGiven⟩
  have threeAdded : Gives Predefined.writeNumber.add second () third :=
    gives_bind.mpr ⟨_, second, (gives_libc_found rfl).mpr ⟨rfl, rfl⟩, threeGiven⟩
  -- The format of strings is not there under its name.
  have missing : third.global? ".fmt.s" = none :=
    Session.global?_eq_none fun held => notNamed (mem_cons_of_mem _ (thirdNames ▸ held))
  have stopped : StopsAt Predefined.addWriteTruth third (.missing ".fmt.s") third := by
    refine Gives.stops ((gives_libc_found rfl).mpr ⟨rfl, rfl⟩) ?_
    rw [StopsAt, run_get_bind, missing]
    rfl
  refine ⟨third, ?_, thirdNames, rfl, rfl⟩
  exact oneAdded.stops (twoGiven.stops (threeAdded.stops stopped.bind))

end Printers

section Builds

variable {session : Session} {isVerbose : Bool} {program : Program}

/-- The casts that a build leaves. -/
def castsOfModule : List (String × List Nat) :=
  [(functionName Predefined.writeAddress.name, [0])]

/-- The state of a process behind its first build and some number of others. -/
structure Session.Used (session : Session) (count : Nat) : Prop where
  strings : session.counters.lookup ".fmt.s" = some count
  numbers : session.counters.lookup ".fmt.d" = some count
  casts : session.casts = castsOfModule

theorem adds_rest (isVerbose : Bool) (program : Program) :
    Build.Adds (do program.functions.forM (Build.function isVerbose); Build.wrapMain) :=
  (Leaves.forM .refl .trans (adds_function isVerbose) _).bind .trans fun _ => adds_wrapMain

theorem Predefined.base_castsOfModule : base castsOfModule = base [] := by
  decide +kernel

theorem Predefined.used_base : (base []).Used 0 := by
  have counted : (base []).counters.lookup ".fmt.s" = some 0 ∧
      (base []).counters.lookup ".fmt.d" = some 0 ∧ (base []).casts = castsOfModule := by
    decide +kernel
  exact ⟨counted.1, counted.2.1, counted.2.2⟩

theorem runOn_program {casts : List (String × List Nat)} (left : casts ∈ castsLeft) :
    (Build.program isVerbose program).runOn { casts } =
      Build.runOn (do program.functions.forM (Build.function isVerbose); Build.wrapMain)
        (Predefined.base casts) := by
  have added := Predefined.gives_addAll left
  -- What the module of the predefined functions is does not matter here.
  generalize Predefined.base casts = start at added ⊢
  exact run_bind_of_gives added

/-- A build behind others stops before it comes to the program. -/
theorem Session.Used.stops {count : Nat} (used : session.Used count) :
    ∃ after,
      (Build.program isVerbose program).runOn session.renew = (.error (.missing ".fmt.s"), after) ∧
      after.names = namesAgain (count + 1) (count + 1) ∧ after.Used (count + 1) := by
  obtain ⟨after, stops, names, casts, counters⟩ :=
    @addAll_stops session.renew count count rfl used.strings used.numbers
  refine ⟨after, stops.bind, names, ⟨?_, ?_, casts.trans used.casts⟩⟩
  · rw [counters, lookup_setKey_of_ne (by decide), lookup_setKey]
  · rw [counters, lookup_setKey]

/-- The state of a process behind builds one after the other, each of a new module. -/
def sessionBehind : List (Bool × Program) → Session → Session
  | [], session => session
  | (isVerbose, program) :: builds, session =>
    sessionBehind builds ((Build.program isVerbose program).runOn session.renew).2

/-- Every build of a process counts the formats once, whatever becomes of it. -/
theorem used_sessionBehind (builds : List (Bool × Program)) {count : Nat} (used : session.Used count) :
    (sessionBehind builds session).Used (count + builds.length) := by
  induction builds generalizing session count with
  | nil => exact used
  | cons build builds ih =>
    obtain ⟨isVerbose, program⟩ := build
    obtain ⟨after, stopped, _, usedAgain⟩ := @Session.Used.stops session isVerbose program count used
    rw [sessionBehind, stopped, length_cons, Nat.add_comm builds.length, ← Nat.add_assoc]
    exact ih usedAgain

theorem used_first (isVerbose : Bool) (program : Program) :
    ((Build.program isVerbose program).runOn {}).2.Used 0 := by
  have base := Predefined.used_base
  have ran := @runOn_program isVerbose program [] (by decide)
  generalize Predefined.base [] = start at base ran
  have onward := adds_rest isVerbose program start
  rw [ran]
  exact ⟨(onward.counts _ (by decide)).trans base.strings,
    (onward.counts _ (by decide)).trans base.numbers, onward.casts.trans base.casts⟩

theorem names_first (isVerbose : Bool) (program : Program) :
    (Predefined.base []).names <+: ((Build.program isVerbose program).runOn {}).2.names := by
  have ran := @runOn_program isVerbose program [] (by decide)
  generalize Predefined.base [] = start at ran ⊢
  rw [ran]
  exact (adds_rest isVerbose program start).names

/-- Every build of a process but the first stops alike, whatever it is given and whatever was built
before: its module lacks most of the predefined functions, and all of the program. Were the counters
cleared before it, it would end as in a process of its own. -/
theorem later_build_stops (first : Bool × Program) (others : List (Bool × Program)) (isVerbose : Bool)
    (program : Program) :
    let earlier := sessionBehind (first :: others) {}
    let fresh := (Build.program isVerbose program).runOn {}
    let again := (Build.program isVerbose program).runOn earlier.renew
    let cleared := (Build.program isVerbose program).runOn { earlier.renew with counters := [] }
    again.1 = .error (.missing ".fmt.s") ∧
      again.2.names = namesAgain (others.length + 1) (others.length + 1) ∧
        again.2.names ≠ fresh.2.names ∧ cleared = fresh := by
  intro earlier fresh again cleared
  have used : earlier.Used (0 + others.length) :=
    used_sessionBehind others (used_first first.1 first.2)
  rw [Nat.zero_add] at used
  obtain ⟨after, stopped, names, _⟩ := @Session.Used.stops earlier isVerbose program _ used
  refine ⟨congrArg Prod.fst stopped, (congrArg (·.2.names) stopped).trans names, ?_, ?_⟩
  · -- The module of a first build has more globals than that.
    intro same
    have short : again.2.names.length = 7 := by
      rw [congrArg (·.2.names) stopped, names]
      rfl
    have long : (Predefined.base []).names.length = 23 := by decide +kernel
    have held := (names_first isVerbose program).length_le
    rw [long, ← same, short] at held
    omega
  · -- The casts that are left are those that every build makes.
    have casts : earlier.renew.casts = castsOfModule := used.casts
    have left : castsOfModule ∈ castsLeft := by decide
    have started : { earlier.renew with counters := [] } = ({ casts := castsOfModule } : Session) := by
      rw [← casts]
      rfl
    calc cleared
      _ = (Build.program isVerbose program).runOn { casts := castsOfModule } := by rw [← started]
      _ = fresh := by
        rw [runOn_program left, Predefined.base_castsOfModule]
        exact (runOn_program (by decide)).symm

/-- A program whose start function gives zero. -/
def zeroReturned : Program :=
  ⟨⟨1, 1⟩, [⟨⟨1, 1⟩, .decimal ⟨1, 5⟩, ⟨⟨1, 10⟩, "start"⟩, [],
    ⟨⟨1, 16⟩, [.ret ⟨1, 19⟩ (some (.decimal ⟨1, 23⟩ 0))]⟩⟩]⟩

/-- A program that can be built cannot be built again in the same process. -/
theorem not_built_again :
    let once := (Build.program false zeroReturned).runOn {}
    let again := (Build.program false zeroReturned).runOn once.2.renew
    once.1.isOk = true ∧ again.1 = .error (.missing ".fmt.s") := by
  decide +kernel

end Builds

end LeftHand
