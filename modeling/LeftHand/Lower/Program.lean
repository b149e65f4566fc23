import LeftHand.Lower.Stmt

/-! Whole programs: the predefined functions, the functions of the program, and the entry point. -/

namespace LeftHand

/-- The function where a program starts: it takes nothing and gives a number. -/
def Session.start? (session : Session) : Option Ir.Function :=
  (session.globals.filterMap Ir.Global.function?).find? fun function =>
    function.name == functionName "start" && function.signature.result = .i64 &&
      function.signature.params.isEmpty

/-- Puts an instruction into the entry block of a function. -/
def Ir.Function.insertAtEntry (function : Ir.Function) (position : Nat) (base : String)
    (operation : Ir.Operation) : Ir.Value × Ir.Function :=
  let (name, scope) := function.scope.take base
  let blocks := function.blocks.modify 0 fun block =>
    { block with code := block.code.insertIdx position ⟨name, operation⟩ }
  (.register name operation.type, { function with scope, blocks })

/-- Puts a call into the entry block of a function of the module. -/
def Build.insertCall (owner : String) (position : Nat) (callee : Ir.Global)
    (arguments : List Ir.Value) (base : String) : Build Ir.Value := do
  match checkCall callee arguments with
  | .error fault => throw fault
  | .ok operation =>
    match ((← get).global? owner).bind Ir.Global.function? with
    | none => throw (.missing owner)
    | some function =>
      let (value, changed) := function.insertAtEntry position base operation
      modify fun session => { session with globals := session.globals.map fun global =>
        if global.name = owner then .function changed else global }
      return value

/-- Adds the entry point: the random numbers are seeded with the time at the start, and the status
is what the start function gives. -/
def Build.wrapMain : Build Unit := do
  match (← get).start? with
  | none => throw (.reported .noStart ⟨1, 1⟩ false)
  | some start =>
    let time ← Build.libc .time
    let srand ← Build.libc .srand
    let now ← Build.insertCall start.name 0 time [.null .bytes] "call_time"
    let _ ← Build.insertCall start.name 1 srand [now] "call_srand"
    Build.define "main" ⟨.i32, [], false⟩ do
      let status ← Emit.call (.function start) [] "call_start"
      let status ← Emit.cast .trunc status .i32 ""
      Emit.exit (.ret status)

/-- Builds the module of a program. -/
def Build.program (isVerbose : Bool) (program : Program) : Build Unit := do
  Predefined.addAll
  program.functions.forM (Build.function isVerbose)
  Build.wrapMain

namespace Session

/-- Starts a new module; counters and casts are kept. -/
def renew (session : Session) : Session :=
  { session with globals := [] }

/-- The names of the globals, in order. -/
def names (session : Session) : List String :=
  session.globals.map Ir.Global.name

/-- The globals that no predefined function brought along. -/
def ownGlobals (session : Session) : List Ir.Global :=
  session.globals.filter fun global => !Predefined.globalNames.contains global.name

end Session

end LeftHand
