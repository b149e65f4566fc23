import LeftHand.Lower.Session

/-!
Writing the code of one function.

While a function is written, the string constants of its literals are gathered behind it; the module
before it does not change.
-/

namespace LeftHand

/-- A function that is being written. -/
structure Draft where
  /-- The module before the function, with the counters as they are now. -/
  session : Session
  function : Ir.Function
  /-- The position of the block that is being written. -/
  current : Nat := 0
  /-- The string constants made since the function was begun. -/
  strings : List Ir.Global := []
deriving DecidableEq, Repr

/-- A step of writing a function. -/
abbrev Emit := ExceptT Fault (StateM Draft)

namespace Draft

/-- The globals in order: those before the function, the function, its string constants. -/
def globals (draft : Draft) : List Ir.Global :=
  draft.session.globals ++ .function draft.function :: draft.strings

/-- The session when the function is left as it is. -/
def close (draft : Draft) : Session :=
  { draft.session with globals := draft.globals }

/-- The block that is being written. -/
def block? (draft : Draft) : Option Ir.Block :=
  draft.function.blocks[draft.current]?

/-- Changes the block that is being written. -/
def modifyBlock (draft : Draft) (change : Ir.Block → Ir.Block) : Draft :=
  { draft with function :=
      { draft.function with blocks := draft.function.blocks.modify draft.current change } }

/-- Whether the block that is being written has ended. -/
def isEnded (draft : Draft) : Bool :=
  draft.block?.any (·.exit.isSome)

/-- A value with the code that made it, as reports show it. -/
def shown (draft : Draft) : Ir.Value → String
  | .register name type =>
    ((draft.function.instr? name).map Ir.Instr.text).getD (Ir.Value.register name type).typedText
  | value => value.typedText

end Draft

/-- A block of the function, with its position. -/
structure BlockRef where
  position : Nat
  label : String
deriving DecidableEq, Repr

/-- The call of a global with checked arguments. -/
def checkCall (callee : Ir.Global) (arguments : List Ir.Value) : Except Fault Ir.Operation :=
  match callee with
  | .string _ bytes => .error (.notCallable (.pointer (.array bytes.length .i8)))
  | .function function =>
    let pairs := (function.signature.params.zip (arguments.map Ir.Value.type)).zipIdx
    match pairs.find? fun pair => pair.1.1 != pair.1.2 with
    | some ((expected, given), i) => .error (.argumentType (i + 1) expected given)
    | none => .ok (.call function.name function.signature arguments)

namespace Emit

/-- Takes a name of the function's scope. -/
def takeName (base : String) : Emit String := do
  let draft ← get
  let (name, scope) := draft.function.scope.take base
  set { draft with function := { draft.function with scope } }
  return name

/-- Writes an instruction. Whether the block has ended is not asked. -/
def instr (base : String) (operation : Ir.Operation) : Emit Ir.Value := do
  let name ← takeName base
  modify (·.modifyBlock (Ir.Block.push ⟨name, operation⟩))
  return .register name operation.type

/-- Ends the block. A block ends once; the attempt takes a name all the same. -/
def exit (exit : Ir.Exit) : Emit Unit := do
  let _ ← takeName ""
  if (← get).isEnded then throw .impossible
  modify (·.modifyBlock fun block => { block with exit := some exit })

/-- Adds an empty block behind the others. -/
def addBlock (base : String) : Emit BlockRef := do
  let label ← takeName base
  let draft ← get
  let added : Ir.Block := { label }
  set { draft with function :=
      { draft.function with blocks := draft.function.blocks ++ [added] } }
  return ⟨draft.function.blocks.length, label⟩

/-- Goes on writing in another block. -/
def enter (block : BlockRef) : Emit Unit :=
  modify fun draft => { draft with current := block.position }

/-- The label of the block that is being written. -/
def currentLabel : Emit String := do
  return ((← get).block?.map (·.label)).getD ""

/-- Reads from a pointer. -/
def load (source : Ir.Value) (base : String) : Emit Ir.Value :=
  instr base (.load source)

/-- Writes to a pointer. -/
def store (value target : Ir.Value) : Emit Unit := do
  match target.type with
  | .pointer type =>
    if value.type ≠ type then throw (.storeType value.type target.type)
    let _ ← instr "" (.store value target)
  | type => throw (.storeNoPointer type ((← get).shown target))

/-- The address of an element. -/
def element (base : Ir.Value) (indices : List Ir.Value) (name : String) : Emit Ir.Value :=
  instr name (.element base indices (base.type.elementAddress indices))

/-- The address of the first byte of a string constant. -/
def firstByte (address : Ir.Value) : Emit Ir.Value :=
  element address [.int 32 0, .int 32 0] ""

/-- Changes the type of a value that does not have it yet. -/
def cast (op : Ir.Cast) (value : Ir.Value) (type : Ir.Ty) (name : String) : Emit Ir.Value :=
  if value.type = type then pure value else instr name (.cast op value type)

/-- Calls a global. -/
def call (callee : Ir.Global) (arguments : List Ir.Value) (name : String) : Emit Ir.Value :=
  match checkCall callee arguments with
  | .ok operation => instr name operation
  | .error fault => throw fault

/-- The global of a name. -/
def global? (name : String) : Emit (Option Ir.Global) := do
  return (← get).globals.find? (·.name == name)

/-- Adds the string constant of a literal. -/
def addString (text : String) : Emit Ir.Value := do
  let draft ← get
  let (name, counters) := constantName draft.session.counters ".str"
  set { draft with session := { draft.session with counters } }
  if name.isEmpty || draft.globals.any (·.name == name) then throw (.duplicate name)
  let bytes := constantBytes text
  modify fun draft => { draft with strings := draft.strings ++ [.string name bytes] }
  return .global name (.pointer (.array bytes.length .i8))

/-- Reports a mistake and stops. -/
def report {α : Type} (isVerbose : Bool) (diagnostic : Diagnostic) (pos : Pos) : Emit α :=
  throw (.reported diagnostic pos isVerbose)

end Emit

/-- Adds a function with an entry block and writes its code. -/
def Build.define (name : String) (signature : Ir.Signature) (body : Emit Unit) : Build Unit := do
  let session ← get
  if session.isTaken name then throw (.duplicate name)
  let start : Draft := { session, function := .declare name signature }
  let (result, draft) := (do let _ ← Emit.addBlock "entry"; body : Emit Unit).run.run start
  set draft.close
  match result with
  | .ok _ => return ()
  | .error fault => throw fault

end LeftHand
