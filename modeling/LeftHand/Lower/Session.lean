import LeftHand.Lower.Fault

/-!
Sessions: the module that is being built, and what is remembered from module to module.

A step that fails keeps what it did before it failed.
-/

namespace LeftHand

/-- A module with the counters that outlive it. -/
structure Session where
  /-- The globals of the module, in order of creation. -/
  globals : List Ir.Global := []
  /-- How often each name of string constants was asked for again. -/
  counters : List (String × Nat) := []
  /-- The functions that take pointers to anything, and at which positions. -/
  casts : List (String × List Nat) := []
deriving DecidableEq, Repr

/-- A step of building a module. -/
abbrev Build := ExceptT Fault (StateM Session)

/-- Sets the value of a key, which keeps its position. -/
def setKey {α : Type} (key : String) (value : α) : List (String × α) → List (String × α)
  | [] => [(key, value)]
  | entry :: entries =>
    if entry.1 = key then (key, value) :: entries else entry :: setKey key value entries

namespace Session

/-- The global of a name. -/
def global? (session : Session) (name : String) : Option Ir.Global :=
  session.globals.find? (·.name == name)

/-- Whether a name is taken; nothing can have the empty name. -/
def isTaken (session : Session) (name : String) : Bool :=
  name.isEmpty || session.globals.any (·.name == name)

end Session

/-- The bytes of a string constant: the text and a zero. -/
def constantBytes (text : String) : List UInt8 :=
  text.toUTF8.toList ++ [0]

/-- The name of a string constant, and the counters after it was asked for. The first to ask for a
name gets it, the others get it with a number. -/
def constantName (counters : List (String × Nat)) (name : String) : String × List (String × Nat) :=
  match counters.lookup name with
  | some n => (name ++ "." ++ toString (n + 1), setKey name (n + 1) counters)
  | none => (name, setKey name 0 counters)

namespace Build

/-- Adds a global whose name is not taken. -/
def addGlobal (global : Ir.Global) : Build Unit := do
  if (← get).isTaken global.name then throw (.duplicate global.name)
  modify fun session => { session with globals := session.globals ++ [global] }

/-- Adds a string constant; `isCounted` tells whether a taken name gets a number. -/
def addString (text name : String) (isCounted : Bool) : Build Ir.Global := do
  let mut name := name
  if isCounted then
    let (numbered, counters) := constantName (← get).counters name
    modify fun session => { session with counters }
    name := numbered
  let global := Ir.Global.string name (constantBytes text)
  addGlobal global
  return global

end Build

/-- The functions of the C library that programs use. -/
inductive Libc where
  | puts | printf | fgets | fdopen | atol | rand | srand | time
deriving DecidableEq, Repr

namespace Libc

/-- Every library function, once. -/
def all : List Libc :=
  [puts, printf, fgets, fdopen, atol, rand, srand, time]

/-- The name of a library function. -/
def name : Libc → String
  | puts => "puts"
  | printf => "printf"
  | fgets => "fgets"
  | fdopen => "fdopen"
  | atol => "atol"
  | rand => "rand"
  | srand => "srand"
  | time => "time"

/-- The library function of a name. -/
def ofName? (text : String) : Option Libc :=
  all.find? (·.name == text)

/-- The name under which an earlier declaration is looked for. -/
def soughtName : Libc → String
  | atol => "atoi"
  | libc => libc.name

/-- What a library function takes and gives. -/
def signature : Libc → Ir.Signature
  | puts => ⟨.i32, [.bytes], false⟩
  | printf => ⟨.i32, [.bytes], true⟩
  | fgets => ⟨.bytes, [.bytes, .i32, .bytes], false⟩
  | fdopen => ⟨.bytes, [.i32, .bytes], false⟩
  | atol => ⟨.i64, [.bytes], false⟩
  | rand => ⟨.i32, [], false⟩
  | srand => ⟨.void, [.i32], false⟩
  | time => ⟨.i32, [.bytes], false⟩

end Libc

/-- The global of a library function, declared if it is not found. -/
def Build.libc (libc : Libc) : Build Ir.Global := do
  match (← get).global? libc.soughtName with
  | some global => return global
  | none =>
    let global := Ir.Global.function (.declare libc.name libc.signature)
    Build.addGlobal global
    return global

end LeftHand
