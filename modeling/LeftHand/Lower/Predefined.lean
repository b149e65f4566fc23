import LeftHand.Lower.Emit

/-! The functions that every program finds ready made: output, input and random numbers. -/

namespace LeftHand

/-- The functions of the language stand in the module under a name of their own. -/
def functionName (name : String) : String :=
  "1eft." ++ name

/-- The functions that every program can call. -/
inductive Predefined where
  | writeString | writeLine | writeNumber | writeTruth | writeChar | writeAddress
  | readNumber | seedRandom | random
deriving DecidableEq, Repr

namespace Predefined

/-- Every predefined function, in the order in which a module gets them. -/
def all : List Predefined :=
  [writeString, writeLine, writeNumber, writeTruth, writeChar, writeAddress, readNumber, seedRandom,
   random]

/-- The name by which programs call a function. -/
def name : Predefined → String
  | writeString => "wr1te"
  | writeLine => "wr1te1"
  | writeNumber => "wr1ted"
  | writeTruth => "wr1teb"
  | writeChar => "wr1tec"
  | writeAddress => "wr1tea"
  | readNumber => "getd"
  | seedRandom => "srazd"
  | random => "razdd"

/-- The predefined function of a name. -/
def ofName? (text : String) : Option Predefined :=
  all.find? (·.name == text)

/-- The size of the buffer for a line with a number: its digits, a sign, a line end and a zero. -/
def bufferSize : Nat :=
  22

/-- The parameter of the function that is being written. -/
def argument : Emit Ir.Value := do
  match (← get).function.arguments with
  | value :: _ => return value
  | [] => throw .impossible

/-- The address of a string constant. -/
def addressOf (global : Ir.Global) : Emit Ir.Value := do
  match global.address? with
  | some value => return value
  | none => throw .impossible

/-- Prints the parameter with a format. -/
def printArgument (printf format : Ir.Global) : Emit Unit := do
  let format ← Emit.firstByte (← addressOf format)
  let _ ← Emit.call printf [format, ← argument] ""
  Emit.exit .retVoid

/-- A function that prints its parameter with a format of its own. -/
def addPrinter (name : String) (param : Ir.Ty) (format formatName : String) : Build Unit := do
  let printf ← Build.libc .printf
  let format ← Build.addString format formatName true
  Build.define (functionName name) ⟨.void, [param], false⟩ (printArgument printf format)

/-- Adds the function that prints a string and a line end. -/
def addWriteLine : Build Unit := do
  let puts ← Build.libc .puts
  Build.define (functionName writeLine.name) ⟨.void, [.bytes], false⟩ do
    let _ ← Emit.call puts [← argument] ""
    Emit.exit .retVoid

/-- Adds the function that prints a truth value as a word. -/
def addWriteTruth : Build Unit := do
  let printf ← Build.libc .printf
  let some format := (← get).global? ".fmt.s" | throw (.missing ".fmt.s")
  let trueWord ← Build.addString "true" ".true" true
  let falseWord ← Build.addString "false" ".false" true
  Build.define (functionName writeTruth.name) ⟨.void, [.i1], false⟩ do
    let format ← Emit.firstByte (← addressOf format)
    let trueWord ← Emit.firstByte (← addressOf trueWord)
    let falseWord ← Emit.firstByte (← addressOf falseWord)
    let word ← Emit.instr "" (.select (← argument) trueWord falseWord)
    let _ ← Emit.call printf [format, word] ""
    Emit.exit .retVoid

/-- Adds the function that prints an address, which takes a pointer to anything. -/
def addWriteAddress : Build Unit := do
  addPrinter writeAddress.name .bytes "%p" ".fmt.p"
  modify fun session =>
    { session with casts := setKey (functionName writeAddress.name) [0] session.casts }

/-- Adds the function that reads a line with a number; at the end of the input it gives zero. -/
def addReadNumber : Build Unit := do
  let fgets ← Build.libc .fgets
  let atol ← Build.libc .atol
  let fdopen ← Build.libc .fdopen
  let mode ← Build.addString "r" ".mode.r" true
  Build.define (functionName readNumber.name) ⟨.i64, [], false⟩ do
    let mode ← Emit.firstByte (← addressOf mode)
    let input ← Emit.call fdopen [.int 32 0, mode] ""
    let buffer ← Emit.instr "getdbuf" (.alloca (.array bufferSize .i8))
    let line ← Emit.firstByte buffer
    let read ← Emit.call fgets [line, .int 32 bufferSize, input] ""
    let isRead ← Emit.instr "" (.compare .ne read (.null .bytes))
    let number ← Emit.call atol [line] ""
    let result ← Emit.instr "" (.select isRead number (.int 64 0))
    Emit.exit (.ret result)

/-- Adds the function that seeds the random numbers. -/
def addSeedRandom : Build Unit := do
  let srand ← Build.libc .srand
  Build.define (functionName seedRandom.name) ⟨.void, [.i64], false⟩ do
    let seed ← Emit.cast .trunc (← argument) .i32 ""
    let _ ← Emit.call srand [seed] ""
    Emit.exit .retVoid

/-- Fifteen random bits as a number. -/
def randomBits (rand : Ir.Global) : Emit Ir.Value := do
  let drawn ← Emit.call rand [] ""
  let low ← Emit.instr "" (.arith .and drawn (.int 32 0x7fff))
  Emit.cast .zext low .i64 ""

/-- Adds the function that gives a random number: the bits of five draws, each thirteen places below
the one before, without the lowest four of the last. -/
def addRandom : Build Unit := do
  let rand ← Build.libc .rand
  Build.define (functionName random.name) ⟨.i64, [], false⟩ do
    let a ← randomBits rand
    let b ← randomBits rand
    let c ← randomBits rand
    let d ← randomBits rand
    let e ← randomBits rand
    let a ← Emit.instr "" (.arith .shl a (.int 64 48))
    let b ← Emit.instr "" (.arith .shl b (.int 64 35))
    let c ← Emit.instr "" (.arith .shl c (.int 64 22))
    let d ← Emit.instr "" (.arith .shl d (.int 64 9))
    let e ← Emit.instr "" (.arith .lshr e (.int 64 4))
    let bits ← Emit.instr "" (.arith .or d e)
    let bits ← Emit.instr "" (.arith .or c bits)
    let bits ← Emit.instr "" (.arith .or b bits)
    let bits ← Emit.instr "" (.arith .or a bits)
    Emit.exit (.ret bits)

/-- Adds a predefined function to the module. -/
def add : Predefined → Build Unit
  | writeString => addPrinter writeString.name .bytes "%s" ".fmt.s"
  | writeLine => addWriteLine
  | writeNumber => addPrinter writeNumber.name .i64 "%ld" ".fmt.d"
  | writeTruth => addWriteTruth
  | writeChar => addPrinter writeChar.name .i8 "%c" ".fmt.c"
  | writeAddress => addWriteAddress
  | readNumber => addReadNumber
  | seedRandom => addSeedRandom
  | random => addRandom

/-- Adds every predefined function. -/
def addAll : Build Unit :=
  all.forM add

/-- The names of the globals that the predefined functions bring into an empty module. -/
def globalNames : List String :=
  ((addAll.run.run {}).2.globals).map Ir.Global.name

end Predefined

end LeftHand
