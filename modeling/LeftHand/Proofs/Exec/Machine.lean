import LeftHand.Ir.Code
import Mathlib

/-!
What straight code does: a machine with registers and memory runs instructions one after the other.
-/

namespace LeftHand.Ir

/-- What a register holds: an integer of some width, or an address. -/
inductive Word where
  | int (bits : Nat) (value : BitVec bits)
  | address (place : Nat)

/-- What the places of memory hold. -/
abbrev Memory := Nat → BitVec 64

/-- A call with the words that are passed. -/
structure Call where
  callee : String
  arguments : List Word

/-- What answers calls. An answer may depend on all earlier calls and on memory, and a call may
change memory. -/
abbrev Oracle := List Call → Call → Memory → BitVec 64 × Memory

/-- The state of a machine: the registers that have been written, memory, and the calls made so
far. -/
structure Machine where
  registers : String → Option Word
  memory : Memory
  calls : List Call

/-- The machine with a register written. -/
def Machine.put (machine : Machine) (name : String) (word : Word) : Machine :=
  { machine with registers := fun other =>
      if other = name then some word else machine.registers other }

/-- What a register of a type keeps of a cell of memory, or of an answer. -/
def Ty.word? : Ty → BitVec 64 → Option Word
  | .int bits, cell => some (.int bits (cell.setWidth bits))
  | .pointer _, cell => some (.address cell.toNat)
  | .void, _ | .array .., _ => none

/-- The word of an operand. -/
def Value.word? (registers : String → Option Word) : Value → Option Word
  | .int bits value => some (.int bits (BitVec.ofInt bits value))
  | .truth value => some (.int 1 (BitVec.ofBool value))
  | .register name _ => registers name
  | .null _ => some (.address 0)
  -- Where a constant stands is left open.
  | .global .. => none

section Integers

variable {bits : Nat}

/-- Whether a signed division has a result: the divisor is not zero, and the result is not beyond
the largest number. -/
def divides (lhs rhs : BitVec bits) : Bool :=
  rhs != 0 && !(lhs == BitVec.intMin bits && rhs == -1)

/-- The result of arithmetic, if it has one. -/
def Arith.apply (op : Arith) (lhs rhs : BitVec bits) : Option (BitVec bits) :=
  match op with
  | add => some (lhs + rhs)
  | sub => some (lhs - rhs)
  | mul => some (lhs * rhs)
  | sdiv => if divides lhs rhs then some (lhs.sdiv rhs) else none
  | srem => if divides lhs rhs then some (lhs.srem rhs) else none
  | and => some (lhs &&& rhs)
  | or => some (lhs ||| rhs)
  | xor => some (lhs ^^^ rhs)
  | shl => if rhs.toNat < bits then some (lhs <<< rhs.toNat) else none
  | lshr => if rhs.toNat < bits then some (lhs >>> rhs.toNat) else none

/-- Whether a comparison holds; all but equality read their operands with sign. -/
def Comparison.holds (op : Comparison) (lhs rhs : BitVec bits) : Bool :=
  match op with
  | eq => lhs == rhs
  | ne => lhs != rhs
  | slt => lhs.slt rhs
  | sle => lhs.sle rhs
  | sgt => rhs.slt lhs
  | sge => rhs.sle lhs

end Integers

/-- Combines two integers of one width. -/
def Word.combine (apply : (bits : Nat) → BitVec bits → BitVec bits → Option Word) :
    Word → Word → Option Word
  | .int m lhs, .int n rhs => if m = n then apply m lhs (rhs.setWidth m) else none
  | _, _ => none

/-- The word in another type: integers are widened with zeros or cut, and pointers only change their
type. -/
def Word.cast? : Cast → Ty → Word → Option Word
  | .zext, .int wide, .int bits value =>
    if bits < wide then some (.int wide (value.setWidth wide)) else none
  | .trunc, .int narrow, .int bits value =>
    if narrow < bits then some (.int narrow (value.setWidth narrow)) else none
  | .bitcast, .pointer _, .address place => some (.address place)
  | _, _, _ => none

/-- The word that an operation without effects gives. The other operations of this kind have no
scalars for operands or results. -/
def Operation.word? (machine : Machine) : Operation → Option Word
  | .load source => do
    match ← source.word? machine.registers with
    | .address place => source.type.target.word? (machine.memory place)
    | .int .. => none
  | .arith op lhs rhs => do
    let lhs ← lhs.word? machine.registers
    let rhs ← rhs.word? machine.registers
    lhs.combine (fun bits lhs rhs => (op.apply lhs rhs).map (.int bits)) rhs
  | .compare op lhs rhs => do
    let lhs ← lhs.word? machine.registers
    let rhs ← rhs.word? machine.registers
    lhs.combine (fun _ lhs rhs => some (.int 1 (BitVec.ofBool (op.holds lhs rhs)))) rhs
  | .cast op value type => do
    let word ← value.word? machine.registers
    word.cast? op type
  | .alloca _ | .store .. | .element .. | .call .. | .select .. => none

/-- One instruction: a call is put on record, answered and may change memory; any other writes its
register only. -/
def Instr.exec (oracle : Oracle) (instr : Instr) (machine : Machine) : Option Machine :=
  match instr.operation with
  | .call callee signature arguments => do
    let words ← arguments.mapM (·.word? machine.registers)
    let answer := oracle machine.calls ⟨callee, words⟩ machine.memory
    let word ← signature.result.word? answer.1
    return { machine.put instr.name word with
      memory := answer.2, calls := machine.calls ++ [⟨callee, words⟩] }
  | operation => do
    let word ← operation.word? machine
    return machine.put instr.name word

/-- Runs instructions one after the other. -/
def run (oracle : Oracle) : List Instr → Machine → Option Machine
  | [], machine => some machine
  | instr :: code, machine => do
    let next ← instr.exec oracle machine
    run oracle code next

section Operands

variable {machine : Machine} {lhs rhs : Value} {bits : Nat} {first second : BitVec bits}

theorem word?_arith (op : Arith) (lhsHeld : lhs.word? machine.registers = some (.int bits first))
    (rhsHeld : rhs.word? machine.registers = some (.int bits second)) :
    (Operation.arith op lhs rhs).word? machine = (op.apply first second).map (.int bits) := by
  simp [Operation.word?, lhsHeld, rhsHeld, Word.combine]

theorem word?_compare (op : Comparison)
    (lhsHeld : lhs.word? machine.registers = some (.int bits first))
    (rhsHeld : rhs.word? machine.registers = some (.int bits second)) :
    (Operation.compare op lhs rhs).word? machine =
      some (.int 1 (BitVec.ofBool (op.holds first second))) := by
  simp [Operation.word?, lhsHeld, rhsHeld, Word.combine]

end Operands

/-- Whether an operation is a call. -/
def Operation.isCall : Operation → Bool
  | .call .. => true
  | _ => false

theorem run_singleton {oracle : Oracle} {operation : Operation} (noCall : operation.isCall = false)
    (name : String) (machine : Machine) :
    run oracle [⟨name, operation⟩] machine = (operation.word? machine).map (machine.put name) := by
  have executed : Instr.exec oracle ⟨name, operation⟩ machine =
      (operation.word? machine).map (machine.put name) := by
    cases operation with
    | call => cases noCall
    | _ => simp [Instr.exec, Option.map_eq_bind]
  simp [run, executed]

/-- A call is put on record, and what answers it decides on the register and on memory. -/
theorem run_call {oracle : Oracle} {callee : String} {signature : Signature} {arguments : List Value}
    {words : List Word} {word : Word} {machine : Machine} (name : String)
    (passed : arguments.mapM (·.word? machine.registers) = some words)
    (given : signature.result.word? (oracle machine.calls ⟨callee, words⟩ machine.memory).1 =
      some word) :
    run oracle [⟨name, .call callee signature arguments⟩] machine =
      some { machine.put name word with
        memory := (oracle machine.calls ⟨callee, words⟩ machine.memory).2
        calls := machine.calls ++ [⟨callee, words⟩] } := by
  simp [run, Instr.exec, passed, given]

theorem run_append (oracle : Oracle) (code more : List Instr) (machine : Machine) :
    run oracle (code ++ more) machine = (run oracle code machine).bind (run oracle more) := by
  induction code generalizing machine with
  | nil => rfl
  | cons instr code ih =>
    simp only [List.cons_append, run, Option.bind_eq_bind, ih, Option.bind_assoc]

end LeftHand.Ir
