import LeftHand.Ir.Code

/-! The rules that a code generator behind this compiler checks before it takes a module. -/

namespace LeftHand.Ir

/-- Whether the operands of an operation are of a type that it can work on. -/
def Operation.isAccepted : Operation → Bool
  | .cast .bitcast value _ => value.type.isPointer
  | .compare _ lhs _ => lhs.type != .void
  | _ => true

/-- Whether a block ends, and gives the value that its function has to give. -/
def Exit.isAccepted (result : Ty) : Exit → Bool
  | .ret value => value.type == result && result != .void
  | .retVoid => result == .void
  | .jump _ | .branch .. => true

/-- Whether a line of a block is accepted. -/
def Line.isAccepted (result : Ty) : Line → Bool
  | instr written => written.operation.isAccepted
  | exit written => written.isAccepted result

/-- Whether a block has an end and all its lines are accepted. -/
def Block.isAccepted (result : Ty) (block : Block) : Bool :=
  block.exit.isSome && block.body.all (·.isAccepted result)

/-- Whether a global is accepted. This is meant for modules in which functions have different names
and are in single assignment form, blocks end once, behind all their code, and operands have the
types that their operations ask for. What is left there for a code generator to refuse is a value
that is given or taken where its type cannot be. -/
def Global.isAccepted : Global → Bool
  | .string _ _ => true
  | .function code => code.blocks.all (·.isAccepted code.signature.result)

end LeftHand.Ir
