import LeftHand.Proofs.Ir.Type

/-! Typed operations: the types that operands must have, and the functions that may be called. -/

namespace LeftHand.Ir

/-- The type of both operands of an arithmetic operation; shifts are not for programs. -/
def Arith.operandType? : Arith → Option Ty
  | add | sub | mul | sdiv | srem => some .i64
  | and | or | xor => some .i1
  | shl | lshr => none

/-- Whether a comparison asks for an order. -/
def Comparison.isOrder : Comparison → Bool
  | eq | ne => false
  | slt | sle | sgt | sge => true

/-- The address of the first byte of a string constant. -/
def IsTextStart (base : Value) (indices : List Value) (type : Ty) : Prop :=
  (∃ name size, base = .global name (.pointer (.array size .i8))) ∧
    indices = [.int 32 0, .int 32 0] ∧ type = .bytes

/-- A pointer that is moved by a number keeps its type. -/
def IsPointerArith (base : Value) (indices : List Value) (type : Ty) : Prop :=
  base.type.isPointer = true ∧ (∃ index, indices = [index] ∧ index.type = .i64) ∧ type = base.type

/-- An operation on operands of the types that it is for. Which functions can be called, and with
which signatures, is given from outside. -/
def Operation.Typed (declares : String → Signature → Prop) : Operation → Prop
  | alloca _ => True
  | load source => source.type = .pointer (load source).type
  | store value target => target.type = .pointer value.type
  | arith op lhs rhs => op.operandType? = some lhs.type ∧ op.operandType? = some rhs.type
  | compare op lhs rhs => lhs.type = rhs.type ∧ (op.isOrder → lhs.type = .i64 ∧ rhs.type = .i64)
  | cast op _ type => op = .bitcast ∧ type = .bytes
  | element base indices type => IsTextStart base indices type ∨ IsPointerArith base indices type
  | call callee signature arguments =>
    declares callee signature ∧ arguments.map Value.type = signature.params
  | select _ _ _ => False

/-- A block that ends with a condition ends with a truth value. -/
def Exit.Typed : Exit → Prop
  | branch condition _ _ => condition.type = .i1
  | ret _ | retVoid | jump _ => True

theorem Operation.Typed.mono {declares more : String → Signature → Prop} {operation : Operation}
    (typed : operation.Typed declares)
    (declared : ∀ callee signature, declares callee signature → more callee signature) :
    operation.Typed more := by
  cases operation with
  | call callee signature arguments => exact ⟨declared _ _ typed.1, typed.2⟩
  | _ => exact typed

theorem Ty.eq_pointer_target {type : Ty} (pointer : type.isPointer = true) :
    type = .pointer type.target := by
  cases type with
  | pointer target => rfl
  | _ => cases pointer

end LeftHand.Ir
