import LeftHand.Ir.Code

/-! The types of values and of the results of operations, and the names of globals. -/

namespace LeftHand.Ir

namespace Value

@[simp] theorem type_int (bits : Nat) (value : Int) : (int bits value).type = .int bits := rfl

@[simp] theorem type_truth (value : Bool) : (truth value).type = .i1 := rfl

@[simp] theorem type_null (type : Ty) : (null type).type = type := rfl

@[simp] theorem type_register (name : String) (type : Ty) : (register name type).type = type := rfl

@[simp] theorem type_global (name : String) (type : Ty) : (global name type).type = type := rfl

end Value

namespace Operation

variable {lhs rhs value : Value} {type : Ty}

@[simp] theorem type_alloca : (alloca type).type = .pointer type := rfl

@[simp] theorem type_load : (load value).type = value.type.target := rfl

@[simp] theorem type_store : (store lhs rhs).type = .void := rfl

@[simp] theorem type_arith {op : Arith} : (arith op lhs rhs).type = lhs.type := rfl

@[simp] theorem type_compare {op : Comparison} : (compare op lhs rhs).type = .i1 := rfl

@[simp] theorem type_cast {op : Cast} : (cast op value type).type = type := rfl

@[simp] theorem type_element {indices : List Value} : (element value indices type).type = type :=
  rfl

@[simp] theorem type_call {callee : String} {signature : Signature} {arguments : List Value} :
    (call callee signature arguments).type = signature.result :=
  rfl

end Operation

namespace Global

@[simp] theorem name_string (name : String) (bytes : List UInt8) : (string name bytes).name = name :=
  rfl

@[simp] theorem name_function (code : Function) : (Global.function code).name = code.name := rfl

@[simp] theorem function?_eq_some {global : Global} {code : Function} :
    global.function? = some code ↔ global = .function code := by
  cases global <;> simp [function?]

end Global

namespace Ty

@[simp] theorem target_pointer (type : Ty) : (pointer type).target = type := rfl

@[simp] theorem isPointer_pointer (type : Ty) : (pointer type).isPointer = true := rfl

@[simp] theorem isPointer_int (bits : Nat) : (int bits).isPointer = false := rfl

/-- The address of an element next to the one pointed to has the type of the pointer. -/
@[simp] theorem elementAddress_single {base : Ty} (pointer : base.isPointer = true)
    (index : Value) : base.elementAddress [index] = base := by
  cases base <;> simp_all [isPointer, elementAddress, target]

end Ty

end LeftHand.Ir
