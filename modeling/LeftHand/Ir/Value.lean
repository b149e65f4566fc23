/-! Types and values of the intermediate code. -/

namespace LeftHand.Ir

/-- The types of values. -/
inductive Ty where
  | void
  | int (bits : Nat)
  | pointer (target : Ty)
  | array (size : Nat) (item : Ty)
deriving DecidableEq, Repr

namespace Ty

/-- Truth values. -/
abbrev i1 : Ty := int 1

/-- Characters and bytes. -/
abbrev i8 : Ty := int 8

/-- The numbers of the C library. -/
abbrev i32 : Ty := int 32

/-- The numbers of the language. -/
abbrev i64 : Ty := int 64

/-- Strings, and pointers to anything. -/
abbrev bytes : Ty := pointer i8

/-- A type as code shows it. -/
def text : Ty → String
  | void => "void"
  | int bits => s!"i{bits}"
  | pointer target => target.text ++ "*"
  | array size item => s!"[{size} x " ++ item.text ++ "]"

/-- Whether a type is a pointer. -/
def isPointer : Ty → Bool
  | pointer _ => true
  | _ => false

end Ty

/-- What a function takes and gives. -/
structure Signature where
  result : Ty
  params : List Ty
  /-- Whether more arguments may follow. -/
  isVariadic : Bool := false
deriving DecidableEq, Repr

/-- A value that an instruction can use. -/
inductive Value where
  | int (bits : Nat) (value : Int)
  | truth (value : Bool)
  | null (type : Ty)
  /-- The result of an instruction, or a parameter. -/
  | register (name : String) (type : Ty)
  /-- The address of a string constant. -/
  | global (name : String) (type : Ty)
deriving DecidableEq, Repr

/-- A name between quotes, with backslashes and quotes in it written by code. -/
def quoteName (name : String) : String :=
  let escaped := name.toList.flatMap fun c =>
    if c = '\\' then ['\\', '5', 'c'] else if c = '"' then ['\\', '2', '2'] else [c]
  "\"" ++ String.ofList escaped ++ "\""

namespace Value

/-- The type of a value. -/
def type : Value → Ty
  | int bits _ => .int bits
  | truth _ => .i1
  | null type | register _ type | global _ type => type

/-- A value as an operand shows it. -/
def text : Value → String
  | int _ value => toString value
  | truth true => "true"
  | truth false => "false"
  | null _ => "null"
  | register name _ => "%" ++ quoteName name
  | global name _ => "@" ++ quoteName name

/-- A value after its type. -/
def typedText (value : Value) : String :=
  value.type.text ++ " " ++ value.text

end Value

end LeftHand.Ir
