import LeftHand.Ir.Scope
import LeftHand.Ir.Value

/-! Instructions, blocks, functions and modules of the intermediate code, and their text. -/

namespace LeftHand.Ir

/-- Arithmetic and bitwise operations. -/
inductive Arith where
  | add | sub | mul | sdiv | srem | and | or | xor | shl | lshr
deriving DecidableEq, Repr

/-- The name of an operation. -/
def Arith.text : Arith → String
  | add => "add"
  | sub => "sub"
  | mul => "mul"
  | sdiv => "sdiv"
  | srem => "srem"
  | and => "and"
  | or => "or"
  | xor => "xor"
  | shl => "shl"
  | lshr => "lshr"

/-- Comparisons. -/
inductive Comparison where
  | eq | ne | slt | sle | sgt | sge
deriving DecidableEq, Repr

/-- The name of a comparison. -/
def Comparison.text : Comparison → String
  | eq => "eq"
  | ne => "ne"
  | slt => "slt"
  | sle => "sle"
  | sgt => "sgt"
  | sge => "sge"

/-- Changes of type. -/
inductive Cast where
  | bitcast | trunc | zext
deriving DecidableEq, Repr

/-- The name of a change of type. -/
def Cast.text : Cast → String
  | bitcast => "bitcast"
  | trunc => "trunc"
  | zext => "zext"

/-- What an instruction does. -/
inductive Operation where
  | alloca (type : Ty)
  | load (source : Value)
  | store (value target : Value)
  | arith (op : Arith) (lhs rhs : Value)
  | compare (op : Comparison) (lhs rhs : Value)
  | cast (op : Cast) (value : Value) (type : Ty)
  /-- The address of an element; the result has the given type. -/
  | element (base : Value) (indices : List Value) (type : Ty)
  | call (callee : String) (signature : Signature) (arguments : List Value)
  | select (condition whenTrue whenFalse : Value)
deriving DecidableEq, Repr

/-- What a pointer points to. -/
def Ty.target : Ty → Ty
  | .pointer target => target
  | other => other

/-- The type behind one more index. -/
def Ty.item : Ty → Ty
  | .pointer target => target
  | .array _ item => item
  | other => other

/-- The type of the address of an element: a first index keeps the type, each later one enters
it. -/
def Ty.elementAddress (base : Ty) (indices : List Value) : Ty :=
  .pointer ((indices.drop 1).foldl (fun type _ => type.item) base.target)

/-- The type of the result. -/
def Operation.type : Operation → Ty
  | alloca type => .pointer type
  | load source => source.type.target
  | store _ _ => .void
  | arith _ lhs _ => lhs.type
  | compare _ _ _ => .i1
  | cast _ _ type => type
  | element _ _ type => type
  | call _ signature _ => signature.result
  | select _ whenTrue _ => whenTrue.type

/-- Texts with a comma between any two. -/
def commaList (texts : List String) : String :=
  ", ".intercalate texts

/-- How a call shows its callee's type: variadic functions need all of it. -/
def Signature.callText (signature : Signature) : String :=
  if signature.isVariadic then
    signature.result.text ++ " (" ++ commaList (signature.params.map Ty.text ++ ["..."]) ++ ")"
  else signature.result.text

/-- An operation as code shows it. -/
def Operation.text : Operation → String
  | alloca type => "alloca " ++ type.text
  | load source => "load " ++ source.type.target.text ++ ", " ++ source.typedText
  | store value target => "store " ++ value.typedText ++ ", " ++ target.typedText
  | arith op lhs rhs => op.text ++ " " ++ lhs.typedText ++ ", " ++ rhs.text
  | compare op lhs rhs => "icmp " ++ op.text ++ " " ++ lhs.typedText ++ ", " ++ rhs.text
  | cast op value type => op.text ++ " " ++ value.typedText ++ " to " ++ type.text
  | element base indices _ =>
    "getelementptr inbounds " ++ base.type.target.text ++ ", " ++
      commaList (base.typedText :: indices.map Value.typedText)
  | call callee signature arguments =>
    "call " ++ signature.callText ++ " @" ++ quoteName callee ++ "(" ++
      commaList (arguments.map Value.typedText) ++ ")"
  | select condition whenTrue whenFalse =>
    "select  " ++ commaList [condition.typedText, whenTrue.typedText, whenFalse.typedText]

/-- An instruction; its name is taken even where it gives no value. -/
structure Instr where
  name : String
  operation : Operation
deriving DecidableEq, Repr

/-- An instruction as code shows it. -/
def Instr.text (instr : Instr) : String :=
  if instr.operation.type = .void then instr.operation.text
  else "%" ++ quoteName instr.name ++ " = " ++ instr.operation.text

/-- How a block ends. -/
inductive Exit where
  | ret (value : Value)
  | retVoid
  | jump (label : String)
  | branch (condition : Value) (whenTrue whenFalse : String)
deriving DecidableEq, Repr

/-- The end of a block as code shows it. -/
def Exit.text : Exit → String
  | ret value => "ret " ++ value.typedText
  | retVoid => "ret void"
  | jump label => "br label %" ++ quoteName label
  | branch condition whenTrue whenFalse =>
    "br " ++ commaList [condition.typedText, "label %" ++ quoteName whenTrue,
      "label %" ++ quoteName whenFalse]

/-- What can stand in a block. -/
inductive Line where
  | instr (instr : Instr)
  | exit (exit : Exit)
deriving DecidableEq, Repr

/-- A line as code shows it. -/
def Line.text : Line → String
  | instr written => written.text
  | exit written => written.text

/-- A block of instructions, ended or still open. Nothing keeps lines from being behind an end. -/
structure Block where
  label : String
  /-- The instructions in front of the end. -/
  code : List Instr := []
  exit : Option Exit := none
  /-- What was written when the block had already ended. -/
  rest : List Line := []
deriving DecidableEq, Repr

/-- All that stands in a block, in order. -/
def Block.body (block : Block) : List Line :=
  block.code.map .instr ++ block.exit.toList.map .exit ++ block.rest

/-- Puts an instruction behind all that stands in a block, be that its end. -/
def Block.push (instr : Instr) (block : Block) : Block :=
  if block.exit.isSome then { block with rest := block.rest ++ [.instr instr] }
  else { block with code := block.code ++ [instr] }

theorem Block.push_of_open {block : Block} (isOpen : block.exit = none) (instr : Instr) :
    block.push instr = { block with code := block.code ++ [instr] } := by
  simp [push, isOpen]

/-- Whether a label needs no quotes. -/
def isPlainLabel (label : String) : Bool :=
  let isPlain := fun c : Char => c.isAlpha || c == '-' || c == '$' || c == '.' || c == '_'
  match label.toList with
  | [] => false
  | c :: rest => isPlain c && rest.all fun c => isPlain c || c.isDigit

/-- The lines of a block. -/
def Block.lines (block : Block) : List String :=
  ((if isPlainLabel block.label then block.label else quoteName block.label) ++ ":") ::
    block.body.map ("  " ++ ·.text)

/-- A function; without blocks it is only declared. -/
structure Function where
  name : String
  signature : Signature
  /-- The names of the parameters. -/
  params : List String
  blocks : List Block := []
  scope : Scope
deriving DecidableEq, Repr

namespace Function

/-- A function without blocks. Its parameters take their names first, then its result takes one. -/
def declare (name : String) (signature : Signature) : Function :=
  let (params, scope) := Scope.takeAll {} (signature.params.map fun _ => "")
  { name, signature, params, scope := (scope.take "").2 }

/-- The parameters as values. -/
def arguments (function : Function) : List Value :=
  List.zipWith Value.register function.params function.signature.params

/-- The first line of a function. -/
def head (function : Function) : String :=
  (if function.blocks.isEmpty then "declare " else "define ") ++ function.signature.result.text ++
    " @" ++ quoteName function.name ++ "(" ++
    commaList (function.arguments.map Value.typedText ++
      if function.signature.isVariadic then ["..."] else []) ++ ")"

/-- A function as code shows it. -/
def text (function : Function) : String :=
  let body :=
    if function.blocks.isEmpty then []
    else "\x7b" :: function.blocks.flatMap Block.lines ++ ["\x7d"]
  String.join ((function.head :: body).map (· ++ "\n"))

/-- The instruction of a name. -/
def instr? (function : Function) (name : String) : Option Instr :=
  (function.blocks.flatMap Block.body).findSome? fun
    | .instr instr => if instr.name = name then some instr else none
    | .exit _ => none

end Function

/-- What a module holds: string constants and functions. -/
inductive Global where
  | string (name : String) (bytes : List UInt8)
  | function (function : Function)
deriving DecidableEq, Repr

/-- A byte inside a string constant. -/
def byteText (byte : UInt8) : List Char :=
  let c := Char.ofNat byte.toNat
  if 0x20 ≤ byte && byte < 0x7f && c != '"' && c != '\\' then [c]
  else ['\\', Nat.digitChar (byte.toNat / 16), Nat.digitChar (byte.toNat % 16)]

namespace Global

/-- The name of a global. -/
def name : Global → String
  | string name _ => name
  | .function code => code.name

/-- The address of a string constant. -/
def address? : Global → Option Value
  | string name bytes => some (.global name (.pointer (.array bytes.length .i8)))
  | function _ => none

/-- A global as code shows it. -/
def text : Global → String
  | string name bytes =>
    "@" ++ quoteName name ++ " = internal constant " ++ (Ty.array bytes.length .i8).text ++ " c\"" ++
      String.ofList (bytes.flatMap byteText) ++ "\""
  | .function code => code.text

/-- The function that a global is. -/
def function? : Global → Option Function
  | .function code => some code
  | string _ _ => none

end Global

/-- The lines before the globals of a module. -/
def moduleHead : List String :=
  ["; ModuleID = \"1eft_module\"",
   "target triple = \"x86_64-unknown-linux-gnu\"",
   "target datalayout = \"e-m:e-p270:32:32-p271:32:32-p272:64:64-i64:64-f80:128-n8:16:32:64-S128\"",
   ""]

/-- Globals as code shows them. -/
def globalsText (globals : List Global) : String :=
  "\n".intercalate (globals.map Global.text)

/-- A whole module as code shows it. -/
def moduleText (globals : List Global) : String :=
  "\n".intercalate (moduleHead ++ globals.map Global.text)

end LeftHand.Ir
