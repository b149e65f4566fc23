import LeftHand.Lower.Expr

/-!
Lowering of statements, functions and programs.

A statement gives the variables in scope after it; those of a body are forgotten behind the body.
Statements behind the end of their block are skipped.
-/

namespace LeftHand

/-- The name of a block that belongs to another one; of a long name only the start is kept. -/
def blockName (label suffix : String) : String :=
  if label.length > 50 then String.ofList (label.toList.take 25) ++ ".." ++ suffix
  else label ++ suffix

/-- The address that an assignment writes to. -/
def lowerTarget (isVerbose : Bool) (env : Env) : Target → Emit Ir.Value
  | .name ident => lookupName isVerbose env ident
  | .deref _ value => lowerExpr isVerbose env value
  | .unknown node => Emit.report isVerbose .noTarget node.pos

/-- Assigns a value. A string assigned to a place for a character gives its first character. -/
def lowerAssign (isVerbose : Bool) (env : Env) (target : Target) (value : Expr) : Emit Unit := do
  let address ← lowerTarget isVerbose env target
  let value ← lowerExpr isVerbose env value
  if value.type = .bytes ∧ address.type = .bytes then
    Emit.store (← Emit.load value "") address
  else Emit.store value address

/-- A condition, which must be a truth value. -/
def lowerCondition (isVerbose : Bool) (env : Env) (condition : Expr) : Emit Ir.Value := do
  let truth ← lowerExpr isVerbose env condition
  Emit.check (checkType isVerbose truth.type .i1 condition.pos)
  return truth

/-- Writes a body into a block and goes on to another block behind it, unless the body has ended. -/
def Emit.bodyInto (block join : BlockRef) (body : Emit Unit) : Emit Unit := do
  Emit.enter block
  body
  if !(← get).isEnded then Emit.exit (.jump join.label)

/-- Code that runs a body if a condition holds. -/
def Emit.ifThen (condition : Ir.Value) (body : Emit Unit) : Emit Unit := do
  let label ← Emit.currentLabel
  let whenTrue ← Emit.addBlock (blockName label ".if")
  let join ← Emit.addBlock (blockName label ".endif")
  Emit.exit (.branch condition whenTrue.label join.label)
  Emit.bodyInto whenTrue join body
  Emit.enter join

/-- Code that runs one of two bodies. -/
def Emit.ifElse (condition : Ir.Value) (body other : Emit Unit) : Emit Unit := do
  let label ← Emit.currentLabel
  let whenTrue ← Emit.addBlock (blockName label ".if")
  let whenFalse ← Emit.addBlock (blockName label ".else")
  let join ← Emit.addBlock (blockName label ".endif")
  Emit.exit (.branch condition whenTrue.label whenFalse.label)
  Emit.bodyInto whenTrue join body
  Emit.bodyInto whenFalse join other
  Emit.enter join

/-- Code that runs a body as long as a condition holds. The body must not end by itself. -/
def Emit.loop (condition : Emit Ir.Value) (body : Emit Unit) : Emit Unit := do
  let test ← Emit.addBlock "ascond"
  let inside ← Emit.addBlock "asloop"
  let join ← Emit.addBlock "asend"
  Emit.exit (.jump test.label)
  Emit.enter test
  let truth ← condition
  Emit.exit (.branch truth inside.label join.label)
  Emit.enter inside
  body
  Emit.exit (.jump test.label)
  Emit.enter join

mutual

/-- Lowers a statement to code, and gives the variables in scope after it. -/
def lowerStmt (isVerbose : Bool) (env : Env) : Stmt → Emit Env
  | .expr _ value => do
    let _ ← lowerExpr isVerbose env value
    return env
  | .ret _ none => do
    Emit.exit .retVoid
    return env
  | .ret _ (some value) => do
    let value ← lowerExpr isVerbose env value
    Emit.exit (.ret value)
    return env
  | .noOp _ => pure env
  | .declare _ type ident => do
    if (env.lookup ident.text).isSome then
      Emit.report isVerbose (.redeclared ident.text) ident.pos
    let type ← Emit.check (lowerType false type)
    if type = .void then throw .impossible
    let address ← Emit.instr ident.text (.alloca type)
    return (ident.text, address) :: env
  | .assign _ target value => do
    lowerAssign isVerbose env target value
    return env
  | .branch _ condition _ body rest => do
    let truth ← lowerCondition isVerbose env condition
    if rest.isEmpty then Emit.ifThen truth (lowerBody isVerbose env body)
    else Emit.ifElse truth (lowerBody isVerbose env body) (lowerElse isVerbose env rest)
    return env
  | .loop _ condition _ body => do
    Emit.loop (lowerCondition isVerbose env condition) (lowerBody isVerbose env body)
    return env
  | .unknown node =>
    Emit.report isVerbose (.unknownStatement ((node.kind?.map NodeKind.className).getD "")) node.pos

/-- Lowers statements one after the other, skipping those that cannot be reached. -/
def lowerBody (isVerbose : Bool) (env : Env) : List Stmt → Emit Unit
  | [] => pure ()
  | stmt :: stmts => do
    if (← get).isEnded then lowerBody isVerbose env stmts
    else
      let env ← lowerStmt isVerbose env stmt
      lowerBody isVerbose env stmts

/-- Lowers what follows the first body of a branch. -/
def lowerElse (isVerbose : Bool) (env : Env) : Else → Emit Unit
  | .none => pure ()
  | .elseIf _ condition _ body rest => do
    let truth ← lowerCondition isVerbose env condition
    if rest.isEmpty then Emit.ifThen truth (lowerBody isVerbose env body)
    else Emit.ifElse truth (lowerBody isVerbose env body) (lowerElse isVerbose env rest)
  | .otherwise _ body => lowerBody isVerbose env body

end

/-- Gives each parameter memory of its own; of parameters with one name the last is in scope. -/
def lowerParams : List (String × Ir.Value) → Env → Emit Env
  | [], env => pure env
  | (name, value) :: params, env => do
    if value.type = .void then throw .impossible
    let address ← Emit.instr name (.alloca value.type)
    Emit.store value address
    lowerParams params ((name, address) :: env)

/-- The code of a function: its parameters, its statements, and the end of a void function. -/
def lowerFunctionBody (isVerbose : Bool) (function : Function) : Emit Unit := do
  let arguments := (← get).function.arguments
  let env ← lowerParams ((function.params.map (·.ident.text)).zip arguments) []
  lowerBody isVerbose env function.body.statements
  if !(← get).isEnded then
    if function.type.isVoid then Emit.exit .retVoid
    else Emit.report isVerbose .noReturn function.pos

/-- Adds a function of the program to the module. -/
def Build.function (isVerbose : Bool) (function : Function) : Build Unit := do
  let signature : Except Fault Ir.Signature := do
    let result ← lowerType false function.type
    let params ← function.params.mapM fun param => lowerType false param.type
    return ⟨result, params, false⟩
  match signature with
  | .error fault => throw fault
  | .ok signature =>
    Build.define (functionName function.ident.text) signature (lowerFunctionBody isVerbose function)

end LeftHand
