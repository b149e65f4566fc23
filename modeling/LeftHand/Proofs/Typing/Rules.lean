import LeftHand.Lower.Predefined
import LeftHand.Proofs.Flow.Source

/-!
The rules that a program has to keep: which kinds its expressions have, which statements are live,
and what each live statement demands.
-/

namespace LeftHand

/-- The kinds of values. -/
inductive Kind where
  | void | dect | boolean | char
  | pointer (target : Kind)
deriving DecidableEq, Repr

/-- The kind that a type denotes. -/
def Ty.kind : Ty → Kind
  | .void _ => .void
  | .decimal _ => .dect
  | .boolean _ => .boolean
  | .char _ => .char
  | .pointer _ base => .pointer base.kind
  -- A node that is no type denotes nothing, and no program text has one.
  | .unknown _ => .void

/-- Whether a type is a pointer to void, at any depth. -/
def Ty.pointsToVoid : Ty → Bool
  | .pointer _ base => base.isVoid || base.pointsToVoid
  | _ => false

/-- What a function takes at one position. -/
inductive Parameter where
  | exactly (kind : Kind)
  /-- Addresses can be written whatever they point to, so any kind is taken. -/
  | anything
deriving DecidableEq, Repr

/-- Whether a value of a kind is taken. -/
def Parameter.Takes : Parameter → Kind → Prop
  | exactly kind, given => given = kind
  | anything, _ => True

/-- What a function takes and gives. -/
structure Callee where
  params : List Parameter
  result : Kind
deriving DecidableEq, Repr

/-- What each predefined function takes and gives. -/
def Predefined.callee : Predefined → Callee
  | .writeString | .writeLine => ⟨[.exactly (.pointer .char)], .void⟩
  | .writeNumber => ⟨[.exactly .dect], .void⟩
  | .writeTruth => ⟨[.exactly .boolean], .void⟩
  | .writeChar => ⟨[.exactly .char], .void⟩
  | .writeAddress => ⟨[.anything], .void⟩
  | .readNumber => ⟨[], .dect⟩
  | .seedRandom => ⟨[.exactly .dect], .void⟩
  | .random => ⟨[], .dect⟩

/-- What a function of the program takes and gives. -/
def Function.callee (function : Function) : Callee :=
  ⟨function.params.map fun param => .exactly param.type.kind, function.type.kind⟩

/-- The functions that can be called, by name. -/
abbrev Callees := String → Option Callee

/-- The predefined functions and those of the program up to some place. -/
def callees (functions : List Function) : Callees := fun name =>
  match functions.find? (·.ident.text == name) with
  | some function => some function.callee
  | none => (Predefined.ofName? name).map Predefined.callee

/-- The variables in scope with their kinds, the latest first. -/
abbrev Vars := List (String × Kind)

/-- The kinds between which an operator can stand, and the kind that it gives. -/
inductive BinOp.HasKind : BinOp → Kind → Kind → Kind → Prop where
  | logic {op} (isLogic : op ∈ [.or, .and]) : HasKind op .boolean .boolean .boolean
  /-- Any two values of one kind can be told apart. -/
  | equality {op kind} (isEquality : op ∈ [.equals, .revEquals]) : HasKind op kind kind .boolean
  | order {op} (isOrder : op ∈ [.less, .lessEqual, .greater, .greaterEqual]) :
      HasKind op .dect .dect .boolean
  | arith {op} (isArith : op ∈ [.add, .sub, .mul, .div, .mod]) : HasKind op .dect .dect .dect
  -- A pointer is moved by a number on either side, and moved back by one on the right.
  | forward {kind} : HasKind .add (.pointer kind) .dect (.pointer kind)
  | forwardBy {kind} : HasKind .add .dect (.pointer kind) (.pointer kind)
  | backward {kind} : HasKind .sub (.pointer kind) .dect (.pointer kind)

mutual

/-- The kind of an expression, given what can be called and the variables in scope. -/
inductive HasKind (callees : Callees) (vars : Vars) : Expr → Kind → Prop where
  | decimal {pos value} : HasKind callees vars (.decimal pos value) .dect
  | string {pos text} : HasKind callees vars (.string pos text) (.pointer .char)
  | boolean {pos value} : HasKind callees vars (.boolean pos value) .boolean
  | name {pos ident kind} (known : vars.lookup ident.text = some kind) :
      HasKind callees vars (.name pos ident) kind
  | addressOf {pos ident kind} (known : vars.lookup ident.text = some kind) :
      HasKind callees vars (.addressOf pos ident) (.pointer kind)
  | deref {pos value kind} (address : HasKind callees vars value (.pointer kind)) :
      HasKind callees vars (.deref pos value) kind
  | exec {pos ident arguments callee} (known : callees ident.text = some callee)
      (given : HaveKinds callees vars arguments callee.params) :
      HasKind callees vars (.exec pos ident arguments) callee.result
  | rev {pos value} (truth : HasKind callees vars value .boolean) :
      HasKind callees vars (.rev pos value) .boolean
  | binary {pos op lhs rhs left right kind} (lhsKind : HasKind callees vars lhs left)
      (rhsKind : HasKind callees vars rhs right) (between : op.HasKind left right kind) :
      HasKind callees vars (.binary pos op lhs rhs) kind

/-- Arguments that a function takes, one for each parameter. -/
inductive HaveKinds (callees : Callees) (vars : Vars) : List Expr → List Parameter → Prop where
  | nil : HaveKinds callees vars [] []
  | cons {argument arguments parameter params kind} (first : HasKind callees vars argument kind)
      (taken : parameter.Takes kind) (others : HaveKinds callees vars arguments params) :
      HaveKinds callees vars (argument :: arguments) (parameter :: params)

end

/-- The kind of the values that have their place where an assignment writes to. -/
inductive Target.HasKind (callees : Callees) (vars : Vars) : Target → Kind → Prop where
  | name {ident kind} (known : vars.lookup ident.text = some kind) :
      HasKind callees vars (.name ident) kind
  | deref {pos value kind} (address : LeftHand.HasKind callees vars value (.pointer kind)) :
      HasKind callees vars (.deref pos value) kind

/-- The conditions of an else part. -/
def Else.conditions : Else → List Expr
  | .elseIf _ condition _ _ rest => condition :: rest.conditions
  | .none | .otherwise .. => []

/-- What a statement demands, apart from the statements that it holds. -/
inductive Stmt.Typed (callees : Callees) (vars : Vars) : Stmt → Prop where
  | expr {pos value kind} (typed : HasKind callees vars value kind) : Typed callees vars (.expr pos value)
  | retVoid {pos} : Typed callees vars (.ret pos none)
  | ret {pos value kind} (typed : HasKind callees vars value kind) :
      Typed callees vars (.ret pos (some value))
  | noOp {pos} : Typed callees vars (.noOp pos)
  | declare {pos type ident} (absent : vars.lookup ident.text = none)
      (proper : type.pointsToVoid = false) : Typed callees vars (.declare pos type ident)
  | assign {pos target value kind} (place : target.HasKind callees vars kind)
      (typed : HasKind callees vars value kind) : Typed callees vars (.assign pos target value)
  /-- A string can be assigned where a character has its place. -/
  | assignFirst {pos target value} (place : target.HasKind callees vars .char)
      (typed : HasKind callees vars value (.pointer .char)) :
      Typed callees vars (.assign pos target value)
  | branch {pos condition bodyPos body rest}
      (truths : ∀ asked ∈ condition :: rest.conditions, HasKind callees vars asked .boolean) :
      Typed callees vars (.branch pos condition bodyPos body rest)
  /-- The body of a loop has no return in its own list. -/
  | loop {pos condition bodyPos body} (truth : HasKind callees vars condition .boolean)
      (repeats : body.any Stmt.isRet = false) : Typed callees vars (.loop pos condition bodyPos body)

/-- The variables in scope behind a statement. -/
def Stmt.scope (vars : Vars) : Stmt → Vars
  | .declare _ type ident => (ident.text, type.kind) :: vars
  | _ => vars

/-- The live statements of a part, each with the variables in scope before it. A statement is live
unless it, or one that holds it, comes behind a return in the same list. -/
inductive Live : Vars → Part → Vars → Stmt → Prop where
  | self {vars stmt} : Live vars (.stmt stmt) vars stmt
  | branch {vars pos condition bodyPos body rest inner stmt}
      (live : Live vars (.rest (.elseIf pos condition bodyPos body rest)) inner stmt) :
      Live vars (.stmt (.branch pos condition bodyPos body rest)) inner stmt
  | loop {vars pos condition bodyPos body inner stmt} (live : Live vars (.body body) inner stmt) :
      Live vars (.stmt (.loop pos condition bodyPos body)) inner stmt
  | first {vars head stmts inner stmt} (live : Live vars (.stmt head) inner stmt) :
      Live vars (.body (head :: stmts)) inner stmt
  | later {vars head stmts inner stmt} (goesOn : head.isRet = false)
      (live : Live (head.scope vars) (.body stmts) inner stmt) :
      Live vars (.body (head :: stmts)) inner stmt
  | inside {vars pos condition bodyPos body rest inner stmt} (live : Live vars (.body body) inner stmt) :
      Live vars (.rest (.elseIf pos condition bodyPos body rest)) inner stmt
  | other {vars pos condition bodyPos body rest inner stmt} (live : Live vars (.rest rest) inner stmt) :
      Live vars (.rest (.elseIf pos condition bodyPos body rest)) inner stmt
  | otherwise {vars bodyPos body inner stmt} (live : Live vars (.body body) inner stmt) :
      Live vars (.rest (.otherwise bodyPos body)) inner stmt

/-- The variables in scope at the start of a function: of parameters with one name the last. -/
def Function.vars (function : Function) : Vars :=
  (function.params.map fun param => (param.ident.text, param.type.kind)).reverse

/-- A program that keeps the rules. -/
structure Program.WellFormed (program : Program) : Prop where
  distinct : (program.functions.map (·.ident.text)).Nodup
  own : ∀ function ∈ program.functions, Predefined.ofName? function.ident.text = none
  proper : ∀ function ∈ program.functions, function.type.pointsToVoid = false ∧
    ∀ param ∈ function.params, param.type.pointsToVoid = false
  /-- The program starts with a function that gives a number and takes nothing. -/
  start : ∃ function ∈ program.functions,
    function.ident.text = "start" ∧ function.type.kind = .dect ∧ function.params = []
  returns : ∀ function ∈ program.functions, function.type.isVoid = false →
    function.body.statements.any Stmt.isRet = true
  /-- Functions can call the predefined ones, those before them, and themselves. -/
  typed : ∀ earlier function later, program.functions = earlier ++ function :: later →
    ∀ inner stmt, Live function.vars (.body function.body.statements) inner stmt →
      stmt.Typed (callees (earlier ++ [function])) inner

end LeftHand
