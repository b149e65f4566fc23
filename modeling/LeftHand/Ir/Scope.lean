/-!
Scopes of names, in which every name is used once.

A name that is taken gets a number: the first for its base that gives a name not taken yet. The
empty name counts as taken from the start, so nameless things are numbered.
-/

namespace LeftHand.Ir

/-- The names taken in a function, and the last number tried for each base. -/
structure Scope where
  used : List String := [""]
  numbers : List (String × Nat) := []
deriving DecidableEq, Repr

namespace Scope

/-- A base with a number. -/
def numbered (base : String) (n : Nat) : String :=
  base ++ "." ++ toString n

/-- The first number from `n` on that gives a name not taken. -/
def firstFree (used : List String) (base : String) : (fuel : Nat) → (n : Nat) → Nat
  | 0, n => n
  | fuel + 1, n => if used.contains (numbered base n) then firstFree used base fuel (n + 1) else n

/-- Takes a name: the base itself, or the base with a number. -/
def take (scope : Scope) (base : String) : String × Scope :=
  if scope.used.contains base then
    -- Among one number more than there are names taken, one is free.
    let n := firstFree scope.used base scope.used.length ((scope.numbers.lookup base).getD 0 + 1)
    let name := numbered base n
    (name, ⟨name :: scope.used, (base, n) :: scope.numbers.filter (·.1 != base)⟩)
  else (base, { scope with used := base :: scope.used })

/-- Takes a name for each of some bases, in order. -/
def takeAll (scope : Scope) : List String → List String × Scope
  | [] => ([], scope)
  | base :: bases =>
    let (name, scope) := scope.take base
    let (names, scope) := scope.takeAll bases
    (name :: names, scope)

end Scope

end LeftHand.Ir
