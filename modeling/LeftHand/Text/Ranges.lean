/-! Sets of characters written as increasing ranges of code points, or as the steps between them. -/

namespace LeftHand

/-- Whether a code point lies in one of the ranges, which are closed, disjoint and increasing. -/
def inRanges : List (Nat × Nat) → Nat → Bool
  | [], _ => false
  | (low, high) :: rest, n =>
    -- Later ranges lie higher still, so a point below this one is in none of them.
    if n < low then false else n ≤ high || inRanges rest n

/-- Whether a code point lies in one of the ranges that are given by steps: how far each range
starts above the end of the one before it, which is `stop` for the first, and how far it goes on. -/
def inSteps : (stop : Nat) → List Nat → Nat → Bool
  | stop, skip :: length :: steps, n =>
    if n < stop + skip then false
    else n ≤ stop + skip + length || inSteps (stop + skip + length) steps n
  | _, _, _ => false

end LeftHand
