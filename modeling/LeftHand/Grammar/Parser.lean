import LeftHand.Grammar.Derivation

/-!
The parser: every derivation of a form from a place, gathered by the places where they end.

Derivations with the same ends are kept as one entry, which says whether there is one of them or
several; that is all that later steps need, and it keeps ambiguous programs affordable. Beside the
endings the parser keeps the furthest place where it looked for a token, for the report of a
failure.
-/

namespace LeftHand

/-- The derivations found between two places. -/
inductive Found where
  | one (derivation : Derivation)
  | several
deriving DecidableEq, Repr

namespace Found

/-- The derivations made from these in a fixed way. -/
def map (make : Derivation → Derivation) : Found → Found
  | one derivation => one (make derivation)
  | several => several

/-- A derivation from each side, one after the other. -/
def seq : Found → Found → Found
  | one first, one second => one (.seq first second)
  | _, _ => several

end Found

/-- A place where derivations end. -/
structure Ending where
  there : Cursor
  found : Found
deriving DecidableEq, Repr

/-- Adds an ending to endings in the order of the text; two endings at one place become one. -/
def Ending.insert (ending : Ending) : List Ending → List Ending
  | [] => [ending]
  | other :: others =>
    if ending.there.place < other.there.place then ending :: other :: others
    else if other.there.place < ending.there.place then other :: ending.insert others
    else ⟨other.there, .several⟩ :: others

/-- Joins two lists of endings. -/
def Ending.join (endings more : List Ending) : List Ending :=
  more.foldl (fun joined ending => ending.insert joined) endings

/-- The furthest place where a token was looked for, and the terminals tried there. -/
structure Reach where
  place : Nat
  expected : List Terminal
deriving DecidableEq, Repr

namespace Reach

/-- Nothing has been looked for. -/
def none : Reach :=
  ⟨0, []⟩

/-- The further of two reaches; at one place, both. -/
def join (one other : Reach) : Reach :=
  if one.place < other.place then other
  else if other.place < one.place then one
  else ⟨one.place, one.expected ++ other.expected.filter (!one.expected.contains ·)⟩

end Reach

/-- What the parser knows about a form at a place. -/
structure Outcome where
  /-- Where the form can end, in the order of the text. -/
  endings : List Ending
  reach : Reach
deriving DecidableEq, Repr

namespace Outcome

/-- No way to go on. -/
def nothing : Outcome :=
  ⟨[], .none⟩

/-- The derivations made from these in a fixed way. -/
def map (make : Found → Found) (outcome : Outcome) : Outcome :=
  { outcome with endings := outcome.endings.map fun ending => { ending with found := make ending.found } }

/-- The derivations of either outcome. -/
def join (one other : Outcome) : Outcome :=
  ⟨Ending.join one.endings other.endings, one.reach.join other.reach⟩

/-- Goes on from every ending. -/
def andThen (outcome : Outcome) (next : Cursor → Outcome) : Outcome :=
  outcome.endings.foldl
    (fun joined ending => joined.join ((next ending.there).map (ending.found.seq ·)))
    ⟨[], outcome.reach⟩

/-- Goes on from pending endings any number of times. The first pending ending lies before all that
can still arise, so it is complete when its turn comes. -/
def repeated (next : Cursor → Outcome) : (fuel : Nat) → (pending : List Ending) → Outcome
  | 0, _ => nothing
  | _ + 1, [] => nothing
  | fuel + 1, ending :: pending =>
    let step := (next ending.there).map (ending.found.seq ·)
    let later := repeated next fuel (Ending.join pending step.endings)
    ⟨ending :: later.endings, step.reach.join later.reach⟩

end Outcome

/-- Looks for one token. -/
def takeToken (here : Cursor) (kind : Terminal) : Outcome :=
  let reach : Reach := ⟨here.skipGap.place, [kind]⟩
  match here.take? kind with
  | some (token, there) => ⟨[⟨there, .one (.token token)⟩], reach⟩
  | none => ⟨[], reach⟩

/-- Every derivation of a form from a place that nests at most as deep as the fuel allows. -/
def runForm : (fuel : Nat) → Form → Cursor → Outcome
  | 0, _, _ => .nothing
  | _ + 1, .empty, here => ⟨[⟨here, .one .empty⟩], .none⟩
  | _ + 1, .token kind, here => takeToken here kind
  | fuel + 1, .phrase rule, here => (runForm fuel rule.body here).map (·.map (.phrase rule))
  | fuel + 1, .seq first second, here =>
    (runForm fuel first here).andThen fun middle => runForm fuel second middle
  | fuel + 1, .alt left right, here =>
    ((runForm fuel left here).map (·.map .left)).join ((runForm fuel right here).map (·.map .right))
  | fuel + 1, .many item, here =>
    Outcome.repeated (fun middle => runForm fuel item middle) (here.rest.length + 1)
      [⟨here, .one .empty⟩]

/-- How deep derivations can nest without taking a character: no rule comes back to itself before
a token, so each is entered at most once. -/
def depthPerChar : Nat :=
  Rule.all.length * (Rule.all.foldl (fun deepest rule => max deepest rule.body.height) 0 + 1)

/-- Fuel for any text of a given length. -/
def fuelFor (length : Nat) : Nat :=
  (length + 1) * depthPerChar

/-- Why a text is no program. -/
inductive ParseError where
  /-- No terminal that may stand at the place takes anything there. -/
  | unexpected (place : Nat) (found : Char) (expected : List Terminal)
  /-- The text ends where a terminal must stand. -/
  | unfinished (expected : List Terminal)
  /-- The text can be read in several ways. -/
  | ambiguous
deriving DecidableEq, Repr

/-- The failure that a reach reports. -/
def Reach.error (text : List Char) (reach : Reach) : ParseError :=
  match text.drop reach.place with
  | found :: _ => .unexpected reach.place found reach.expected
  | [] => .unfinished reach.expected

/-- The only derivation of a text as a program. -/
def derive (text : List Char) : Except ParseError Derivation :=
  let outcome := runForm (fuelFor text.length) (.phrase .program) (.start text)
  match outcome.endings.find? (·.there.isAtEnd) with
  | some ⟨_, .one derivation⟩ => .ok derivation
  | some ⟨_, .several⟩ => .error .ambiguous
  | none => .error (outcome.reach.error text)

end LeftHand
