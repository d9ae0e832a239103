/-!
# Longest increasing runs

The longest part of a list of numbers, not necessarily in one piece, whose numbers increase.

* `longestRun` gives the positions of one such part.
-/

namespace LiveMarkup

/-- The best way found so far to increase over some number of positions: the value that it ends
with, and the positions, the last one first. -/
structure Run where
  value : Nat
  positions : List Nat
  deriving Repr, DecidableEq, Inhabited

namespace Run

/-- Lets a new number follow the longest run that ends below it. Runs are listed by length; the
new one, which goes on from `before`, replaces the one of its own length. -/
def extend (position value : Nat) (before : List Nat) : List Run → List Run
  | [] => [⟨value, position :: before⟩]
  | run :: rest =>
    if run.value < value then run :: extend position value run.positions rest
    else ⟨value, position :: before⟩ :: rest

/-- The best runs over a list whose first number has a position, from the best runs before it. -/
def runsFrom : Nat → List Run → List Nat → List Run
  | _, runs, [] => runs
  | position, runs, value :: rest =>
    runsFrom (position + 1) (extend position value [] runs) rest

end Run

/-- The positions of a longest increasing part of a list, in order. -/
def longestRun (values : List Nat) : List Nat :=
  match (Run.runsFrom 0 [] values).getLast? with
  | none => []
  | some run => run.positions.reverse

end LiveMarkup
