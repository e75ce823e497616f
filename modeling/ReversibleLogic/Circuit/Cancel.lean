import ReversibleLogic.Circuit.Basic

/-!
# Cancelling equal neighbours

Two equal gates of the NOT family next to each other do nothing together. One pass from the left drops such pairs, also those
that become neighbours by an earlier drop, and also two with a single barrier between them, in which case the barrier stays.
-/

namespace ReversibleLogic

/-- Takes one more gate onto the gates seen so far, the latest of which is first in the list. -/
def cancelStep (seen : List Gate) (g : Gate) : List Gate :=
  if g.kind.isClassical then
    match seen with
    | [] => [g]
    | [last] => if last.same g then [] else [g, last]
    | last :: before :: rest =>
      if last.same g then before :: rest
      else if last.kind.isBarrier && before.same g then last :: rest
      else g :: last :: before :: rest
  else
    g :: seen

/-- The gates that are left when equal neighbours are cancelled. -/
def cancelPairs (gates : List Gate) : List Gate := (gates.foldl cancelStep []).reverse

/-- Cancels equal neighbours and says how many gates are gone. The logs keep what was logged. -/
def Circuit.removeIdentities (c : Circuit) : Circuit × Nat :=
  let gates := cancelPairs c.gates
  ({ c with gates }, c.gates.length - gates.length)

end ReversibleLogic
