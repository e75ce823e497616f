import ReversibleLogic.Compile.Error
import ReversibleLogic.Program

/-!
# The order of simultaneous assignments

Assignments that are meant to happen at once are made one after another, so whoever reads a symbol has to come before the one
who overwrites it. `schedule` finds such an order by a depth-first search: an assignment is finished when all assignments that
have to come after it are, and the order is the finished ones, the last first. If the readers and writers go round in a circle
there is no such order; then some assignment in the order found has a reader that comes later, and the first such reader is
reported.
-/

namespace ReversibleLogic

/-- Whether assignment `j` reads the symbol that assignment `i` overwrites, and is not `i` itself. -/
def readsTargetOf (as : List Assignment) (j i : Nat) : Bool :=
  match as[j]?, as[i]? with
  | some reader, some writer => i != j && reader.expr.mentions writer.target
  | _, _ => false

/-- The assignments that have to come after assignment `j`, because they overwrite what it reads. -/
def writersAfter (as : List Assignment) (j : Nat) : List Nat :=
  (List.range as.length).filter fun i => readsTargetOf as j i

/-- The assignments that have to come before assignment `i`, because they read what it overwrites. -/
def readersBefore (as : List Assignment) (i : Nat) : List Nat :=
  (List.range as.length).filter fun j => readsTargetOf as j i

/-- How far a depth-first search has come. -/
structure Search where
  /-- The nodes that have been met. -/
  seen : List Nat := []
  /-- The nodes that are finished, the last first. -/
  finished : List Nat := []

namespace Search

/-- Visits a node, if it has not been met, and all nodes that can be reached from it. `depth` bounds how long a path may be;
no path without repetition is longer than the number of nodes. -/
def visit (next : Nat → List Nat) : Nat → Search → Nat → Search
  | 0, search, _ => search
  | depth + 1, search, node =>
    if node ∈ search.seen then
      search
    else
      let search := (next node).foldl (visit next depth) { search with seen := node :: search.seen }
      { search with finished := node :: search.finished }

/-- The nodes below `n`, each before all nodes that can be reached from it, where that is possible. -/
def order (next : Nat → List Nat) (n : Nat) : List Nat :=
  ((List.range n).foldl (visit next (n + 1)) {}).finished

end Search

/-- The first node, in the order given, that some node of `before` should precede and does not, by that node. -/
def firstConflict (before : Nat → List Nat) : List Nat → List Nat → Option Nat
  | [], _ => none
  | node :: rest, done =>
    match (before node).find? (fun j => j ≠ node ∧ j ∉ done) with
    | some j => some j
    | none => firstConflict before rest (node :: done)

/-- The order in which simultaneous assignments can be made one after another, by their positions. -/
def schedule (as : List Assignment) : Except CompileError (List Nat) :=
  let order := Search.order (writersAfter as) as.length
  match firstConflict (readersBefore as) order [] with
  | none => .ok order
  | some j => .error (.notInPlace ((as[j]?.map Assignment.target).getD ""))

end ReversibleLogic
