import ReversibleLogic.Circuit.Append

/-!
# Undoing operations

Scratch qubits are driven back to 0 by making the operations on them once more, each backwards and the newest first.
`uncompute` does so for the marked qubits, by the operations that have not been undone; `uncomputeAll` goes through the whole
history and leaves out the operations on the qubits to keep.
-/

namespace ReversibleLogic.Circuit

/-- Appends the operation backwards. It is logged in the history and not among the operations to be undone. -/
def replay (c : Circuit) (e : LogEntry) : Circuit :=
  { c with gates := c.gates ++ e.gates.reverse, history := c.history ++ [e.reverse] }

/-- Undoes the operations, the last of the list first. -/
def replayAll (c : Circuit) (entries : List LogEntry) : Circuit := entries.reverse.foldl replay c

/-- Marks the given scratch qubits, drives all marked ones back to 0 and frees them. Also says which they are. -/
def uncompute (c : Circuit) (extra : List Qubit) : Circuit × QubitSet :=
  let c := extra.foldl (fun c q => (c.markAncilla q).1) c
  let marked := c.marked
  if marked.isEmpty then
    (c, .empty)
  else
    let undo := c.computed.filter fun e => decide (e.target ∈ marked)
    let kept := c.computed.filter fun e => !decide (e.target ∈ marked)
    let c := { c with marked := .empty, computed := kept }.replayAll undo
    ({ c with free := c.free.union marked }, marked)

/-- Undoes every operation of the history on a qubit outside `keep`, frees the scratch qubits outside `keep` and says which
qubits have been rewound. -/
def uncomputeAll (c : Circuit) (keep : List Qubit) : Circuit × QubitSet :=
  let undo := c.history.filter fun e => !keep.contains e.target
  let reclaimed := c.ancillas.filter fun q => !keep.contains q
  let c := c.replayAll undo
  ({ c with
      computed := c.computed.filter fun e => keep.contains e.target
      marked := .empty
      free := c.free.union reclaimed }, .ofList (undo.map LogEntry.target))

end ReversibleLogic.Circuit
