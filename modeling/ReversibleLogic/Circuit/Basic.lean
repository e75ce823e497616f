import ReversibleLogic.Circuit.Error

/-!
# Circuits

A circuit is a register of labelled qubits and a list of gates on it, together with what a compilation has to remember: which
qubits have names, which are scratch qubits (ancillas), which of those are free for use because they hold 0, which are marked
because their value is no longer needed, and two logs of the operations made. `history` holds every operation, those that
undo another one included; `computed` holds the operations that have not been undone yet.

This module has the register side: making circuits, adding qubits, naming and marking them, and reading the circuit.
-/

namespace ReversibleLogic

/-- One operation of a log: the gates that make it up and the qubit it changes. -/
structure LogEntry where
  /-- The gates, in order. -/
  gates : List Gate
  /-- The one qubit whose value the operation changes. -/
  target : Qubit
  deriving DecidableEq

/-- The same operation backwards. Each gate of the NOT family undoes itself, so this undoes the operation. -/
def LogEntry.reverse (e : LogEntry) : LogEntry := ⟨e.gates.reverse, e.target⟩

/-- A circuit and the book-keeping of its qubits. -/
structure Circuit where
  /-- The name of the circuit. -/
  name : String
  /-- The latest label of each qubit. -/
  labels : List Symbol := []
  /-- The names that have been given to qubits. -/
  names : NameMap := .empty
  /-- The qubits that have been given a name. -/
  bound : QubitSet := .empty
  /-- The gates, in order. -/
  gates : List Gate := []
  /-- All operations, in order. -/
  history : List LogEntry := []
  /-- The operations that have not been undone, in order. -/
  computed : List LogEntry := []
  /-- The scratch qubits. -/
  ancillas : QubitSet := .empty
  /-- The scratch qubits that hold 0 and may be taken. -/
  free : QubitSet := .empty
  /-- The scratch qubits whose value is no longer needed. -/
  marked : QubitSet := .empty
  deriving DecidableEq

namespace Circuit

/-! ## Reading a circuit -/

/-- The number of qubits of the register. -/
def numQubits (c : Circuit) : Nat := c.labels.length

/-- The number of gates, barriers not counted. -/
def numGates (c : Circuit) : Nat := c.gates.countP fun g => !g.kind.isBarrier

/-- The number of operations that have not been undone. -/
def numLive (c : Circuit) : Nat := c.computed.length

/-- The qubit that has been given the name, if any. -/
def qubit? (c : Circuit) (name : Symbol) : Option Qubit := c.names.get? name

/-- The latest label of a qubit. -/
def label? (c : Circuit) (q : Qubit) : Option Symbol := c.labels[q]?

/-- Whether the qubit is a scratch qubit. -/
def isAncilla (c : Circuit) (q : Qubit) : Bool := decide (q ∈ c.ancillas)

/-- Whether the qubit is a scratch qubit that no name refers to. -/
def isDisposable (c : Circuit) (q : Qubit) : Bool := decide (q ∈ c.ancillas) && !decide (q ∈ c.bound)

/-- Adds one to the count of `name` in a list of counts that is ascending by name. -/
def countName (name : String) : List (String × Nat) → List (String × Nat)
  | [] => [(name, 1)]
  | (other, n) :: rest =>
    match compare name other with
    | .lt => (name, 1) :: (other, n) :: rest
    | .eq => (other, n + 1) :: rest
    | .gt => (other, n) :: countName name rest

/-- How often each name of a gate occurs, barriers not counted, ascending by name. -/
def gateCounts (c : Circuit) : List (String × Nat) :=
  (c.gates.filter fun g => !g.kind.isBarrier).foldl (fun counts g => countName g.name counts) []

/-! ## The register -/

/-- Adds a qubit and says which it is. A qubit without a name is labelled by its position. -/
def addQubit (c : Circuit) (name : Option Symbol) : Circuit × Qubit :=
  let q := c.numQubits
  match name with
  | some name =>
    ({ c with labels := c.labels ++ [name], names := c.names.insert name q, bound := c.bound.insert q }, q)
  | none => ({ c with labels := c.labels ++ [s!"q{q}"] }, q)

/-- Adds a scratch qubit and says which it is. -/
def addAncilla (c : Circuit) (isFree : Bool) : Circuit × Qubit :=
  let q := c.numQubits
  ({ c with
      labels := c.labels ++ [s!"anc{q}"]
      ancillas := c.ancillas.insert q
      free := if isFree then c.free.insert q else c.free }, q)

/-- Takes the first free scratch qubit, or adds one when none is free. -/
def takeAncilla (c : Circuit) : Circuit × Qubit :=
  match c.free.popMin? with
  | some (q, rest) => ({ c with free := rest }, q)
  | none => c.addAncilla false

/-- The circuit without qubits and gates. -/
def new (name : String) : Circuit := { name }

/-- The circuit of `n` qubits without names and without gates. -/
def ofSize (name : String) (n : Nat) : Circuit := { name, labels := (List.range n).map fun q => s!"q{q}" }

/-- A circuit of one qubit more is the circuit with a qubit added. -/
theorem ofSize_succ (name : String) (n : Nat) : ofSize name (n + 1) = ((ofSize name n).addQubit none).1 := by
  simp [ofSize, addQubit, numQubits, List.range_succ]

/-- The register of the circuit, with its names and scratch qubits, without gates. -/
def emptyLike (c : Circuit) : Circuit :=
  { name := c.name, labels := c.labels, names := c.names, bound := c.bound, ancillas := c.ancillas }

/-! ## Names and marks -/

/-- Refuses a qubit that the register does not have. -/
def checkRange (c : Circuit) (q : Qubit) (gate : Option String) : Except CircuitError Unit :=
  if q < c.numQubits then .ok () else .error (.qubitOutOfRange q c.numQubits gate)

/-- Gives a qubit a name. With `promote` a scratch qubit becomes a permanent one. -/
def mapQubit (c : Circuit) (name : Symbol) (q : Qubit) (promote : Bool) : Circuit × Except CircuitError Unit :=
  match c.checkRange q none with
  | .error e => (c, .error e)
  | .ok () =>
    let c := { c with labels := c.labels.set q name, names := c.names.insert name q, bound := c.bound.insert q }
    if promote && c.isAncilla q then
      ({ c with ancillas := c.ancillas.erase q, free := c.free.erase q, marked := c.marked.erase q }, .ok ())
    else
      (c, .ok ())

/-- Marks a scratch qubit and says whether the mark is new. Other qubits are not marked. -/
def markAncilla (c : Circuit) (q : Qubit) : Circuit × Bool :=
  if c.isAncilla q && !decide (q ∈ c.marked) then ({ c with marked := c.marked.insert q }, true) else (c, false)

/-- Takes a mark back and says whether there was one. -/
def unmarkAncilla (c : Circuit) (q : Qubit) : Circuit × Bool :=
  ({ c with marked := c.marked.erase q }, decide (q ∈ c.marked))

end Circuit

end ReversibleLogic
