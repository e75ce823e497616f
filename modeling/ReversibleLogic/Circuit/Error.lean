import ReversibleLogic.Gate

/-!
# Errors of circuits

A circuit refuses a gate or a simulation for one of the causes below. A fault is of another sort: it is a request that has no
answer at all, because a gate list that arrived from outside names a qubit the register does not have, or because a count does
not fit a machine word.
-/

namespace ReversibleLogic

/-- A request without an answer. -/
inductive Fault where
  /-- A gate of the circuit names a qubit that the register does not have. -/
  | strayQubit (q : Qubit)
  /-- A position does not fit the 32 bits of a qubit. -/
  | qubitLimit (position : Nat)
  /-- The number of operands of a gate does not fit 64 bits. -/
  | operandCount
  /-- The rows of a truth table cannot be counted or held. -/
  | rowCount (inputs : Nat)
  deriving DecidableEq

/-- Why a circuit refuses a request. -/
inductive CircuitError where
  /-- The register does not have the qubit. -/
  | qubitOutOfRange (q : Qubit) (numQubits : Nat) (gate : Option String)
  /-- A gate has the qubit twice. -/
  | duplicateQubit (q : Qubit) (gate : Option String)
  /-- A gate has the wrong number of qubits. -/
  | arityMismatch (gate : String) (expected got : Nat)
  /-- A black box has no action on bits. -/
  | nonClassicalGate (name : String)
  /-- The wrong number of values, or of qubits, was given. -/
  | lengthMismatch (expected got : Nat)
  /-- There is no answer. -/
  | fault (f : Fault)
  deriving DecidableEq

/-- The wording of the fault. -/
def Fault.message : Fault → String
  | .strayQubit q => s!"Gate list names missing qubit q{q}"
  | .qubitLimit n => s!"Position {n} is not a qubit"
  | .operandCount => "Operand count exceeds 64 bits"
  | .rowCount n => s!"Truth table over {n} inputs cannot be held"

/-- How a message names the gate it is about. -/
def CircuitError.context : Option String → String
  | some gate => s!" (gate: {gate})"
  | none => ""

/-- The wording of the error. -/
def CircuitError.message : CircuitError → String
  | .qubitOutOfRange q n gate => s!"Qubit q{q} out of range (circuit has {n} qubits)" ++ context gate
  | .duplicateQubit q gate => s!"Duplicate qubit q{q} in operation" ++ context gate
  | .arityMismatch gate expected got => s!"Gate '{gate}' requires {expected} qubits, got {got}"
  | .nonClassicalGate name => s!"Gate '{name}' has no classical semantics"
  | .lengthMismatch expected got => s!"Expected {expected} input values, got {got}"
  | .fault f => f.message

/-- The qubit at a position, which has to fit 32 bits. -/
def Qubit.ofIndex (n : Nat) : Except CircuitError Qubit :=
  if n < Qubit.limit then .ok n else .error (.fault (.qubitLimit n))

end ReversibleLogic
