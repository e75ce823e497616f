import ReversibleLogic.Circuit.Basic

/-!
# Appending gates

A gate is appended after a check: it must have the number of qubits its kind asks for, all of them in the register and no qubit
twice. The number is looked at first, then the qubits from the left. A gate that changes a qubit becomes an operation of both
logs; a barrier is a gate and not an operation. Each call gives the circuit as it leaves it, also when it fails.
-/

namespace ReversibleLogic

/-- The number of qubits the kind asks for, unless it does not fit 64 bits. -/
def GateKind.checkedArity (k : GateKind) : Except CircuitError (Option Nat) :=
  match k.arity? with
  | some n => if n < Nat.pow 2 64 then .ok (some n) else .error (.fault .operandCount)
  | none => .ok none

namespace Circuit

/-- Looks through the qubits of a gate from the left: each must be in the register and must not have occurred. -/
def checkQubits (c : Circuit) (gate : String) (seen : List Qubit) : List Qubit → Except CircuitError Unit
  | [] => .ok ()
  | q :: rest => do
    c.checkRange q (some gate)
    if q ∈ seen then
      throw (.duplicateQubit q (some gate))
    checkQubits c gate (q :: seen) rest

/-- Refuses a gate that cannot stand in the circuit. -/
def validate (c : Circuit) (g : Gate) : Except CircuitError Unit := do
  match ← g.kind.checkedArity with
  | some expected =>
    if expected ≠ g.qubits.length then
      throw (.arityMismatch g.name expected g.qubits.length)
  | none =>
    if g.kind.isBlackBox && g.qubits.isEmpty then
      throw (.arityMismatch g.name 1 0)
  c.checkQubits g.name [] g.qubits

/-- Appends an operation to the gates and to both logs. -/
def record (c : Circuit) (e : LogEntry) : Circuit :=
  { c with gates := c.gates ++ e.gates, history := c.history ++ [e], computed := c.computed ++ [e] }

/-- Appends a gate. -/
def append (c : Circuit) (g : Gate) : Circuit × Except CircuitError Unit :=
  match c.validate g with
  | .error e => (c, .error e)
  | .ok () =>
    match g.target?, g.kind.isBarrier with
    | some target, false => (c.record ⟨[g], target⟩, .ok ())
    | _, _ => ({ c with gates := c.gates ++ [g] }, .ok ())

/-- The target of a gate of the NOT family that may stand between two flips of the qubit `flip`. -/
def conjugable (c : Circuit) (flip : Qubit) (g : Gate) : Except CircuitError Qubit := do
  c.validate g
  c.validate (.x flip)
  match g.target?, g.kind.isClassical with
  | some target, true =>
    if target = flip then
      throw (.duplicateQubit flip (some g.name))
    return target
  | _, _ => throw (.arityMismatch g.name 1 0)

/-- Appends a gate of the NOT family between two flips of the qubit `flip`, as one operation: whatever undoes the gate undoes
the flips with it. -/
def appendConjugated (c : Circuit) (flip : Qubit) (g : Gate) : Circuit × Except CircuitError Unit :=
  match c.conjugable flip g with
  | .error e => (c, .error e)
  | .ok target => (c.record ⟨[.x flip, g, .x flip], target⟩, .ok ())

/-- Appends a barrier over the qubits, or over all qubits when none is given. -/
def appendBarrier (c : Circuit) (qubits : List Qubit) : Circuit × Except CircuitError Unit :=
  c.append { kind := .barrier, qubits := if qubits.isEmpty then List.range c.numQubits else qubits }

/-- The circuit with the gates appended in order. -/
def appendAll (c : Circuit) : List Gate → Except CircuitError Circuit
  | [] => .ok c
  | g :: rest =>
    match c.append g with
    | (_, .error e) => .error e
    | (c', .ok ()) => appendAll c' rest

/-- The register of the circuit with other gates. -/
def withGates (c : Circuit) (gates : List Gate) : Except CircuitError Circuit := c.emptyLike.appendAll gates

/-- The qubits that `mapping` has at the given positions. -/
def relabel (mapping : List Qubit) : List Qubit → Except CircuitError (List Qubit)
  | [] => .ok []
  | q :: rest => do
    match mapping[q]? with
    | some r => return r :: (← relabel mapping rest)
    | none => throw (.fault (.strayQubit q))

/-- Appends gates whose qubits are positions in `mapping`. When a gate is refused, those before it stay. -/
def appendMapped (c : Circuit) (mapping : List Qubit) : List Gate → Circuit × Except CircuitError Unit
  | [] => (c, .ok ())
  | g :: rest =>
    match relabel mapping g.qubits with
    | .error e => (c, .error e)
    | .ok qubits =>
      match c.append { g with qubits } with
      | (c', .error e) => (c', .error e)
      | (c', .ok ()) => appendMapped c' mapping rest

/-- Appends the gates of another circuit, whose qubit `i` becomes the qubit at position `i` of `mapping`. When a gate is
refused, those before it stay. -/
def appendCircuit (c other : Circuit) (mapping : List Qubit) : Circuit × Except CircuitError Unit :=
  if mapping.length < other.numQubits then
    (c, .error (.lengthMismatch other.numQubits mapping.length))
  else
    c.appendMapped mapping other.gates

end Circuit

end ReversibleLogic
