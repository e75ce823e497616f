import ReversibleLogic.Circuit.Append

/-!
# Simulation

Gates of the NOT family and barriers act on bits, so a circuit of them can be run on a register of bits. Black boxes have no
action on bits and end the simulation. The gates are not checked here: a gate without qubits does nothing, and a gate that
needs the bit of a qubit outside the register is a fault. Controls are looked at from the left and only up to the first one
that is not set.
-/

namespace ReversibleLogic

/-- The bits of a register, by qubit. -/
abbrev Register := Array Bool

namespace Register

/-- Whether all the qubits are set. -/
def allSet (s : Register) : List Qubit → Except CircuitError Bool
  | [] => .ok true
  | q :: rest =>
    match s[q]? with
    | some true => allSet s rest
    | some false => .ok false
    | none => .error (.fault (.strayQubit q))

/-- The register with the bit of one qubit flipped. -/
def flip (s : Register) (q : Qubit) : Except CircuitError Register :=
  if q < s.size then .ok (s.modify q (!·)) else .error (.fault (.strayQubit q))

end Register

/-- The action of a gate on the bits of a register. -/
def Gate.run (g : Gate) (s : Register) : Except CircuitError Register :=
  match g.kind with
  | .barrier => .ok s
  | .blackBox name => .error (.nonClassicalGate name)
  | .x | .cx | .ccx | .mcx _ =>
    match g.target? with
    | none => .ok s
    | some target => do
      if ← s.allSet g.controls then s.flip target else return s

/-- The action of gates, one after another. -/
def runGates : List Gate → Register → Except CircuitError Register
  | [], s => .ok s
  | g :: rest, s => do runGates rest (← g.run s)

namespace Circuit

/-- Runs the circuit on the values of its first qubits, with all others at 0, and gives the final value of every qubit. -/
def simulate (c : Circuit) (initial : List Bool) : Except CircuitError Register :=
  if initial.length > c.numQubits then
    .error (.lengthMismatch c.numQubits initial.length)
  else
    runGates c.gates (initial ++ List.replicate (c.numQubits - initial.length) false).toArray

/-- Sets bits of a register. -/
def setBits (c : Circuit) (s : Register) : List (Qubit × Bool) → Except CircuitError Register
  | [] => .ok s
  | (q, value) :: rest =>
    if q < c.numQubits then setBits c (s.setIfInBounds q value) rest
    else .error (.qubitOutOfRange q c.numQubits none)

/-- Runs the circuit with the given qubits set to the given values and all others at 0. -/
def simulateWith (c : Circuit) (values : List (Qubit × Bool)) : Except CircuitError Register := do
  runGates c.gates (← c.setBits (.replicate c.numQubits false) values)

/-- The bits of `row` that number the rows of a table over `k` inputs: the first input has the highest bit. -/
def rowBits (k row : Nat) : List Bool := (List.range k).map fun i => row.testBit (k - 1 - i)

/-- The most inputs a truth table can have. -/
def maxTableInputs : Nat := 57

/-- One row of a truth table: the bits of the inputs and the bits of the outputs they lead to. -/
def tableRow (c : Circuit) (inputs outputs : List Qubit) (row : Nat) : Except CircuitError (List Bool × List Bool) := do
  let bits := rowBits inputs.length row
  let s ← c.simulateWith (inputs.zip bits)
  return (bits, outputs.map fun q => s.getD q false)

/-- Checks that the register has the qubits. -/
def checkAllRange (c : Circuit) : List Qubit → Except CircuitError Unit
  | [] => .ok ()
  | q :: rest => do
    c.checkRange q none
    checkAllRange c rest

/-- The final bits of `outputs` for all values of `inputs`, with the other qubits starting at 0. -/
def truthTable (c : Circuit) (inputs outputs : List Qubit) : Except CircuitError (List (List Bool × List Bool)) := do
  c.checkAllRange outputs
  if inputs.length > maxTableInputs then
    throw (.fault (.rowCount inputs.length))
  (List.range (Nat.pow 2 inputs.length)).mapM (c.tableRow inputs outputs)

end Circuit

end ReversibleLogic
