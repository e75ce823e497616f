import ReversibleLogic.Circuit.Simulate
import ReversibleLogic.Optimize

/-!
# Passes

A pass takes a circuit and gives a circuit, or fails and leaves the circuit as it was. Transformations change the circuit;
an analysis only looks at it. `runPasses` makes passes one after another, leaves out those that have nothing to do on the
circuit at hand, and stops at the first failure. `PassPlan` describes the usual sequences of passes by a level.
-/

namespace ReversibleLogic

/-- Whether a pass may change the circuit. -/
inductive PassKind where
  | analysis
  | transformation
  deriving DecidableEq

/-- A pass over a circuit. -/
inductive Pass where
  /-- Cancels equal neighbours. -/
  | removeIdentities
  /-- Optimizes the circuit by its boolean reading. -/
  | booleanOptimization (preserve : Option (List Qubit)) (options : Options)
  /-- Checks that the circuit keeps its inputs and leaves all qubits but inputs and outputs at 0, by running it on all values of
  the inputs. It is not made for more than `maxInputs` inputs. -/
  | uncomputeVerification (inputs outputs : List Qubit) (maxInputs : Nat)

namespace Pass

/-- The most inputs that a verification can be asked to go through. -/
def inputLimit : Nat := 32

/-- The most inputs that a verification goes through unless said otherwise. -/
def defaultMaxInputs : Nat := 16

/-- The verification for at most `maxInputs` inputs, and at most `inputLimit`. -/
def verification (inputs outputs : List Qubit) (maxInputs : Nat) : Pass :=
  .uncomputeVerification inputs outputs (min maxInputs inputLimit)

/-- What the pass is called. -/
def name : Pass → String
  | .removeIdentities => "remove_identities"
  | .booleanOptimization _ _ => "boolean_optimization"
  | .uncomputeVerification _ _ _ => "uncompute_verification"

/-- Whether the pass may change the circuit. -/
def kind : Pass → PassKind
  | .removeIdentities | .booleanOptimization _ _ => .transformation
  | .uncomputeVerification _ _ _ => .analysis

/-- Whether the pass has something to do on the circuit. -/
def shouldRun : Pass → Circuit → Bool
  | .removeIdentities, c => decide (c.numGates > 1)
  | .booleanOptimization _ _, _ => true
  | .uncomputeVerification inputs _ maxInputs, c =>
    decide (inputs.length ≤ maxInputs) && c.gates.all fun g => !g.kind.isBlackBox

end Pass

/-! ## Verification -/

/-- A number in base two, with the mark of that base in front. -/
def renderBinary (n : Nat) : String := "0b" ++ String.ofList (Nat.toDigits 2 n)

/-- The values of the inputs in a row: the first input has the lowest bit. -/
def inputValues (inputs : List Qubit) (row : Nat) : List (Qubit × Bool) :=
  inputs.zipIdx.map fun (q, i) => (q, row.testBit i)

/-- What is wrong with the final bits of a row, if anything: an input that is not an output and has changed, or else a qubit
that is neither and is set. -/
def rowProblem (inputs outputs : List Qubit) (row : Nat) (s : Register) : Option String :=
  match (inputValues inputs row).find? fun (q, value) => !outputs.contains q && s.getD q false != value with
  | some (q, _) => some s!"input q{q} modified for row {renderBinary row}"
  | none =>
    match (List.range s.size).find? fun q => s.getD q false && !inputs.contains q && !outputs.contains q with
    | some q => some s!"qubit q{q} left at 1 for row {renderBinary row}"
    | none => none

/-- Checks `n` rows from `row` on. -/
def verifyRows (c : Circuit) (inputs outputs : List Qubit) (row : Nat) : Nat → Except CompileError Unit
  | 0 => .ok ()
  | n + 1 => do
    let s ← (c.simulateWith (inputValues inputs row)).mapError .circuit
    match rowProblem inputs outputs row s with
    | some reason => throw (.passFailed "uncompute_verification" reason)
    | none => verifyRows c inputs outputs (row + 1) n

/-- Checks the circuit on all values of the inputs. -/
def verifyUncomputed (c : Circuit) (inputs outputs : List Qubit) (maxInputs : Nat) : Except CompileError Unit :=
  if inputs.length > maxInputs then
    .error (.passFailed "uncompute_verification" s!"{inputs.length} inputs exceed the limit of {maxInputs}")
  else
    verifyRows c inputs outputs 0 (Nat.pow 2 inputs.length)

/-! ## Running passes -/

/-- Runs a pass. -/
def Pass.run : Pass → Circuit → Except CompileError Circuit
  | .removeIdentities, c => .ok c.removeIdentities.1
  | .booleanOptimization preserve options, c => Optimizer.optimize { options } c preserve
  | .uncomputeVerification inputs outputs maxInputs, c => do
    verifyUncomputed c inputs outputs maxInputs
    return c

/-- Runs passes in order up to the first failure. Gives the circuit as it is then, and the failure. -/
def runPasses : List Pass → Circuit → Circuit × Option CompileError
  | [], c => (c, none)
  | p :: rest, c =>
    if p.shouldRun c then
      match p.run c with
      | .ok c => runPasses rest c
      | .error e => (c, some e)
    else
      runPasses rest c

/-! ## Plans -/

/-- A choice of passes. -/
structure PassPlan where
  /-- How much is done: nothing, cancelling neighbours, also optimizing once, or optimizing twice. -/
  level : Nat := 1
  /-- The settings of the optimizer. -/
  options : Options := {}
  /-- The qubits that carry a value at the start; all qubits if not given. -/
  preserve : Option (List Qubit) := none
  /-- The inputs and outputs to verify the circuit for, if it is to be verified. -/
  verify : Option (List Qubit × List Qubit) := none

/-- The passes of a plan, in order. -/
def PassPlan.passes (p : PassPlan) : List Pass :=
  let boolean := Pass.booleanOptimization p.preserve p.options
  (if p.level ≥ 2 then [boolean] else []) ++
  (if p.level ≥ 3 then [boolean] else []) ++
  (if p.level ≥ 1 then [.removeIdentities] else []) ++
  (match p.verify with
    | some (inputs, outputs) => [.verification inputs outputs p.options.maxVerifyInputs]
    | none => [])

end ReversibleLogic
