import ReversibleLogic.Compile.Lowering

/-!
# Compiling programs

The argument bits become the first qubits of the circuit. The assignments are made in order; the value of an output is left on
a qubit of its own, and every other symbol is bound to the qubit on which its value happens to be. After each assignment the
scratch qubits that are no longer needed are driven back to 0. At the end all qubits but those of the outputs are rewound, if
the options ask for it, and equal neighbours are cancelled, if they ask for that.
-/

namespace ReversibleLogic

namespace Workspace

/-- The workspace in which nothing has been done. -/
def start (options : Options) (name : String) (outputs : List Symbol) : Workspace :=
  { circuit := .new name, options, outputs }

/-- Binds `target` to the qubit that holds `expr`, and drops what the memo knew about expressions of the old value. -/
def rebind (target : Symbol) (expr : Expression) (q : Qubit) : Lowering Unit := modify fun w =>
  let memo := if (w.env.get? target).isSome then w.memo.eraseSymbol target else w.memo
  let memo := if w.options.memoize && expr.isCompound && !expr.mentions target then memo.insert expr q else memo
  { w with env := w.env.insert target q, memo }

/-- Drives the marked qubits back to 0 and forgets what they held. -/
def reclaim : Lowering Unit := do
  let reclaimed ← onCircuit (·.uncompute [])
  modify fun w => { w with memo := reclaimed.toList.foldl Memo.eraseQubit w.memo }

/-- Moves a value to the destination, if there is one and the value is elsewhere. -/
def deliver (q : Qubit) : Option Qubit → Lowering Qubit
  | some dest =>
    if dest = q then
      return q
    else do
      gate (.cx q dest)
      release q
      return dest
  | none => return q

/-- Makes one assignment. -/
def assign (a : Assignment) : Lowering Unit := do
  let dest ← if a.target ∈ (← get).outputs then some <$> onCircuit (·.addQubit none) else pure none
  let q ← lower a.expr dest (some a.target)
  let q ← deliver q dest
  rebind a.target a.expr q
  emit (·.mapQubit a.target q (!a.target.isSynthetic))
  discard <| onCircuit (·.unmarkAncilla q)
  reclaim

/-- Makes assignments in order. -/
def assignAll : List Assignment → Lowering Unit
  | [] => return
  | a :: rest => do
    assign a
    assignAll rest

/-- The qubits of symbols. -/
def lookupAll : List Symbol → Lowering (List Qubit)
  | [] => return []
  | s :: rest => do
    let q ← lookup s
    return q :: (← lookupAll rest)

/-- Binds the arguments, makes the assignments, and gives the qubits of the outputs. -/
def build (inputs : List Symbol) (assignments : List Assignment) (outputs : List Symbol) : Lowering (List Qubit) := do
  bindInputs inputs
  assignAll assignments
  lookupAll outputs

/-- The circuit with what the options ask for at the end, keeping the values of the qubits `keep`. -/
def finish (w : Workspace) (keep : List Qubit) : Circuit :=
  let circuit := if w.options.uncompute then (w.circuit.uncomputeAll keep).1 else w.circuit
  if w.options.removeIdentities then circuit.removeIdentities.1 else circuit

end Workspace

/-- The circuit of assignments over the given arguments, for the given outputs. -/
def compileAssignments (options : Options) (name : String) (inputs : List Symbol) (assignments : List Assignment)
    (outputs : List Symbol) : Except CompileError Circuit := do
  let (keep, w) ← (Workspace.build inputs assignments outputs).run (.start options name outputs)
  return w.finish keep

/-- The circuit of a program. -/
def Program.compile (options : Options) (p : Program) : Except CompileError Circuit :=
  compileAssignments options p.name p.inputSymbols p.assignments p.outputs

end ReversibleLogic
