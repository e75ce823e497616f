import ReversibleLogic.Circuit.Basic
import ReversibleLogic.Compile.Error
import ReversibleLogic.Section.Basic

/-!
# Reading gates back as expressions

A circuit is cut into sections: the longest runs of gates of the NOT family, and shorter ones where an expression would
otherwise grow beyond a limit. Along a run the value of each qubit is kept as an expression over the values at the start of the
run. A flip negates the value of its target; a gate with controls adds to it the control, or the conjunction of the controls.

The number of nodes of an expression is kept beside it, so that the limit can be checked before the next gate is read.
-/

namespace ReversibleLogic

/-- A run of gates that is being read. -/
structure Run where
  /-- The position of the first gate. -/
  start : Nat
  /-- The gates read, the latest first. -/
  gates : List Gate := []
  /-- The qubits touched, the latest first. -/
  touched : List Qubit := []
  /-- The qubits written, the latest first. -/
  written : List Qubit := []
  /-- The values of the qubits that have been written, with their sizes. -/
  values : List (Qubit × Expression × Nat) := []

namespace Run

/-- The size of the value of a qubit. A qubit that has not been written has the value of its symbol, of size 1. -/
def sizeOf (r : Run) (q : Qubit) : Nat :=
  match r.values.lookup q with
  | some (_, n) => n
  | none => 1

/-- The size of the value of the gate's target after the gate. -/
def sizeAfter (r : Run) (g : Gate) : Nat :=
  let controls := (g.controls.map r.sizeOf).foldl (· + ·) 0
  let target := (g.target?.map r.sizeOf).getD 0
  match g.controls.length with
  | 0 => 1 + target
  | 1 => 1 + controls + target
  | _ => 2 + controls + target

/-- Notes that the qubit is touched, and gives its value. -/
def touch (symbols : List Symbol) (r : Run) (q : Qubit) : Except CompileError (Expression × Run) :=
  let r := if q ∈ r.touched then r else { r with touched := q :: r.touched }
  match r.values.lookup q with
  | some (e, _) => .ok (e, r)
  | none =>
    match symbols[q]? with
    | some name => .ok (.ref name, r)
    | none => .error (.circuit (.fault (.strayQubit q)))

/-- Touches qubits in order and gives their values. -/
def touchAll (symbols : List Symbol) (r : Run) : List Qubit → Except CompileError (List Expression × Run)
  | [] => .ok ([], r)
  | q :: rest => do
    let (e, r) ← r.touch symbols q
    let (es, r) ← touchAll symbols r rest
    return (e :: es, r)

/-- The value of a gate's target after the gate, from the values of the controls and of the target before it. -/
def newValue (g : Gate) (controls : List Expression) (old : Expression) : Except CompileError Expression :=
  match g.kind with
  | .x => .ok (.not old)
  | .cx => .ok (.xor (controls ++ [old]))
  | .ccx | .mcx _ => .ok (.xor [.and controls, old])
  | .barrier | .blackBox _ => .error (.unsupportedGate g.name)

/-- Reads one more gate. -/
def push (symbols : List Symbol) (r : Run) (g : Gate) : Except CompileError Run := do
  match g.target? with
  | none => throw (.unsupportedGate g.name)
  | some target =>
    let size := r.sizeAfter g
    let (controls, r) ← r.touchAll symbols g.controls
    let (old, r) ← r.touch symbols target
    let value ← newValue g controls old
    return { r with
      gates := g :: r.gates
      written := if target ∈ r.written then r.written else target :: r.written
      values := (target, value, size) :: r.values.filter (·.1 ≠ target) }

/-- The symbol of a qubit. -/
def symbolOf (symbols : List Symbol) (q : Qubit) : Symbol := symbols[q]?.getD ""

/-- The section that has been read. A qubit whose value is its own symbol again is not listed as changed. -/
def toSection (symbols : List Symbol) (r : Run) : Section where
  gates := r.gates.reverse
  symbols := r.touched.reverse.map fun q => (symbolOf symbols q, q)
  expressions := r.written.reverse.filterMap fun q =>
    match r.values.lookup q with
    | some (e, _) => if e.ref? == some (symbolOf symbols q) then none else some (symbolOf symbols q, e)
    | none => none
  start := r.start
  stop := r.start + r.gates.length

end Run

/-- The section of a run, if there is a run. -/
def closeRun (symbols : List Symbol) : Option Run → List Section
  | some r => [r.toSection symbols]
  | none => []

/-- The run to which the next gate belongs and the sections that end before it: a run ends where the gate's value would grow
beyond the limit. -/
def Run.admit (symbols : List Symbol) (limit : Option Nat) (index : Nat) (current : Option Run) (g : Gate) :
    List Section × Run :=
  match current, limit with
  | some r, some max =>
    if !r.gates.isEmpty && r.sizeAfter g > max then (closeRun symbols current, { start := index }) else ([], r)
  | some r, none => ([], r)
  | none, _ => ([], { start := index })

/-- The sections of the gates from position `index` on, where `current` is the run that has not ended. -/
def sectionsFrom (symbols : List Symbol) (limit : Option Nat) (index : Nat) (current : Option Run) :
    List Gate → Except CompileError (List Section)
  | [] => .ok (closeRun symbols current)
  | g :: rest =>
    if g.kind.isClassical then do
      let (done, r) := Run.admit symbols limit index current g
      let r ← r.push symbols g
      return done ++ (← sectionsFrom symbols limit (index + 1) (some r) rest)
    else do
      return closeRun symbols current ++ (← sectionsFrom symbols limit (index + 1) none rest)

/-- The sections of a circuit, in order. -/
def Circuit.decompile (limit : Option Nat) (c : Circuit) : Except CompileError (List Section) :=
  sectionsFrom (uniqueSymbols c.labels) limit 0 none c.gates

end ReversibleLogic
