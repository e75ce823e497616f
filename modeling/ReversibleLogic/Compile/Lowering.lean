import ReversibleLogic.Circuit.Cancel
import ReversibleLogic.Circuit.Uncompute
import ReversibleLogic.Compile.Error
import ReversibleLogic.Compile.Memo
import ReversibleLogic.Compile.Options
import ReversibleLogic.Program

/-!
# Lowering expressions to gates

An expression is lowered to gates of the NOT family that leave its value on a qubit. Each operator adds its value to a qubit
`out` that starts at 0:

* negation copies the operand to `out` and flips `out`, or flips the operand's own qubit when nothing else uses it;
* conjunction is one gate with the operands as controls;
* disjunction of `l` and `r` adds `l` and not `r`, and then adds `r`;
* exclusive or adds the operands one after another.

The state of a compilation is a `Workspace`: the circuit so far, the qubit of each symbol, the qubits known to hold the values
of expressions, and the two qubits that hold the constants, once they are needed. Operands that are scratch qubits are marked
when the gate that reads them has been appended, and are driven back to 0 after the assignment.

Lowering recurses on the expression. `Workspace.lower` leaves the value on a qubit of its choice, or on the qubit `dest` when
it can; `Workspace.addTo` adds the value to a given qubit.
-/

namespace ReversibleLogic

/-- The state of a compilation. -/
structure Workspace where
  /-- The circuit so far. -/
  circuit : Circuit
  /-- The settings. -/
  options : Options
  /-- The qubits that hold the values of expressions. -/
  memo : Memo := {}
  /-- The qubit of each symbol. -/
  env : NameMap := .empty
  /-- The symbols of the argument bits. -/
  inputs : List Symbol := []
  /-- The symbols of the outputs. -/
  outputs : List Symbol := []
  /-- The qubit that holds false. -/
  falseQubit : Option Qubit := none
  /-- The qubit that holds true. -/
  trueQubit : Option Qubit := none

/-- A step of a compilation: it changes the workspace and gives a result, or fails. -/
abbrev Lowering := StateT Workspace (Except CompileError)

namespace Workspace

/-! ## Steps on the circuit -/

/-- Applies an operation to the circuit that gives a result. -/
def onCircuit {α : Type} (f : Circuit → Circuit × α) : Lowering α := fun w =>
  let (circuit, a) := f w.circuit
  .ok (a, { w with circuit })

/-- Applies an operation to the circuit that may be refused. -/
def emit (f : Circuit → Circuit × Except CircuitError Unit) : Lowering Unit := fun w =>
  match f w.circuit with
  | (circuit, .ok ()) => .ok ((), { w with circuit })
  | (_, .error e) => .error (.circuit e)

/-- Appends a gate. -/
def gate (g : Gate) : Lowering Unit := emit (·.append g)

/-- The destination, or a free scratch qubit when none is given. -/
def scratch : Option Qubit → Lowering Qubit
  | some dest => return dest
  | none => onCircuit Circuit.takeAncilla

/-- Marks a qubit whose value has been used, if it is a scratch qubit without a name. -/
def release (q : Qubit) : Lowering Unit :=
  modify fun w => if w.circuit.isDisposable q then { w with circuit := (w.circuit.markAncilla q).1 } else w

/-- Marks qubits whose values have been used. -/
def releaseAll : List Qubit → Lowering Unit
  | [] => return
  | q :: rest => do
    release q
    releaseAll rest

/-! ## Steps on names and memo -/

/-- Adds a qubit for the bit of an argument. -/
def bindInput (s : Symbol) : Lowering Qubit := do
  let q ← onCircuit (·.addQubit (some s))
  modify fun w => { w with inputs := s :: w.inputs, env := w.env.insert s q }
  return q

/-- Adds qubits for the bits of the arguments. -/
def bindInputs : List Symbol → Lowering Unit
  | [] => return
  | s :: rest => do
    discard <| bindInput s
    bindInputs rest

/-- The qubit of a symbol. -/
def lookup (s : Symbol) : Lowering Qubit := do
  match (← get).env.get? s with
  | some q => return q
  | none => throw (.unboundSymbol s)

/-- Forgets what was held on a qubit whose value changes. -/
def forget (q : Qubit) : Lowering Unit := modify fun w => { w with memo := w.memo.eraseQubit q }

/-- Whether a change of the qubit changes the value of the symbol `target` and of nothing else that has a name. -/
def canOverwrite (w : Workspace) (target : Symbol) (q : Qubit) : Bool :=
  w.trueQubit != some q && w.falseQubit != some q && w.env.entries.all fun b => b.1 == target || b.2 != q

/-- Uses the qubit that holds the value of `e`, if it is known and may be used, and otherwise makes the value by `make`. -/
def reuse (e : Expression) (make : Lowering Qubit) : Lowering Qubit := do
  let w ← get
  match if w.options.memoize then w.memo.get? e else none with
  | some q => return q
  | none => make

/-- Like `reuse`, and notes the qubit on which `make` left the value. -/
def remember (e : Expression) (make : Lowering Qubit) : Lowering Qubit :=
  reuse e do
    let q ← make
    modify fun w => if w.options.memoize then { w with memo := w.memo.insert e q } else w
    return q

/-- Whether the value of `e` is known to be held somewhere. -/
def isHeld (e : Expression) : Lowering Bool := do
  let w ← get
  return w.options.memoize && w.memo.contains e

/-! ## Leaves -/

/-- Leaves a constant on the destination, or gives the qubit that holds the constant. -/
def lowerConst (value : Bool) : Option Qubit → Lowering Qubit
  | some dest => do
    if value then
      gate (.x dest)
    return dest
  | none => do
    let w ← get
    match if value then w.trueQubit else w.falseQubit with
    | some q => return q
    | none =>
      let q ← onCircuit (·.addQubit (some (if value then "TRUE" else "FALSE")))
      if value then
        gate (.x q)
        modify fun w => { w with trueQubit := some q }
      else
        modify fun w => { w with falseQubit := some q }
      return q

/-- Gives the qubit of a symbol. An argument that is assigned to itself as an output is copied. -/
def lowerRef (s : Symbol) (dest : Option Qubit) (target : Option Symbol) : Lowering Qubit := do
  let q ← lookup s
  let w ← get
  if target = some s ∧ s ∈ w.outputs ∧ s ∈ w.inputs then
    let copy ← match dest with
      | some dest => pure dest
      | none => onCircuit (·.addQubit none)
    gate (.cx q copy)
    return copy
  return q

/-! ## Operators

Each operator is given the step that lowers its operands, and says what is done with their qubits. -/

/-- Adds the disjunction of two qubits to `out`. -/
def addOr (lhs rhs out : Qubit) : Lowering Unit :=
  if lhs = rhs then
    gate (.cx lhs out)
  else do
    emit (·.appendConjugated rhs (.ccx lhs rhs out))
    gate (.cx rhs out)

/-- Whether the negation of `e`, assigned to `target`, is the flip of the target's own qubit, and of which qubit. -/
def flipInPlace? (e : Expression) (dest : Option Qubit) (target : Option Symbol) : Lowering (Option Qubit) := do
  match e, target, dest with
  | .ref s, some t, none =>
    let q ← lookup s
    return if s = t ∧ (← get).canOverwrite t q then some q else none
  | _, _, _ => return none

/-- Negates the value that `operand` leaves for `e`. The operand's own qubit is flipped if it is a scratch qubit that has
been made for `e` and that no expression known before is held on. -/
def negate (e : Expression) (dest : Option Qubit) (target : Option Symbol) (operand : Lowering Qubit) :
    Lowering Qubit := do
  match ← flipInPlace? e dest target with
  | some q =>
    forget q
    gate (.x q)
    return q
  | none =>
    let held := (← get).memo.qubits
    let q ← operand
    let fresh := e.isCompound && !decide (q ∈ held)
    if dest.isNone && fresh && (← get).circuit.isDisposable q then
      forget q
      gate (.x q)
      return q
    else
      let out ← scratch dest
      gate (.cx q out)
      gate (.x out)
      release q
      return out

/-- Leaves the conjunction of the operands on a qubit. A single operand is its own conjunction. -/
def conjoin (operands : Lowering (List Qubit)) (dest : Option Qubit) : Lowering Qubit := do
  match ← operands, dest with
  | [only], none => return only
  | controls, dest =>
    let out ← scratch dest
    gate (.mcx controls out)
    releaseAll controls
    return out

/-- Adds the conjunction of the operands to `out`. -/
def addConjunction (operands : Lowering (List Qubit)) (out : Qubit) : Lowering Unit := do
  let controls ← operands
  gate (.mcx controls out)
  releaseAll controls

/-- Leaves the disjunction of the two operands on a qubit. An operand is its own disjunction with itself. -/
def disjoin (operands : Lowering (Qubit × Qubit)) (dest : Option Qubit) : Lowering Qubit := do
  let (lhs, rhs) ← operands
  if lhs = rhs ∧ dest = none then
    return lhs
  else
    let out ← scratch dest
    addOr lhs rhs out
    release lhs
    release rhs
    return out

/-- Adds the disjunction of the two operands to `out`. -/
def addDisjunction (operands : Lowering (Qubit × Qubit)) (out : Qubit) : Lowering Unit := do
  let (lhs, rhs) ← operands
  addOr lhs rhs out
  release lhs
  release rhs

/-- Where the exclusive or of `es`, assigned to `target`, can be added up on the target's own qubit: the position of the target
among the operands and its qubit. The target must be an operand, no other operand may mention it, and nothing else may have
its qubit. -/
def sumInPlace? (w : Workspace) (es : List Expression) (dest : Option Qubit) (target : Option Symbol) :
    Option (Nat × Qubit) :=
  match target, dest with
  | some t, none =>
    match es.findIdx? (fun e => e.ref? == some t), w.env.get? t with
    | some pos, some q =>
      if !Expression.anyMentions t (es.eraseIdx pos) && w.canOverwrite t q then some (pos, q) else none
    | _, _ => none
  | _, _ => none

/-- Leaves the exclusive or of `es` on a qubit. `add` adds all operands to a qubit, but for the one at a given position. -/
def sumUp (es : List Expression) (dest : Option Qubit) (target : Option Symbol)
    (add : Qubit → Option Nat → Lowering Unit) : Lowering Qubit := do
  if es.isEmpty then
    throw (.emptyOperands .xor)
  match (← get).sumInPlace? es dest target with
  | some (pos, q) =>
    forget q
    add q (some pos)
    return q
  | none =>
    let out ← scratch dest
    add out none
    return out

/-- Applies a black box to its operands. Its result is taken to be on the last of them. -/
def applyBlackBox (tag : String) (operands : Lowering (List Qubit)) : Lowering Qubit := do
  let qubits ← operands
  match qubits.getLast? with
  | none => throw (.emptyOperands .blackBox)
  | some last =>
    forget last
    gate { kind := .blackBox tag, qubits }
    return last

/-- Adds the value of a qubit to `out`. -/
def addValue (value : Lowering Qubit) (out : Qubit) : Lowering Unit := do
  let q ← value
  gate (.cx q out)
  release q

/-- Refuses an operator without operands. -/
def atLeastOne {α : Type} (op : Operator) (es : List Expression) (step : Lowering α) : Lowering α :=
  if es.isEmpty then throw (.emptyOperands op) else step

/-! ## Expressions -/

mutual

/-- Leaves the value of the expression on a qubit and says which. `dest` is a qubit at 0 where the value is wanted; the value
may end up elsewhere all the same. `target` is the symbol that the whole expression is assigned to. -/
def lower : Expression → Option Qubit → Option Symbol → Lowering Qubit
  | .const value, dest, _ => reuse (.const value) (lowerConst value dest)
  | .ref s, dest, target => reuse (.ref s) (lowerRef s dest target)
  | .not e, dest, target => remember (.not e) (negate e dest target (lower e none none))
  | .and es, dest, _ => remember (.and es) (conjoin (atLeastOne .and es (lowerAll es [])) dest)
  | .or es, dest, _ => remember (.or es) (disjoin (lowerPair es) dest)
  | .xor es, dest, target => remember (.xor es) (sumUp es dest target (addAll es))
  | .blackBox tag es, _, _ => remember (.blackBox tag es) (applyBlackBox tag (atLeastOne .blackBox es (lowerAll es [])))

/-- Leaves the values of the expressions on qubits and adds these to `found`, each once. -/
def lowerAll : List Expression → List Qubit → Lowering (List Qubit)
  | [], found => return found
  | e :: es, found => do
    let q ← lower e none none
    lowerAll es (if q ∈ found then found else found ++ [q])

/-- Leaves the values of two expressions on qubits. -/
def lowerPair : List Expression → Lowering (Qubit × Qubit)
  | [l, r] => do
    let lhs ← lower l none none
    let rhs ← lower r none none
    return (lhs, rhs)
  | es => throw (.malformedOr es.length)

/-- Adds the value of the expression to the qubit `out`. A value that is held somewhere is added from there; otherwise
conjunction and disjunction go to `out` without a qubit of their own, and a negation becomes a flip of `out`. -/
def addTo : Expression → Qubit → Lowering Unit
  | .const value, out => if value then gate (.x out) else return
  | .ref s, out => addValue (reuse (.ref s) (lowerRef s none none)) out
  | .not e, out => do
    addTo e out
    gate (.x out)
  | .and es, out => do
    if ← isHeld (.and es) then
      addValue (remember (.and es) (conjoin (atLeastOne .and es (lowerAll es [])) none)) out
    else
      addConjunction (atLeastOne .and es (lowerAll es [])) out
  | .or es, out => do
    if ← isHeld (.or es) then
      addValue (remember (.or es) (disjoin (lowerPair es) none)) out
    else
      addDisjunction (lowerPair es) out
  | .xor es, out => addValue (remember (.xor es) (sumUp es none none (addAll es))) out
  | .blackBox tag es, out =>
    addValue (remember (.blackBox tag es) (applyBlackBox tag (atLeastOne .blackBox es (lowerAll es [])))) out

/-- Adds the values of the expressions to the qubit `out`, but for the one at position `skip`. -/
def addAll : List Expression → Qubit → Option Nat → Lowering Unit
  | [], _, _ => return
  | e :: es, out, skip =>
    match skip with
    | some 0 => addAll es out none
    | _ => do
      addTo e out
      addAll es out (skip.map (· - 1))

end

end Workspace

end ReversibleLogic
