import ReversibleLogic.Compile.InPlace
import ReversibleLogic.Section.Decompile
import ReversibleLogic.Simplify

/-!
# Optimization of circuits

Each section of a circuit is read as expressions, simplified, and compiled in place over its own qubits. What comes out takes
the place of the section if it has fewer gates, needs no further qubit, and has been found to compute the same values; the
simplifier is not trusted. Expressions are compared by their values over all assignments of their symbols, up to a number of
symbols that the options set.

If the caller says which qubits carry a value at the start, all others start at 0, and such a qubit still holds 0 at the start
of a section when no earlier gate has touched it.
-/

namespace ReversibleLogic

/-! ## Comparing expressions by their values -/

/-- The valuation that gives the symbols, in order, the bits of `row`, the lowest first. -/
def Valuation.ofRow (symbols : List Symbol) (row : Nat) : Valuation := fun s => (symbols.idxOf? s).map row.testBit

/-- Whether two expressions have the same value for the bits of `row`. -/
def agreeOn (symbols : List Symbol) (l r : Expression) (row : Nat) : Bool :=
  let env := Valuation.ofRow symbols row
  match l.eval env, r.eval env with
  | .ok a, .ok b => a == b
  | _, _ => false

/-- Whether `p` holds of `start` and of the numbers after it, `n` numbers in all. -/
def allFrom (p : Nat → Bool) (start : Nat) : Nat → Bool
  | 0 => true
  | n + 1 => p start && allFrom p (start + 1) n

/-- The most symbols over which expressions are compared by their values, whatever the options say. -/
def maxComparedSymbols : Nat := 32

/-- Whether two expressions are equal, or have few enough symbols and the same value under every assignment of these. -/
def sameFunction (options : Options) (l r : Expression) : Bool :=
  if l = r then
    true
  else
    let symbols := r.addSymbols l.symbols
    if symbols.length > min options.maxVerifyInputs maxComparedSymbols then false
    else allFrom (agreeOn symbols l r) 0 (Nat.pow 2 symbols.length)

/-! ## Qubits that still hold 0 -/

/-- Notes for each of the qubits that the gate at position `index` touches it, if no earlier gate did. -/
def noteTouched (index : Nat) (first : Array (Option Nat)) : List Qubit → Except CircuitError (Array (Option Nat))
  | [] => .ok first
  | q :: rest =>
    if q < first.size then noteTouched index (first.modify q fun t => some (t.getD index)) rest
    else .error (.fault (.strayQubit q))

/-- Notes for each qubit the first gate from position `index` on that touches it, barriers not counted. -/
def firstTouchFrom (index : Nat) (first : Array (Option Nat)) : List Gate → Except CircuitError (Array (Option Nat))
  | [] => .ok first
  | g :: rest => do
    let first ← if g.kind.isBarrier then pure first else noteTouched index first g.qubits
    firstTouchFrom (index + 1) first rest

/-- For each qubit the position of the first gate that touches it, barriers not counted. -/
def Circuit.firstTouch (c : Circuit) : Except CircuitError (Array (Option Nat)) :=
  firstTouchFrom 0 (.replicate c.numQubits none) c.gates

/-- The symbols of a section whose qubits hold 0 at its start: those that carry no value at the start of the circuit and that
no gate has touched before the section. -/
def Section.zeroed (s : Section) (firstTouch : Array (Option Nat)) : Option (List Qubit) → List Symbol
  | none => []
  | some preserve =>
    (s.symbols.filter fun b =>
      !preserve.contains b.2 && ((firstTouch[b.2]?.bind id).map (decide <| s.start ≤ ·)).getD false).map Prod.fst

/-! ## Replacing a section -/

/-- What the optimizer works with. -/
structure Optimizer where
  /-- The way to simplify expressions. -/
  simplifier : Simplifier := .algebraic Simplifier.defaultRounds
  /-- The settings. -/
  options : Options := {}

namespace Optimizer

/-- Puts false for the symbols that hold 0. -/
def zeros (zeroed : List Symbol) : Symbol → Option Expression := fun s =>
  if s ∈ zeroed then some (.const false) else none

/-- The assignments that make up a section, simplified, without those that change nothing. -/
def assignments (o : Optimizer) (s : Section) (zeroed : List Symbol) : List Assignment :=
  s.expressions.filterMap fun (name, e) =>
    let value := o.simplifier.simplify (e.substitute (zeros zeroed))
    let unchanged := if name ∈ zeroed then value = .const false else value.ref? = some name
    if unchanged then none else some ⟨name, value⟩

/-- The final values of a circuit's qubits by symbol, from its sections; where two sections write a qubit the later counts. -/
def finalValues (sections : List Section) : List (Symbol × Expression) :=
  (sections.flatMap Section.expressions).reverse

/-- Whether the candidate leaves every qubit of the section as the section does. -/
def equivalent (o : Optimizer) (s : Section) (candidate : Circuit) (zeroed : List Symbol) : Except CompileError Bool := do
  let values := finalValues (← candidate.decompile none)
  return s.symbolNames.all fun name =>
    sameFunction o.options ((s.expressionOf name).substitute (zeros zeroed))
      (((values.lookup name).getD (.ref name)).substitute (zeros zeroed))

/-- A shorter circuit over the section's qubits with the same effect, if one is found. -/
def replacement? (o : Optimizer) (firstTouch : Array (Option Nat)) (preserve : Option (List Qubit)) (s : Section) :
    Except CompileError (Option Circuit) :=
  let zeroed := s.zeroed firstTouch preserve
  let name := s!"section[{s.start}..{s.stop}]"
  match compileInPlace o.options name s.symbolNames (o.assignments s zeroed) zeroed with
  | .error _ => return none
  | .ok candidate => do
    if candidate.numQubits ≠ s.symbols.length ∨ candidate.numGates ≥ s.gates.length then
      return none
    return if ← o.equivalent s candidate zeroed then some candidate else none

/-- The replacements of sections, found from the last section to the first. -/
def replaceAll (o : Optimizer) (firstTouch : Array (Option Nat)) (preserve : Option (List Qubit)) :
    List Section → Except CompileError (List (Option Circuit))
  | [] => .ok []
  | s :: rest => do
    let later ← replaceAll o firstTouch preserve rest
    return (← o.replacement? firstTouch preserve s) :: later

/-! ## Putting the circuit together -/

/-- Appends gates to a circuit under construction. -/
def appendGates (c : Circuit) (gates : List Gate) : Except CompileError Circuit :=
  (c.appendAll gates).mapError .circuit

/-- Appends the replacement of a section, or its own gates. -/
def appendSection (c : Circuit) (s : Section) : Option Circuit → Except CompileError Circuit
  | none => appendGates c s.gates
  | some candidate =>
    match c.appendCircuit candidate s.qubits with
    | (c, .ok ()) => .ok c
    | (_, .error e) => .error (.circuit e)

/-- Appends the gates of a circuit from position `cursor` on, with sections replaced. -/
def splice (gates : List Gate) (cursor : Nat) (c : Circuit) :
    List (Section × Option Circuit) → Except CompileError Circuit
  | [] => appendGates c (gates.drop cursor)
  | (s, replacement) :: rest => do
    let c ← appendGates c ((gates.take s.start).drop cursor)
    let c ← appendSection c s replacement
    splice gates s.stop c rest

/-- A circuit on the same register that leaves the same value on every qubit. With `preserve` all qubits outside of it are
taken to start at 0. -/
def optimize (o : Optimizer) (c : Circuit) (preserve : Option (List Qubit)) : Except CompileError Circuit := do
  let sections ← c.decompile (some o.options.maxExpressionSize)
  let firstTouch ← c.firstTouch.mapError .circuit
  let replacements ← o.replaceAll firstTouch preserve sections
  let out ← splice c.gates 0 c.emptyLike (sections.zip replacements)
  return out.removeIdentities.1

end Optimizer

end ReversibleLogic
