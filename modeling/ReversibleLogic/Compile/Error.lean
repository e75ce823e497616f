import ReversibleLogic.Circuit.Error

/-!
# Errors of compilation

Why a program, a section or a pass cannot be carried out.
-/

namespace ReversibleLogic

/-- The operators that need at least one operand. -/
inductive Operator where
  | and
  | xor
  | blackBox
  deriving DecidableEq

/-- The word for the operator in messages. -/
def Operator.word : Operator → String
  | .and => "and"
  | .xor => "xor"
  | .blackBox => "opaque"

/-- Why a compilation fails. -/
inductive CompileError where
  /-- The circuit refused a request. -/
  | circuit (e : CircuitError)
  /-- A symbol has no qubit. -/
  | unboundSymbol (name : Symbol)
  /-- A disjunction does not have two operands. -/
  | malformedOr (operands : Nat)
  /-- An operator has no operand. -/
  | emptyOperands (op : Operator)
  /-- A gate cannot be read as an expression. -/
  | unsupportedGate (name : String)
  /-- The new value of a symbol cannot be made on the symbol's own qubit. -/
  | notInPlace (name : Symbol)
  /-- A pass found the circuit at fault. -/
  | passFailed (pass reason : String)
  deriving DecidableEq

/-- The wording of the error. -/
def CompileError.message : CompileError → String
  | .circuit e => "IR error: " ++ e.message
  | .unboundSymbol name => s!"Symbol '{name}' is not bound to a qubit"
  | .malformedOr n => s!"Or expects exactly 2 operands, got {n}"
  | .emptyOperands op => "'" ++ op.word ++ "' requires at least one operand"
  | .unsupportedGate name => s!"Gate '{name}' cannot be decompiled"
  | .notInPlace name => s!"Assignment to '{name}' cannot be compiled in place"
  | .passFailed pass reason => s!"Pass '{pass}' failed: {reason}"

end ReversibleLogic
