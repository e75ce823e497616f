/-!
# Options

What a user can set for the compiler and the optimizer.
-/

namespace ReversibleLogic

/-- The settings of the compiler and the optimizer. -/
structure Options where
  /-- Whether the qubit of an expression that has been compiled before is used again. -/
  memoize : Bool := true
  /-- Whether all qubits but the outputs are rewound at the end. -/
  uncompute : Bool := true
  /-- Whether equal neighbours are cancelled at the end. -/
  removeIdentities : Bool := true
  /-- The most symbols over which two expressions are compared by their values. -/
  maxVerifyInputs : Nat := 16
  /-- The most nodes an expression of a section may have before a new section is begun. -/
  maxExpressionSize : Nat := 4096
  deriving DecidableEq, Inhabited

end ReversibleLogic
