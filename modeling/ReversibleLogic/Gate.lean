import ReversibleLogic.Qubit

/-!
# Gates

The gates of the NOT family flip their target when all their controls are set: without controls, with one, with two, or with a
stated number of them. Beside them stand the barrier, which does nothing and marks a place, and the black box, which is known
by its name alone. A gate is a kind applied to a list of qubits, the last of which is the target, and it may carry a numeric
parameter.

Parameters are carried and compared and never computed with, so a parameter is its 64-bit pattern. `Param.same` compares two
patterns as binary floating-point numbers are compared: no pattern of a NaN is the same as any, and the two zeros are the same.
-/

namespace ReversibleLogic

/-! ## Parameters -/

/-- A binary floating-point number of 64 bits, by its pattern. -/
structure Param where
  /-- Sign, eleven bits of exponent, fifty-two bits of fraction. -/
  bits : UInt64
  deriving DecidableEq

namespace Param

/-- The bits of the exponent. -/
def exponent (p : Param) : UInt64 := (p.bits >>> 52) &&& 0x7ff

/-- The bits of the fraction. -/
def fraction (p : Param) : UInt64 := p.bits &&& 0xfffffffffffff

/-- Whether the pattern is a NaN. -/
def isNaN (p : Param) : Bool := p.exponent == 0x7ff && p.fraction != 0

/-- Whether the pattern is a zero, of either sign. -/
def isZero (p : Param) : Bool := p.bits <<< 1 == 0

/-- Whether the two numbers are equal as numbers. -/
def same (p r : Param) : Bool := !p.isNaN && !r.isNaN && (p.bits == r.bits || (p.isZero && r.isZero))

/-- Whether two optional parameters are both absent or equal as numbers. -/
def same? : Option Param → Option Param → Bool
  | none, none => true
  | some p, some r => p.same r
  | _, _ => false

end Param

/-! ## Kinds of gates -/

/-- The kind of a gate. -/
inductive GateKind where
  /-- NOT. -/
  | x
  /-- NOT with one control. -/
  | cx
  /-- NOT with two controls. -/
  | ccx
  /-- NOT with the stated number of controls. -/
  | mcx (controls : Nat)
  /-- A mark between gates, without effect. -/
  | barrier
  /-- An operation known by its name alone. -/
  | blackBox (name : String)
  deriving DecidableEq

namespace GateKind

/-- The kind of the NOT family for a number of controls. -/
def ofControls : Nat → GateKind
  | 0 => .x
  | 1 => .cx
  | 2 => .ccx
  | n => .mcx n

/-- The name of the kind. -/
def name : GateKind → String
  | .x => "x"
  | .cx => "cx"
  | .ccx => "ccx"
  | .mcx _ => "mcx"
  | .barrier => "barrier"
  | .blackBox name => name

/-- How many qubits a gate of this kind has, if the kind fixes it. -/
def arity? : GateKind → Option Nat
  | .x => some 1
  | .cx => some 2
  | .ccx => some 3
  | .mcx n => some (n + 1)
  | .barrier | .blackBox _ => none

/-- Whether the kind is of the NOT family. -/
def isClassical : GateKind → Bool
  | .x | .cx | .ccx | .mcx _ => true
  | .barrier | .blackBox _ => false

/-- Whether the kind is the barrier. -/
def isBarrier : GateKind → Bool
  | .barrier => true
  | _ => false

/-- Whether the kind is a black box. -/
def isBlackBox : GateKind → Bool
  | .blackBox _ => true
  | _ => false

end GateKind

/-! ## Gates on qubits -/

/-- A gate applied to qubits. -/
structure Gate where
  /-- What the gate does. -/
  kind : GateKind
  /-- The qubits it is applied to: the controls and last the target. -/
  qubits : List Qubit
  /-- A number that goes with the gate. -/
  param : Option Param := none
  deriving DecidableEq

namespace Gate

/-- NOT on `target`. -/
def x (target : Qubit) : Gate := { kind := .x, qubits := [target] }

/-- NOT on `target` under one control. -/
def cx (control target : Qubit) : Gate := { kind := .cx, qubits := [control, target] }

/-- NOT on `target` under two controls. -/
def ccx (control₁ control₂ target : Qubit) : Gate := { kind := .ccx, qubits := [control₁, control₂, target] }

/-- NOT on `target` under the controls, of the kind for their number. -/
def mcx (controls : List Qubit) (target : Qubit) : Gate :=
  { kind := .ofControls controls.length, qubits := controls ++ [target] }

/-- The last qubit. -/
def target? (g : Gate) : Option Qubit := g.qubits.getLast?

/-- All qubits but the last. -/
def controls (g : Gate) : List Qubit := g.qubits.dropLast

/-- The name of the gate's kind. -/
def name (g : Gate) : String := g.kind.name

/-- Whether two gates are of one kind, on the same qubits, and with equal numbers. A gate with a NaN differs from itself. -/
def same (g h : Gate) : Bool := g.kind == h.kind && g.qubits == h.qubits && Param.same? g.param h.param

end Gate

end ReversibleLogic
