import ReversibleLogic.Expression.Order
import ReversibleLogic.Gate

/-!
# Sections

A section is a run of gates of the NOT family, read as simultaneous assignments: for each qubit that the run writes, the
expression of its final value over the values that the qubits have when the run begins. Qubits appear in expressions by
symbols, one for each qubit; `uniqueSymbols` makes them from labels, of which several may be equal.
-/

namespace ReversibleLogic

/-- A run of gates and what it does. -/
structure Section where
  /-- The gates of the run. -/
  gates : List Gate
  /-- The final values of the qubits that the run writes, by symbol, in the order in which they are first written. -/
  expressions : List (Symbol × Expression)
  /-- The symbols of the qubits that the run touches, in the order in which they are first touched. -/
  symbols : List (Symbol × Qubit)
  /-- The position of the first gate in the circuit. -/
  start : Nat
  /-- The position after the last gate in the circuit. -/
  stop : Nat
  deriving DecidableEq

namespace Section

/-- The qubits that the run touches. -/
def qubits (s : Section) : List Qubit := s.symbols.map Prod.snd

/-- The symbols of the qubits that the run touches. -/
def symbolNames (s : Section) : List Symbol := s.symbols.map Prod.fst

/-- The final value of a symbol. One that the run does not write keeps its value. -/
def expressionOf (s : Section) (name : Symbol) : Expression := (s.expressions.lookup name).getD (.ref name)

end Section

/-! ## One symbol for each qubit -/

/-- The names that may stand for `base`: itself, and then with a number added. The numbers are natural numbers here and have no
bound of their own. Those that are tried for the qubits of a circuit are below the number of its labels
(`getElem?_uniqueSymbols_eq_variant`), so a counter of 32 bits with a sign does not run over below 2 ^ 31 labels. -/
def variant (base : String) : Nat → String
  | 0 => base
  | n + 1 => s!"{base}#{n + 1}"

/-- The first variant of `base` that is not taken. Among more variants than there are taken names one is not taken. -/
def freshName (taken : List String) (base : String) : String :=
  match (List.range (taken.length + 1)).find? fun n => variant base n ∉ taken with
  | some n => variant base n
  | none => base

/-- The symbols of the labels from position `index` on. A label that occurs once stays as it is; any other gets its position
added, and a number when that is taken. -/
def uniqueFrom (labels : List Symbol) (taken : List String) (index : Nat) : List Symbol → List Symbol
  | [] => []
  | label :: rest =>
    if labels.count label ≤ 1 then
      label :: uniqueFrom labels taken (index + 1) rest
    else
      let name := freshName taken s!"{label}@{index}"
      name :: uniqueFrom labels (name :: taken) (index + 1) rest

/-- One symbol for each label, no two of them equal. -/
def uniqueSymbols (labels : List Symbol) : List Symbol :=
  uniqueFrom labels (labels.filter fun label => labels.count label == 1) 0 labels

end ReversibleLogic
