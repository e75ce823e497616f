import ReversibleLogic.Expression.Order
import ReversibleLogic.Qubit

/-!
# What is held where

A memo knows for expressions that have been compiled the qubit that holds their value. An entry is of use only as long as that
is so: it is dropped when its qubit changes (`eraseQubit`) and when a symbol of its expression changes (`eraseSymbol`).
-/

namespace ReversibleLogic

/-- Expressions with the qubits that hold their values, each expression at most once. -/
structure Memo where
  /-- The expressions and their qubits, the latest first. -/
  entries : List (Expression × Qubit) := []
  deriving Inhabited

namespace Memo

/-- The qubit that holds the value of `e`, if known. -/
def get? (m : Memo) (e : Expression) : Option Qubit := m.entries.lookup e

/-- Whether the qubit of `e` is known. -/
def contains (m : Memo) (e : Expression) : Bool := (m.get? e).isSome

/-- Notes that `q` holds the value of `e`, in place of what was noted for `e`. -/
def insert (m : Memo) (e : Expression) (q : Qubit) : Memo := ⟨(e, q) :: m.entries.filter (·.1 ≠ e)⟩

/-- The qubits of the entries. -/
def qubits (m : Memo) : QubitSet := .ofList (m.entries.map Prod.snd)

/-- Drops the entries of the qubit `q`. -/
def eraseQubit (m : Memo) (q : Qubit) : Memo := ⟨m.entries.filter (·.2 ≠ q)⟩

/-- Drops the entries whose expression mentions `s`. -/
def eraseSymbol (m : Memo) (s : Symbol) : Memo := ⟨m.entries.filter (!·.1.mentions s)⟩

/-- The number of entries. -/
def size (m : Memo) : Nat := m.entries.length

/-- Whether there is no entry. -/
def isEmpty (m : Memo) : Bool := m.entries.isEmpty

end Memo

end ReversibleLogic
