import ReversibleLogic.Compile.Assignments
import ReversibleLogic.Compile.Schedule

/-!
# Compiling simultaneous assignments in place

Each symbol has a qubit, and the new value of a symbol has to end up on that very qubit. A symbol that is known to hold 0 may
receive a copy of its value; any other has to be changed where it is, by a flip or by adding to it.
-/

namespace ReversibleLogic

namespace Workspace

/-- Makes one of the assignments. `zeroed` are the symbols known to hold 0. -/
def assignInPlace (zeroed : List Symbol) (a : Assignment) : Lowering Unit := do
  let home ← lookup a.target
  let dest := if a.target ∈ zeroed then some home else none
  let q ← lower a.expr dest (some a.target)
  if q ≠ home then
    if dest.isNone then
      throw (.notInPlace a.target)
    gate (.cx q home)
    release q
  modify fun w => { w with memo := (w.memo.eraseSymbol a.target).eraseQubit home }
  reclaim

/-- Makes the assignments in the order given. -/
def assignAllInPlace (zeroed : List Symbol) : List Assignment → Lowering Unit
  | [] => return
  | a :: rest => do
    assignInPlace zeroed a
    assignAllInPlace zeroed rest

end Workspace

/-- The circuit of assignments that happen at once, over the symbols, whose qubits come first and in that order. -/
def compileInPlace (options : Options) (name : String) (symbols : List Symbol) (assignments : List Assignment)
    (zeroed : List Symbol) : Except CompileError Circuit := do
  let order ← schedule assignments
  let steps : Lowering Unit := do
    Workspace.bindInputs symbols
    Workspace.assignAllInPlace zeroed (order.filterMap (assignments[·]?))
  let (_, w) ← steps.run (.start options name [])
  return w.circuit

end ReversibleLogic
