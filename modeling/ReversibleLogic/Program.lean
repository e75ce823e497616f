import ReversibleLogic.Expression.Eval

/-!
# Programs

A program names its argument bits, assigns expressions to symbols one after another, and lists the symbols that are its
outputs. A later assignment to a symbol replaces the value the symbol had, arguments included. `Program.evaluate` runs the
program on the argument bits; it is the meaning that a compiled circuit is held against.
-/

namespace ReversibleLogic

/-- `target` receives the value of `expr`. -/
structure Assignment where
  /-- The symbol that receives the value. -/
  target : Symbol
  /-- The value. -/
  expr : Expression
  deriving DecidableEq

/-- An argument: a named list of bits. -/
structure ArgGroup where
  /-- The name of the argument. -/
  name : String
  /-- The symbols of its bits, in order. -/
  bits : List Symbol
  deriving DecidableEq

namespace ArgGroup

/-- The argument of one bit, whose symbol is the argument's name. -/
def bit (name : String) : ArgGroup := ⟨name, [name]⟩

/-- The argument of `width` bits, whose symbols are the argument's name, a point and the position. -/
def vector (name : String) (width : Nat) : ArgGroup := ⟨name, (List.range width).map fun i => s!"{name}.{i}"⟩

end ArgGroup

/-- A program over boolean symbols. -/
structure Program where
  /-- The name of the program. -/
  name : String
  /-- The arguments, in order. -/
  inputs : List ArgGroup := []
  /-- The assignments, in the order in which they are made. -/
  assignments : List Assignment := []
  /-- The symbols whose final values are the results, in order. -/
  outputs : List Symbol := []
  deriving DecidableEq

namespace Program

/-- The symbols of all argument bits, in order. -/
def inputSymbols (p : Program) : List Symbol := p.inputs.flatMap ArgGroup.bits

end Program

namespace Valuation

/-- The valuation without values. -/
def empty : Valuation := fun _ => none

/-- The valuation with the value of one symbol replaced. -/
def set (env : Valuation) (name : Symbol) (value : Bool) : Valuation :=
  fun other => if other = name then some value else env other

/-- The valuation that pairs symbols with values; the last value given to a symbol counts. -/
def ofPairs (pairs : List (Symbol × Bool)) : Valuation := pairs.foldl (fun env b => env.set b.1 b.2) empty

/-- The valuation after the assignments, made in order. -/
def assign (env : Valuation) : List Assignment → Except EvalError Valuation
  | [] => .ok env
  | a :: rest => do assign (env.set a.target (← a.expr.eval env)) rest

/-- The values of the symbols. -/
def read (env : Valuation) : List Symbol → Except EvalError (List Bool)
  | [] => .ok []
  | name :: rest => do
    let value ← (Expression.ref name).eval env
    return value :: (← read env rest)

end Valuation

namespace Program

/-- The results of the program on the values of its argument bits. -/
def evaluate (p : Program) (values : List Bool) : Except EvalError (List Bool) := do
  let inputs := p.inputSymbols
  if inputs.length ≠ values.length then
    throw (.inputLength inputs.length values.length)
  let env ← (Valuation.ofPairs (inputs.zip values)).assign p.assignments
  env.read p.outputs

end Program

end ReversibleLogic
