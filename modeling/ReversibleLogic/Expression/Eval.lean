import ReversibleLogic.Expression.Order

/-!
# The value of an expression

An expression has a value under an assignment of booleans to symbols, unless it mentions a symbol without one or holds a
black box. Operands are evaluated from the left and all of them are, so the first operand without a value decides which
error is reported. Disjunction is read over all its operands, whatever their number.
-/

namespace ReversibleLogic

/-- Why an expression or a program has no value. -/
inductive EvalError where
  /-- The symbol has no value. -/
  | unboundSymbol (name : Symbol)
  /-- The expression is a black box. -/
  | notEvaluable (e : Expression)
  /-- A program was given the wrong number of input values. -/
  | inputLength (expected got : Nat)
  deriving DecidableEq

/-- The wording of the error. -/
def EvalError.message : EvalError → String
  | .unboundSymbol name => s!"Symbol '{name}' is not bound"
  | .notEvaluable e => "Expression '" ++ e.render ++ "' cannot be evaluated classically"
  | .inputLength expected got => s!"Expected {expected} input values, got {got}"

/-- An assignment of booleans to symbols. -/
abbrev Valuation := Symbol → Option Bool

namespace Expression

mutual

/-- The value of the expression under a valuation. -/
def eval (env : Valuation) : Expression → Except EvalError Bool
  | .const value => .ok value
  | .ref name =>
    match env name with
    | some value => .ok value
    | none => .error (.unboundSymbol name)
  | .not e => do return !(← e.eval env)
  | .and es => evalFold env (· && ·) true es
  | .or es => evalFold env (· || ·) false es
  | .xor es => evalFold env (· ^^ ·) false es
  | .blackBox tag es => .error (.notEvaluable (.blackBox tag es))

/-- The values of the expressions combined by `op` from the left, beginning with `acc`. -/
def evalFold (env : Valuation) (op : Bool → Bool → Bool) (acc : Bool) : List Expression → Except EvalError Bool
  | [] => .ok acc
  | e :: es => do evalFold env op (op acc (← e.eval env)) es

end

end Expression

end ReversibleLogic
