import ReversibleLogic.Expression.Order

/-!
# Simplification

Local rules, applied from the leaves up: constants are folded, conjunctions and exclusive ors are flattened and their operands
put in order, repeated and complementary operands are resolved, negations are moved out of exclusive ors, and operators of one
operand give way to it. A pass over the tree is a round; rounds are made until one changes nothing or the limit is reached.
-/

namespace ReversibleLogic

namespace Expression

/-! ## Flattening -/

mutual

/-- The operands of nested conjunctions, from the left. -/
def conjuncts : Expression → List Expression
  | .and es => allConjuncts es
  | .const value => [.const value]
  | .ref name => [.ref name]
  | .not e => [.not e]
  | .or es => [.or es]
  | .xor es => [.xor es]
  | .blackBox tag es => [.blackBox tag es]

/-- The operands of nested conjunctions of a list. -/
def allConjuncts : List Expression → List Expression
  | [] => []
  | e :: es => e.conjuncts ++ allConjuncts es

end

mutual

/-- The operands of nested exclusive ors and negations, without the constants. -/
def summands : Expression → List Expression
  | .const _ => []
  | .not e => e.summands
  | .xor es => allSummands es
  | .ref name => [.ref name]
  | .and es => [.and es]
  | .or es => [.or es]
  | .blackBox tag es => [.blackBox tag es]

/-- The operands of nested exclusive ors and negations of a list. -/
def allSummands : List Expression → List Expression
  | [] => []
  | e :: es => e.summands ++ allSummands es

end

mutual

/-- Whether the constants and negations of nested exclusive ors flip the result. -/
def flips : Expression → Bool
  | .const value => value
  | .not e => !e.flips
  | .xor es => allFlips es
  | .ref _ | .and _ | .or _ | .blackBox _ _ => false

/-- Whether the constants and negations of a list flip the result. -/
def allFlips : List Expression → Bool
  | [] => false
  | e :: es => e.flips ^^ allFlips es

end

/-! ## Rules for each operator -/

/-- Adds a summand to an ascending list of summands, or takes it away when it is there: twice the same summand is nothing. -/
def toggle (e : Expression) : List Expression → List Expression
  | [] => [e]
  | t :: rest =>
    match cmp e t with
    | .lt => e :: t :: rest
    | .eq => rest
    | .gt => t :: toggle e rest

/-- The exclusive or of ascending summands, flipped or not. -/
def ofSummands : List Expression → Bool → Expression
  | [], flip => .const flip
  | [e], flip => if flip then .not e else e
  | es, flip => .xor (if flip then es ++ [.const true] else es)

/-- The simplified exclusive or of simplified operands. -/
def parity (es : List Expression) : Expression :=
  ofSummands ((allSummands es).foldl (fun odd e => toggle e odd) []) (allFlips es)

/-- The simplified negation of a simplified expression. -/
def negation : Expression → Expression
  | .const value => .const !value
  | .not e => e
  | .xor es => parity (es ++ [.const true])
  | e => .not e

/-- Whether some term's negation is a term too. -/
def hasComplement (terms : List Expression) : Bool := terms.any fun t => decide (negation t ∈ terms)

/-- The conjunction of ascending terms. -/
def ofConjuncts : List Expression → Expression
  | [] => .const true
  | [e] => e
  | es => .and es

/-- The simplified conjunction of simplified operands. -/
def conjunction (es : List Expression) : Expression :=
  let terms := allConjuncts es
  if .const false ∈ terms then
    .const false
  else
    let terms := Sorted.ofList cmp (terms.filter (· ≠ .const true))
    if hasComplement terms then .const false else ofConjuncts terms

/-- The disjunction of terms, by disjunctions of two that nest to the right. -/
def ofDisjuncts : List Expression → Expression
  | [] => .const false
  | [e] => e
  | e :: es => .or [e, ofDisjuncts es]

/-- The simplified disjunction of simplified operands. Operands keep their order. -/
def disjunction (es : List Expression) : Expression :=
  if .const true ∈ es then
    .const true
  else
    let terms := (es.filter (· ≠ .const false)).foldl (fun kept e => if e ∈ kept then kept else kept ++ [e]) []
    if hasComplement terms then .const true else ofDisjuncts terms

/-! ## Rounds -/

mutual

/-- One pass of the rules, from the leaves up. -/
def round : Expression → Expression
  | .const value => .const value
  | .ref name => .ref name
  | .not e => negation e.round
  | .and es => conjunction (roundAll es)
  | .or es => disjunction (roundAll es)
  | .xor es => parity (roundAll es)
  | .blackBox tag es => .blackBox tag (roundAll es)

/-- One pass of the rules over every expression of a list. -/
def roundAll : List Expression → List Expression
  | [] => []
  | e :: es => e.round :: roundAll es

end

/-- At most `n` rounds, until one changes nothing. -/
def roundsUpTo : Nat → Expression → Expression
  | 0, e => e
  | n + 1, e =>
    let next := e.round
    if next = e then e else roundsUpTo n next

end Expression

/-! ## Simplifiers -/

/-- A way to simplify expressions. -/
structure Simplifier where
  /-- What it is called. -/
  name : String
  /-- The simplified form of an expression. -/
  simplify : Expression → Expression

namespace Simplifier

/-- The rules of this module, with a limit of at least one on the number of rounds. -/
def algebraic (maxRounds : Nat) : Simplifier := ⟨"algebraic", Expression.roundsUpTo (max maxRounds 1)⟩

/-- The number of rounds that is made unless said otherwise. -/
def defaultRounds : Nat := 8

end Simplifier

end ReversibleLogic
