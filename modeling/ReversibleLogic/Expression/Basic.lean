import ReversibleLogic.Symbol
import ReversibleLogic.Sorted

/-!
# Boolean expressions

The expressions that programs assign to symbols and that runs of gates are read back as. Conjunction and exclusive or take
any number of operands; disjunction is meant to have two, but the type lets a list of any length stand, because data that
arrives from outside may hold one. `isWellFormed` says which trees have the operand counts a circuit can be made from.

A black box is an operation known by its tag alone. It can be placed in a circuit, and it has no boolean value.

Functions on trees come in pairs, one for an expression and one for a list of them, so that each is a plain recursion on the
tree.
-/

namespace ReversibleLogic

/-- A boolean expression over symbols. -/
inductive Expression where
  /-- A constant. -/
  | const (value : Bool)
  /-- The value of a symbol. -/
  | ref (name : Symbol)
  /-- Negation. -/
  | not (inner : Expression)
  /-- Conjunction of the operands. -/
  | and (operands : List Expression)
  /-- Disjunction of the operands, two of them when well formed. -/
  | or (operands : List Expression)
  /-- Exclusive or of the operands. -/
  | xor (operands : List Expression)
  /-- The operation `tag` applied to the arguments, without a boolean reading. -/
  | blackBox (tag : String) (args : List Expression)
  deriving Inhabited

namespace Expression

/-- The constant that the expression is, if it is one. -/
def const? : Expression → Option Bool
  | .const value => some value
  | _ => none

/-- The symbol that the expression is, if it is one. -/
def ref? : Expression → Option Symbol
  | .ref name => some name
  | _ => none

/-- The children of the root. -/
def operands : Expression → List Expression
  | .const _ | .ref _ => []
  | .not inner => [inner]
  | .and es | .or es | .xor es | .blackBox _ es => es

/-- Whether the expression is neither a constant nor a symbol, so that its value needs a qubit of its own. -/
def isCompound : Expression → Bool
  | .const _ | .ref _ => false
  | _ => true

/-! ## Well-formed trees -/

mutual

/-- Whether every disjunction in the tree has two operands and every other list of operands has at least one. -/
def isWellFormed : Expression → Bool
  | .const _ | .ref _ => true
  | .not e => e.isWellFormed
  | .or es => es.length == 2 && allWellFormed es
  | .and es | .xor es | .blackBox _ es => !es.isEmpty && allWellFormed es

/-- Whether all expressions of the list are well formed. -/
def allWellFormed : List Expression → Bool
  | [] => true
  | e :: es => e.isWellFormed && allWellFormed es

end

/-! ## Size -/

mutual

/-- The number of nodes of the tree. -/
def size : Expression → Nat
  | .const _ | .ref _ => 1
  | .not e => 1 + e.size
  | .and es | .or es | .xor es | .blackBox _ es => 1 + sizeAll es

/-- The number of nodes of all trees of the list. -/
def sizeAll : List Expression → Nat
  | [] => 0
  | e :: es => e.size + sizeAll es

end

/-! ## Symbols -/

mutual

/-- Whether the symbol `s` occurs in the expression. -/
def mentions (s : Symbol) : Expression → Bool
  | .const _ => false
  | .ref name => name == s
  | .not e => e.mentions s
  | .and es | .or es | .xor es | .blackBox _ es => anyMentions s es

/-- Whether the symbol `s` occurs in some expression of the list. -/
def anyMentions (s : Symbol) : List Expression → Bool
  | [] => false
  | e :: es => e.mentions s || anyMentions s es

end

mutual

/-- The symbols of the expression added to an ascending list of symbols. -/
def addSymbols : Expression → List Symbol → List Symbol
  | .const _, found => found
  | .ref name, found => Sorted.insert compare name found
  | .not e, found => e.addSymbols found
  | .and es, found | .or es, found | .xor es, found | .blackBox _ es, found => addAllSymbols es found

/-- The symbols of every expression of the list added to an ascending list of symbols. -/
def addAllSymbols : List Expression → List Symbol → List Symbol
  | [], found => found
  | e :: es, found => addAllSymbols es (e.addSymbols found)

end

/-- The symbols of the expression, ascending and each once. -/
def symbols (e : Expression) : List Symbol := e.addSymbols []

/-! ## Substitution -/

mutual

/-- The expression with every symbol that `f` knows replaced by what `f` gives for it. -/
def substitute (f : Symbol → Option Expression) : Expression → Expression
  | .const value => .const value
  | .ref name => (f name).getD (.ref name)
  | .not e => .not (e.substitute f)
  | .and es => .and (substituteAll f es)
  | .or es => .or (substituteAll f es)
  | .xor es => .xor (substituteAll f es)
  | .blackBox tag es => .blackBox tag (substituteAll f es)

/-- Substitution in every expression of the list. -/
def substituteAll (f : Symbol → Option Expression) : List Expression → List Expression
  | [] => []
  | e :: es => e.substitute f :: substituteAll f es

end

/-! ## Text -/

mutual

/-- The expression as text: constants are `1` and `0`, negation is `!`, and every list of operands stands in brackets. -/
def render : Expression → String
  | .const value => if value then "1" else "0"
  | .ref name => name
  | .not e => "!" ++ e.render
  | .and es => "(" ++ renderAll " & " es ++ ")"
  | .or es => "(" ++ renderAll " | " es ++ ")"
  | .xor es => "(" ++ renderAll " ^ " es ++ ")"
  | .blackBox tag es => tag ++ "(" ++ renderAll ", " es ++ ")"

/-- The expressions as text, with `mark` between two of them. -/
def renderAll (mark : String) : List Expression → String
  | [] => ""
  | [e] => e.render
  | e :: es => e.render ++ mark ++ renderAll mark es

end

/-! ## The list functions as library operations -/

theorem allWellFormed_eq (es : List Expression) : allWellFormed es = es.all isWellFormed := by
  induction es with
  | nil => rfl
  | cons e es ih => simp [allWellFormed, ih]

theorem anyMentions_eq (s : Symbol) (es : List Expression) : anyMentions s es = es.any (mentions s) := by
  induction es with
  | nil => rfl
  | cons e es ih => simp [anyMentions, ih]

end Expression

end ReversibleLogic
