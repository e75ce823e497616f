/-!
# Symbols

A symbol names a boolean value: an argument bit, an intermediate result or an output. Symbols have no structure, with one
exception: a name that starts with two underscores is a temporary of the program that uses it, and the qubit that holds a
temporary stays scratch space when the temporary is bound to it.
-/

namespace ReversibleLogic

/-- The name of a boolean value. Symbols are ordered by their characters. -/
abbrev Symbol := String

namespace Symbol

/-- The characters every temporary starts with. -/
def temporaryMark : String := "__"

/-- The temporary called `hint`. -/
def synthetic (hint : String) : Symbol := temporaryMark ++ hint

/-- Whether the symbol names a temporary. -/
def isSynthetic (s : Symbol) : Bool := temporaryMark.toList.isPrefixOf s.toList

/-- What `synthetic` makes is a temporary. -/
theorem isSynthetic_synthetic (hint : String) : isSynthetic (synthetic hint) = true := by
  simp [isSynthetic, synthetic]

end Symbol

end ReversibleLogic
