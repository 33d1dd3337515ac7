/-
Abacus.Mode — the three number systems a user can choose from.
-/
import Abacus.Text.Blank

namespace Abacus

/-- The number system of a session. -/
inductive Mode where
  | float | integer | decimal
deriving DecidableEq, Repr

namespace Mode

/-- The name a mode is shown by. -/
def name : Mode → String
  | float => "float"
  | integer => "int"
  | decimal => "decimal"

/-- The mode without any settings. -/
def default : Mode := float

/-- The mode of a name, in any case and with blanks around it; otherwise the
folded name. -/
def ofName (text : String) : Except String Mode :=
  let word := String.ofList (lowercase (trim text.toList))
  if word ∈ ["float", "f64", "double"] then .ok float
  else if word ∈ ["int", "bigint", "integer"] then .ok integer
  else if word ∈ ["decimal", "bigdecimal", "dec"] then .ok decimal
  else .error word

/-- What is said about a name that is no mode. -/
def unknownMessage (word : String) : String :=
  s!"unknown mode '{word}' (expected float, int or decimal)"

end Mode

end Abacus
