/-!
# Base types

The types that literals have, and the indices by which types are known.
-/

namespace Frontend

/-- The index of a type. A word of 32 bits holds it: fewer than 2 ^ 32 types are meant. -/
abbrev TypeId := Nat

/-- A type without parts. -/
inductive BaseType
  | int
  | float
  | string
  | bool
  deriving DecidableEq, Repr

namespace BaseType

/-- The name of a base type. -/
def name : BaseType -> String
  | .int => "int"
  | .float => "float"
  | .string => "string"
  | .bool => "bool"

end BaseType

end Frontend
