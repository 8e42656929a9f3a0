import RowTypes.Ty.Basic

/-!
# Operators

The types of operators.  All but two take operands of one primitive type; equality and inequality
take two operands of any one type that can be compared.
-/

namespace RowTypes

/-- What an operator between two operands asks for and gives. -/
inductive BinaryRule where
  /-- Both operands have one type, and the result has another. -/
  | typed (operand result : Ty)
  /-- Both operands have the same type, which can be compared, and the result is a truth value. -/
  | comparison
  deriving Repr

/-- The rule of an operator between two operands. -/
def binaryRule? (op : String) : Option BinaryRule :=
  if op ∈ ["+", "-", "*", "/", "%"] then some (.typed .int .int)
  else if op = "++" then some (.typed .string .string)
  else if op ∈ ["==", "!="] then some .comparison
  else if op ∈ ["<", "<=", ">", ">="] then some (.typed .int .bool)
  else if op ∈ ["&&", "||"] then some (.typed .bool .bool)
  else none

/-- The type of an operator before its operand: that of both operand and result. -/
def unaryType? (op : String) : Option Ty :=
  if op = "!" then some .bool
  else if op = "-" then some .int
  else none

end RowTypes
