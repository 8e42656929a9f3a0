import RowTypes.Digest
import RowTypes.Text.Quoted

/-!
# Constants

A constant is a kind and a text: the digits of a number, the contents of a string, `true` or
`false`, and nothing for the one value of the unit type.  Kinds are numbered, and a number
that no kind has is kept as it is.
-/

namespace RowTypes

/-- The kinds of constants. -/
inductive LiteralKind where
  | int
  | string
  | bool
  | unit
  /-- A number that no kind has. -/
  | other (code : Int)
  deriving Repr, DecidableEq, Inhabited

namespace LiteralKind

def ofCode : Int → LiteralKind
  | 0 => .int
  | 1 => .string
  | 2 => .bool
  | 3 => .unit
  | n => .other n

def code : LiteralKind → Int
  | .int => 0
  | .string => 1
  | .bool => 2
  | .unit => 3
  | .other n => n

theorem code_ofCode (n : Int) : (ofCode n).code = n := by
  unfold ofCode; split <;> rfl

def name : LiteralKind → String
  | .int => "int"
  | .string => "string"
  | .bool => "bool"
  | .unit => "unit"
  | .other n => "literal(" ++ toString n ++ ")"

/-- A constant of this kind as a program writes it. -/
def render (kind : LiteralKind) (value : String) : String :=
  match kind with
  | .string => Text.quoted value
  | .bool => if value = "true" then "True" else "False"
  | .unit => "()"
  | .int | .other _ => value

end LiteralKind

end RowTypes
