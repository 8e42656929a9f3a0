import RowTypes.Ty.Basic
import RowTypes.Text.Layout
import RowTypes.Text.Quoted

/-!
# The text of a type

A type is written with as few parentheses as its place allows: `A -> B -> C` nests to the right,
a function is put in parentheses to the left of an arrow and inside a union, a union everywhere
but at the top of a field, element or argument.
-/

namespace RowTypes

/-- `t` and the number of an unknown. -/
def TyVar.render (v : TyVar) : String := "t" ++ toString v.id

namespace Ty

/-- Where a type stands inside another, from the freest place to the tightest. -/
inductive Place where
  /-- A field, an element or an argument. -/
  | top
  /-- To the right of an arrow. -/
  | result
  /-- To the left of an arrow. -/
  | param
  /-- A member of a union or intersection, or the body of a recursive type. -/
  | member
  deriving Repr, DecidableEq

/-- Whether a type has to be put in parentheses at a place. -/
def needsParens : Place → Ty → Bool
  | .param, .fn .. | .member, .fn .. => true
  | .param, .mu .. | .member, .mu .. => true
  | .top, _ => false
  | _, .union _ | _, .inter _ => true
  | _, _ => false

/-- The row at the end of a record: set off by a blank from the fields before it. -/
def renderRow (afterFields : Bool) : Option TyVar → String
  | none => ""
  | some v => (if afterFields then " " else "") ++ "| ρ" ++ toString v.id

mutual

def render : Ty → String
  | .var v => v.render
  | .prim name => name
  | .lit value => Text.quoted value
  | .fn p r =>
    Text.parens (needsParens .param p) p.render ++ " -> "
      ++ Text.parens (needsParens .result r) r.render
  | .record fs row =>
    Text.braces (Text.commas (renderFields fs) ++ renderRow (!fs.isEmpty) row)
  | .tuple ts => "(" ++ Text.commas (renderAll .top ts) ++ ")"
  | .union ts => " | ".intercalate (renderAll .member ts)
  | .inter ts => " & ".intercalate (renderAll .member ts)
  | .named name [] => name
  | .named name ts => name ++ "[" ++ Text.commas (renderAll .top ts) ++ "]"
  | .mu v t => "μ" ++ v.render ++ "." ++ Text.parens (needsParens .member t) t.render

def renderAll (place : Place) : List Ty → List String
  | [] => []
  | t :: ts => Text.parens (needsParens place t) t.render :: renderAll place ts

def renderFields : List (String × Ty) → List String
  | [] => []
  | (name, t) :: fs => (name ++ ": " ++ t.render) :: renderFields fs

end

instance : ToString Ty := ⟨render⟩

end Ty

end RowTypes
