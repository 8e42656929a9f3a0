import RowTypes.Table

/-!
# Types

The types of the language: unknowns, primitives, the singleton types of strings, functions,
records with an optional row, tuples, unions, intersections, references to named types, and
recursive types.

Unknowns are told apart by their number alone; the level is carried along for messages and for
the tools that show it.  A record without a row has exactly its fields; with a row it has those
and whatever the row stands for.  Fields are kept in ascending order of their names.
-/

namespace RowTypes

/-- An unknown. Two unknowns are the same exactly if their numbers are. -/
structure TyVar where
  id : Int
  level : Int := 0
  deriving Repr, DecidableEq, Inhabited

/-- The types of the language. -/
inductive Ty where
  /-- An unknown type. -/
  | var (v : TyVar)
  | prim (name : String)
  /-- The type of one string, used as the tag of a union's alternatives. -/
  | lit (value : String)
  /-- Functions of one argument. -/
  | fn (param result : Ty)
  /-- Records: named fields, and a row for the fields that are not known yet. -/
  | record (fields : List (String × Ty)) (row : Option TyVar)
  | tuple (elems : List Ty)
  /-- Values of any of the alternatives. -/
  | union (alts : List Ty)
  /-- Values of all the members. -/
  | inter (members : List Ty)
  /-- A reference to a named type. -/
  | named (name : String) (args : List Ty)
  /-- A recursive type: the binder stands for the whole type inside the body. -/
  | mu (binder : TyVar) (body : Ty)
  deriving Repr, Inhabited

namespace Ty

def int : Ty := .prim "Int"

def string : Ty := .prim "String"

def bool : Ty := .prim "Bool"

/-- The type of one value. -/
def unit : Ty := .prim "Unit"

/-- The names of the primitive types that a program can mention. -/
def primitiveNames : List String := ["Int", "String", "Bool", "Unit"]

/-- The primitive type of a name, if a program can mention it. -/
def primitive? (name : String) : Option Ty :=
  if name ∈ primitiveNames then some (.prim name) else none

/-- The function of several arguments that takes them one by one; a function of no arguments
takes the one value of the unit type. -/
def curried (params : List Ty) (result : Ty) : Ty :=
  match params with
  | [] => .fn .unit result
  | params => params.foldr .fn result

/-- A record of any list of fields; of two fields of one name the later one stays. -/
def ofFields (fields : List (String × Ty)) (row : Option TyVar) : Ty :=
  .record (Table.ofList fields) row

mutual

/-- How many constructors a type is made of. -/
def size : Ty → Nat
  | .var _ | .prim _ | .lit _ => 1
  | .fn p r => p.size + r.size + 1
  | .record fs _ => sizeFields fs + 1
  | .tuple ts | .union ts | .inter ts | .named _ ts => sizeAll ts + 1
  | .mu _ t => t.size + 1

def sizeAll : List Ty → Nat
  | [] => 0
  | t :: ts => t.size + sizeAll ts

def sizeFields : List (String × Ty) → Nat
  | [] => 0
  | (_, t) :: fs => t.size + sizeFields fs

end

mutual

/-- How many constructors stand below each other in a type. -/
def height : Ty → Nat
  | .var _ | .prim _ | .lit _ => 1
  | .fn p r => max p.height r.height + 1
  | .record fs _ => heightFields fs + 1
  | .tuple ts | .union ts | .inter ts | .named _ ts => heightAll ts + 1
  | .mu _ t => t.height + 1

def heightAll : List Ty → Nat
  | [] => 0
  | t :: ts => max t.height (heightAll ts)

def heightFields : List (String × Ty) → Nat
  | [] => 0
  | (_, t) :: fs => max t.height (heightFields fs)

end

end Ty

/-- A record type taken by itself: its fields in order, and its row when it is open. -/
structure RecordTy where
  fields : List (String × Ty) := []
  row : Option TyVar := none
  deriving Repr, Inhabited

namespace RecordTy

def toTy (r : RecordTy) : Ty := .record r.fields r.row

/-- Whether more fields than the named ones may be there. -/
def isOpen (r : RecordTy) : Bool := r.row.isSome

def field? (r : RecordTy) (name : String) : Option Ty := Table.get? name r.fields

def names (r : RecordTy) : List String := Table.keys r.fields

/-- The record where a field has the given type. -/
def set (r : RecordTy) (name : String) (t : Ty) : RecordTy :=
  { r with fields := Table.insert name t r.fields }

def withRow (r : RecordTy) (row : Option TyVar) : RecordTy := { r with row }

end RecordTy

/-- The record that a type is, if it is one. -/
def Ty.record? : Ty → Option RecordTy
  | .record fields row => some ⟨fields, row⟩
  | _ => none

end RowTypes
