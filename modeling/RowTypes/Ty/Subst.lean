import RowTypes.Ty.Free
import RowTypes.Ty.Normal
import RowTypes.Ty.Render

/-!
# Substitutions

A substitution sends some unknowns to types, none to itself.  Applying it replaces every bound
unknown once.  Three things set it apart from plain replacement:

* unions and intersections are built anew from their replaced members, since two members may
  have become equivalent;
* a row that is sent to a record is spliced: the record's fields are added where the fields
  named already do not have them, and its row takes the place of the old one; a row that is sent
  to an unknown is renamed; a row that is sent to anything else stays;
* under the binder of a recursive type, the binder itself is not replaced.

The empty substitution leaves a type as it is, without building anything anew.
-/

namespace RowTypes

/-- What an unknown is bound to. -/
structure Binding where
  var : TyVar
  ty : Ty
  deriving Repr, Inhabited

/-- A substitution: bindings in ascending order of the unknowns' numbers. -/
structure Subst where
  bindings : Table Int Binding := []
  deriving Repr, Inhabited

/-- A row after a substitution, with the fields around it. -/
def RecordTy.splice (fields : List (String × Ty)) (row : TyVar) : Option Ty → RecordTy
  | none => ⟨fields, some row⟩
  | some (.var v) => ⟨fields, some v⟩
  | some (.record more rest) => ⟨Table.underlay fields more, rest⟩
  | some _ => ⟨fields, some row⟩

namespace Subst

def empty : Subst := {}

def size (s : Subst) : Nat := s.bindings.length

def isEmpty (s : Subst) : Bool := s.bindings.isEmpty

/-- The type that the unknown of a number is bound to. -/
def get? (s : Subst) (id : Int) : Option Ty := (Table.get? id s.bindings).map (·.ty)

def lookup? (s : Subst) (v : TyVar) : Option Ty := s.get? v.id

def erase (s : Subst) (v : TyVar) : Subst := ⟨Table.erase v.id s.bindings⟩

def without (s : Subst) (vs : List TyVar) : Subst := vs.foldl erase s

/-- Binds an unknown, in place of any earlier binding. Binding an unknown to itself removes
its binding. -/
def bind (s : Subst) (v : TyVar) (t : Ty) : Subst :=
  match t with
  | .var w => if w.id = v.id then s.erase v else ⟨Table.insert v.id ⟨v, t⟩ s.bindings⟩
  | t => ⟨Table.insert v.id ⟨v, t⟩ s.bindings⟩

def single (v : TyVar) (t : Ty) : Subst := empty.bind v t

def domain (s : Subst) : List TyVar := s.bindings.map (·.2.var)

/-- The types that unknowns are bound to, in the order of the unknowns. -/
def range (s : Subst) : List Ty := s.bindings.map (·.2.ty)

mutual

/-- Replaces the bound unknowns of a type, each once. -/
def apply (s : Subst) (t : Ty) : Ty :=
  if s.isEmpty then t else
  match t with
  | .var v => (s.lookup? v).getD (.var v)
  | .prim name => .prim name
  | .lit value => .lit value
  | .fn p r => .fn (apply s p) (apply s r)
  | .record fs none => .record (applyFields s fs) none
  | .record fs (some row) =>
    (RecordTy.splice (applyFields s fs) row (s.lookup? row)).toTy
  | .tuple ts => .tuple (applyAll s ts)
  | .union ts => Ty.unionOf (applyAll s ts)
  | .inter ts => Ty.interOf (applyAll s ts)
  | .named name ts => .named name (applyAll s ts)
  | .mu v t => .mu v (apply (s.erase v) t)
termination_by structural t

def applyAll (s : Subst) (ts : List Ty) : List Ty :=
  match ts with
  | [] => []
  | t :: ts => apply s t :: applyAll s ts
termination_by structural ts

def applyFields (s : Subst) (fs : List (String × Ty)) : List (String × Ty) :=
  match fs with
  | [] => []
  | (name, t) :: fs => (name, apply s t) :: applyFields s fs
termination_by structural fs

end

/-- The substitution that does `first` and then `s`. -/
def after (s first : Subst) : Subst :=
  let applied := first.bindings.foldr (fun entry acc =>
    acc.bind entry.2.var (s.apply entry.2.ty)) empty
  s.bindings.foldl (fun acc entry =>
    if Table.has entry.1 first.bindings then acc else acc.bind entry.2.var entry.2.ty) applied

def ofList (bindings : List (TyVar × Ty)) : Subst :=
  bindings.foldl (fun s b => s.bind b.1 b.2) empty

def render (s : Subst) : String :=
  Text.braces (Text.commas
    (s.bindings.map fun entry => entry.2.var.render ++ " ↦ " ++ entry.2.ty.render))

end Subst

/-- One unfolding of a recursive type: the binder becomes the type itself. -/
def Ty.unfold (binder : TyVar) (body : Ty) : Ty :=
  (Subst.single binder (.mu binder body)).apply body

end RowTypes
