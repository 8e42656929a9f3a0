import RowTypes.Digest
import RowTypes.Ty.Basic

/-!
# Digests of types

The digest of a type is taken over its constructor's tag and the digests of its parts.  The
digests of the members of a union or an intersection are sorted first, so the order in which
the members stand does not matter.
-/

namespace RowTypes

def TyVar.digest (v : TyVar) : Digest := .node "Var" [.ofInt v.id]

namespace Ty

mutual

/-- The structural digest of a type. -/
def digest : Ty → Digest
  | .var v => v.digest
  | .prim name => .node "Primitive" [.ofText name]
  | .lit value => .node "Literal" [.ofText value]
  | .fn p r => .node "Func" [p.digest, r.digest]
  | .record fs row =>
    .node "Record" (digestFields fs ++ (row.map TyVar.digest).toList)
  | .tuple ts => .node "Tuple" (digestAll ts)
  | .union ts => .node "Union" (Digest.sorted (digestAll ts))
  | .inter ts => .node "Intersection" (Digest.sorted (digestAll ts))
  | .named name ts => .node "Alias" (.ofText name :: digestAll ts)
  | .mu v t => .node "Recursive" [v.digest, t.digest]

def digestAll : List Ty → List Digest
  | [] => []
  | t :: ts => t.digest :: digestAll ts

/-- The digests of names and types of fields, in turn. -/
def digestFields : List (String × Ty) → List Digest
  | [] => []
  | (name, t) :: fs => .ofText name :: t.digest :: digestFields fs

end

end Ty

end RowTypes
