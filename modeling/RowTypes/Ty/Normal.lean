import RowTypes.Ty.Equiv

/-!
# Building unions and intersections

A union is built from its alternatives by taking nested unions apart and dropping every
alternative that is equivalent to an earlier one; a single alternative is that type itself, and
a union of nothing does not exist.  Intersections are built in the same way.
-/

namespace RowTypes.Ty

/-- Keeps, of equivalent types, the first. -/
def addDistinct (seen : List Ty) (t : Ty) : List Ty :=
  if seen.any (fun s => equiv s t) then seen else seen ++ [t]

mutual

/-- The alternatives of a type, nested unions taken apart. -/
def alternatives : Ty → List Ty
  | .union ts => alternativesAll ts
  | t => [t]

def alternativesAll : List Ty → List Ty
  | [] => []
  | t :: ts => alternatives t ++ alternativesAll ts

end

mutual

/-- The members of a type, nested intersections taken apart. -/
def membersOf : Ty → List Ty
  | .inter ts => membersOfAll ts
  | t => [t]

def membersOfAll : List Ty → List Ty
  | [] => []
  | t :: ts => membersOf t ++ membersOfAll ts

end

/-- The types without those equivalent to an earlier one. -/
def distinct (ts : List Ty) : List Ty := ts.foldl addDistinct []

/-- The union of some types, unless there is none. -/
def unionOf? (ts : List Ty) : Option Ty :=
  match distinct (alternativesAll ts) with
  | [] => none
  | [t] => some t
  | ts => some (.union ts)

/-- The intersection of some types, unless there is none. -/
def interOf? (ts : List Ty) : Option Ty :=
  match distinct (membersOfAll ts) with
  | [] => none
  | [t] => some t
  | ts => some (.inter ts)

/-- The union of some types; where there is none, a union without alternatives. -/
def unionOf (ts : List Ty) : Ty := (unionOf? ts).getD (.union [])

/-- The intersection of some types; where there is none, an intersection without members. -/
def interOf (ts : List Ty) : Ty := (interOf? ts).getD (.inter [])

end RowTypes.Ty
