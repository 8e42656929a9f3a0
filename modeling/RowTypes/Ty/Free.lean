import RowTypes.Ty.Basic

/-!
# Free unknowns

The free unknowns of a type are those that no recursive type around them binds; rows count.
Sets of unknowns are lists in ascending order of their numbers.  Of two unknowns with the same
number the set keeps the one it met first.
-/

namespace RowTypes

/-- A set of unknowns, in ascending order of their numbers. -/
abbrev VarSet := List TyVar

namespace VarSet

/-- Adds an unknown, unless its number is there already. -/
def insert (v : TyVar) : VarSet → VarSet
  | [] => [v]
  | w :: rest =>
    if v.id = w.id then w :: rest
    else if v.id < w.id then v :: w :: rest
    else w :: insert v rest

/-- Whether the unknown's number is in the set. -/
def has (s : VarSet) (v : TyVar) : Bool := s.any fun w => w.id == v.id

/-- The set without the unknown of that number. -/
def erase (s : VarSet) (v : TyVar) : VarSet := s.filter fun w => w.id != v.id

/-- Adds the unknowns of a second set. -/
def union (s t : VarSet) : VarSet := t.foldl (fun acc v => insert v acc) s

theorem has_insert (v w : TyVar) (s : VarSet) :
    (insert v s).has w = (v.id == w.id || s.has w) := by
  induction s with
  | nil => simp [insert, has]
  | cons x rest ih =>
    simp only [insert]
    split
    · rename_i h; simp [has, h]
    · split
      · simp [has]
      · simp only [has, List.any_cons] at ih ⊢
        rw [ih, Bool.or_left_comm]

end VarSet

namespace Ty

mutual

/-- Adds the free unknowns of a type to a set, apart from those bound further out. -/
def freeInto (bound : List Int) : Ty → VarSet → VarSet
  | .var v, s => if v.id ∈ bound then s else VarSet.insert v s
  | .prim _, s | .lit _, s => s
  | .fn p r, s => freeInto bound r (freeInto bound p s)
  | .record fs row, s =>
    match row with
    | some v => if v.id ∈ bound then freeFields bound fs s
        else VarSet.insert v (freeFields bound fs s)
    | none => freeFields bound fs s
  | .tuple ts, s | .union ts, s | .inter ts, s | .named _ ts, s => freeAll bound ts s
  | .mu v t, s => freeInto (v.id :: bound) t s

def freeAll (bound : List Int) : List Ty → VarSet → VarSet
  | [], s => s
  | t :: ts, s => freeAll bound ts (freeInto bound t s)

def freeFields (bound : List Int) : List (String × Ty) → VarSet → VarSet
  | [], s => s
  | (_, t) :: fs, s => freeFields bound fs (freeInto bound t s)

end

/-- The free unknowns of a type. -/
def free (t : Ty) : VarSet := freeInto [] t []

def frees (ts : List Ty) : VarSet := freeAll [] ts []

def isGround (t : Ty) : Bool := t.free.isEmpty

mutual

/-- Whether an unknown occurs free in a type. -/
def occurs (v : TyVar) : Ty → Bool
  | .var w => w.id == v.id
  | .prim _ | .lit _ => false
  | .fn p r => occurs v p || occurs v r
  | .record fs row => occursFields v fs || row.any (fun w => w.id == v.id)
  | .tuple ts | .union ts | .inter ts | .named _ ts => occursAny v ts
  | .mu w t => w.id != v.id && occurs v t

def occursAny (v : TyVar) : List Ty → Bool
  | [] => false
  | t :: ts => occurs v t || occursAny v ts

def occursFields (v : TyVar) : List (String × Ty) → Bool
  | [] => false
  | (_, t) :: fs => occurs v t || occursFields v fs

end

end Ty

end RowTypes
