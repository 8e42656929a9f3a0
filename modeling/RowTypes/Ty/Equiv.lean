import RowTypes.Ty.Basic

/-!
# Equivalence of types

Two types are equivalent when they have the same shape, where the members of a union or an
intersection may stand in any order and the binders of recursive types may have any numbers.
-/

namespace RowTypes

/-- Which binder of the right-hand side stands for a binder of the left-hand side; the innermost
pair comes first. -/
abbrev Renaming := List (Int × Int)

/-- Whether two unknowns are the same under a renaming of the left one's binders. -/
def TyVar.sameUnder (m : Renaming) (a b : TyVar) : Bool :=
  match m.lookup a.id with
  | some id => id == b.id
  | none => a.id == b.id

namespace Ty

/-- Whether two rows are the same under a renaming. -/
def sameRow (m : Renaming) : Option TyVar → Option TyVar → Bool
  | none, none => true
  | some a, some b => a.sameUnder m b
  | _, _ => false

mutual

/-- Equivalence under a renaming of the left type's binders. -/
def equivUnder (m : Renaming) : Ty → Ty → Bool
  | .var a, .var b => a.sameUnder m b
  | .prim a, .prim b => a == b
  | .lit a, .lit b => a == b
  | .fn p r, .fn p' r' => equivUnder m p p' && equivUnder m r r'
  | .record fs row, .record gs row' =>
    fs.length == gs.length && sameRow m row row' && equivFields m fs gs
  | .tuple as, .tuple bs => equivAll m as bs
  | .union as, .union bs =>
    as.length == bs.length && allAmong m as bs && bs.all (fun b => someLike m as b)
  | .inter as, .inter bs =>
    as.length == bs.length && allAmong m as bs && bs.all (fun b => someLike m as b)
  | .named a as, .named b bs => a == b && equivAll m as bs
  | .mu a t, .mu b u => equivUnder ((a.id, b.id) :: m) t u
  | _, _ => false

/-- Equivalence of two lists, place by place. -/
def equivAll (m : Renaming) : List Ty → List Ty → Bool
  | [], [] => true
  | a :: as, b :: bs => equivUnder m a b && equivAll m as bs
  | _, _ => false

/-- Each field of the first list is in the second, with an equivalent type. -/
def equivFields (m : Renaming) : List (String × Ty) → List (String × Ty) → Bool
  | [], _ => true
  | (name, a) :: fs, gs =>
    (match Table.get? name gs with
      | some b => equivUnder m a b
      | none => false) && equivFields m fs gs

/-- Each of the first types is equivalent to one of the second. -/
def allAmong (m : Renaming) : List Ty → List Ty → Bool
  | [], _ => true
  | a :: as, bs => bs.any (fun b => equivUnder m a b) && allAmong m as bs

/-- One of the types is equivalent to the given one. -/
def someLike (m : Renaming) : List Ty → Ty → Bool
  | [], _ => false
  | a :: as, b => equivUnder m a b || someLike m as b

end

/-- Whether two types are equivalent. -/
def equiv (a b : Ty) : Bool := equivUnder [] a b

end Ty

end RowTypes
