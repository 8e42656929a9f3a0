import RowTypes.Constraint.Set

/-!
# Consequences of equalities

From `a ~ b` and `b ~ c` follows `a ~ c`.  A pass over the equalities of a set adds what follows
from each two of them, and passes are repeated until one adds nothing.  Every added equality
relates two sides that are there already, so their number bounds the number of passes.

A set whose consequences equate two types that can never be one, such as a number and a function,
has no solution.
-/

namespace RowTypes

namespace Ty

/-- Whether nothing is known about the values of a type from its head alone. -/
def isVague : Ty → Bool
  | .var _ | .named .. | .mu .. | .union _ | .inter _ => true
  | _ => false

/-- Whether two types have heads that no substitution makes one. -/
def clash (a b : Ty) : Bool :=
  if a.isVague || b.isVague then false else
  match a, b with
  | .prim m, .prim n => m != n
  | .prim m, .lit _ => m != "String"
  | .lit v, .lit w => v != w
  | .lit _, .prim n => n != "String"
  | .fn .., .fn .. => false
  | .record .., .record .. => false
  | .tuple as, .tuple bs => as.length != bs.length
  | _, _ => true

end Ty

namespace ConstraintSet

def sides? (c : Constraint) : Option (Ty × Ty) :=
  match c.demand with
  | .equal a b => some (a, b)
  | _ => none

/-- What follows from two equalities that share a side, placed where the first one is. -/
def consequences (first second : Constraint) : List Constraint :=
  match sides? first, sides? second with
  | some (a, b), some (c, d) =>
    let link (sharedA otherA sharedB otherB : Ty) : List Constraint :=
      if sharedA.equiv sharedB then [{ first with demand := .equal otherA otherB }] else []
    link a b c d ++ link a b d c ++ link b a c d ++ link b a d c
  | _, _ => []

/-- Adds an equality unless it is there already or holds by its form. -/
def addNew (s : ConstraintSet) (c : Constraint) : ConstraintSet :=
  if c.isTrivial then s else s.add c

/-- Adds what follows from each two of the given equalities. -/
def pass : List Constraint → ConstraintSet → ConstraintSet
  | [], s => s
  | first :: rest, s =>
    pass rest (rest.foldl (fun s second => (consequences first second).foldl addNew s) s)

def equalities (s : ConstraintSet) : List Constraint := (s.ofKinds [.equality]).items

/-- Repeats passes until one adds nothing, at most the given number of times. -/
def propagateWithin : Nat → ConstraintSet → ConstraintSet
  | 0, s => s
  | n + 1, s =>
    let next := pass s.equalities s
    if next.size = s.size then s else propagateWithin n next

/-- How many passes can add something: no more than there are pairs of sides. -/
def passBound (s : ConstraintSet) : Nat :=
  let sides := 2 * s.equalities.length
  sides * sides + 1

/-- Adds the equalities that follow from those of the set. -/
def propagate (s : ConstraintSet) : ConstraintSet := propagateWithin s.passBound s

/-- The first equality among the consequences whose sides clash. -/
def conflict? (s : ConstraintSet) : Option Diagnostic :=
  s.propagate.equalities.findSome? fun c =>
    match sides? c with
    | some (a, b) =>
      if a.clash b then
        some ⟨.typeMismatch a.render b.render "incompatible shapes", c.span⟩
      else none
    | none => none

end ConstraintSet

end RowTypes
