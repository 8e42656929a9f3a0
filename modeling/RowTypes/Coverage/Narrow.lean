import RowTypes.Search
import RowTypes.Source.Pattern
import RowTypes.Ty.Subst

/-!
# What a match tells about types

A pattern that matches a value narrows the value's type down: of a union only the alternatives
that the pattern could match remain, and the names that the pattern binds get the types of the
parts they stand for.

Whether a pattern could match a value of a type is asked of the type's heads: the alternatives of
unions, with recursive types unfolded.  Where every recursive type has a constructor before it
comes back to itself, the search for heads ends.  Where one comes back to itself first, the search
goes on for ever, unless it meets a head before that settles it.
-/

namespace RowTypes

namespace Ty

/-- Whether some head of a type satisfies a predicate, if fewer steps than the limit lead to each
head that is asked. -/
def anyHeadWithin (p : Ty → Bool) : Nat → Ty → Option Bool
  | 0, _ => none
  | n + 1, .union ts => ts.anyM (anyHeadWithin p n)
  | n + 1, .mu v body => anyHeadWithin p n (.unfold v body)
  | _ + 1, t => some (p t)

/-- Whether some head of a type satisfies a predicate: an alternative, with recursive types
unfolded. Nothing where the search goes on for ever. -/
def anyHead? (p : Ty → Bool) (t : Ty) : Option Bool := search (anyHeadWithin p · t)

/-- Whether some head of a type satisfies a predicate. Where the search goes on for ever nothing
comes after it, and the answer stands for none. -/
def anyHead (t : Ty) (p : Ty → Bool) : Bool := (anyHead? p t).getD true

section

variable {p : Ty → Bool}

theorem steady_anyHeadWithin (p : Ty → Bool) (t : Ty) : Steady (anyHeadWithin p · t) := by
  suffices h : ∀ n t b, anyHeadWithin p n t = some b → anyHeadWithin p (n + 1) t = some b from
    steady_of_succ fun n => h n t
  intro n
  induction n with
  | zero => exact fun _ _ h => nomatch h
  | succ n ih =>
    intro t b h
    cases t with
    | union ts => exact anyM_mono (fun t _ b hb => ih t b hb) h
    | mu v body => exact ih _ b h
    | _ => exact h

/-- One step to the heads of a type. -/
theorem anyHead?_step (t : Ty) : anyHead? p t =
    match t with
    | .union ts => ts.anyM (anyHead? p)
    | .mu v body => anyHead? p (.unfold v body)
    | t => some (p t) := by
  rw [anyHead?, ← search_succ (steady_anyHeadWithin p t)]
  cases t with
  | union ts => exact search_anyM fun t _ => steady_anyHeadWithin p t
  | mu v body => rfl
  | _ => exact search_const _

theorem anyHead_mu (v : TyVar) (body : Ty) :
    (Ty.mu v body).anyHead p = (unfold v body).anyHead p := by
  rw [anyHead, anyHead?_step, anyHead]

theorem anyHead_union (ts : List Ty) : (Ty.union ts).anyHead p = ts.any (·.anyHead p) := by
  rw [anyHead, anyHead?_step]
  dsimp only
  induction ts with
  | nil => rfl
  | cons t ts ih =>
    rw [List.any_cons, List.anyM, anyHead]
    cases t.anyHead? p with
    | none => rfl
    | some b => cases b <;> simp [ih]

theorem anyHead_of_shows {t : Ty} (hunion : ∀ ts, t ≠ .union ts) (hmu : ∀ v body, t ≠ .mu v body) :
    t.anyHead p = p t := by
  cases t with
  | union ts => exact absurd rfl (hunion ts)
  | mu v body => exact absurd rfl (hmu v body)
  | _ =>
    rw [anyHead, anyHead?_step]
    rfl

end

end Ty

/-- The primitive type of a kind of constants. -/
def LiteralKind.primitive : LiteralKind → String
  | .int => "Int"
  | .string => "String"
  | .bool => "Bool"
  | .unit | .other _ => "Unit"

namespace Pattern

/-- Whether a constant could be a value of a type with this head. -/
def literalFits (kind : LiteralKind) (value : String) : Ty → Bool
  | .var _ => true
  | .lit v => kind == .string && value == v
  | .prim name => kind.primitive == name
  | _ => false

mutual

/-- Whether a pattern could match some value of a type. -/
def compatible : Pattern → Ty → Bool
  | .var .., _ | .wildcard _, _ => true
  | .missing, t => t.anyHead fun
    | .var _ => true
    | _ => false
  | .literal _ kind value, t => t.anyHead (literalFits kind value)
  | .tuple _ ps, t => t.anyHead fun
    | .var _ => true
    | .tuple ts => compatibleAll ps ts
    | _ => false
  | .record _ fs, t => t.anyHead fun
    | .var _ => true
    | .record ts row => compatibleFields fs ts row.isSome
    | _ => false

/-- Whether patterns could match values of types, place by place. -/
def compatibleAll : List Pattern → List Ty → Bool
  | [], [] => true
  | p :: ps, t :: ts => compatible p t && compatibleAll ps ts
  | _, _ => false

/-- Whether field patterns could match some record; a field that is not there could be, if the
record is open. -/
def compatibleFields : List (String × Pattern) → List (String × Ty) → Bool → Bool
  | [], _, _ => true
  | (name, p) :: fs, ts, isOpen =>
    (match Table.get? name ts with
      | some t => compatible p t
      | none => isOpen) && compatibleFields fs ts isOpen

end

end Pattern

namespace Ty

def unfoldOnce : Ty → Ty
  | .mu v t => .unfold v t
  | t => t

/-- The alternatives of a union that a pattern could match; all of them if it could match none. -/
def narrow (t : Ty) (p : Pattern) : Ty :=
  match t.unfoldOnce with
  | .union ts =>
    match ts.filter (fun t => p.compatible t) with
    | [] => .union ts
    | kept => unionOf kept
  | t => t

/-- The type of an element of tuples of a length. -/
def elem? (t : Ty) (i length : Nat) : Option Ty :=
  match t with
  | .tuple ts => if ts.length = length then ts[i]? else none
  | .union alts => unionOf? (alts.filterMap fun
    | .tuple ts => if ts.length = length then ts[i]? else none
    | _ => none)
  | _ => none

def field? (t : Ty) (name : String) : Option Ty :=
  match t with
  | .record fs _ => Table.get? name fs
  | .union alts => do
    let ts ← alts.mapM fun
      | .record fs _ => Table.get? name fs
      | _ => none
    unionOf? ts
  | _ => none

end Ty

namespace Pattern

mutual

/-- Adds the types of the names that a pattern binds when it matches a value of a type. A name
whose type is an unknown is left out. -/
def refineInto : Pattern → Option Ty → Table String Ty → Table String Ty
  | _, none, found => found
  | .var _ name, some t, found =>
    match t.unfoldOnce with
    | .var _ => found
    | t => Table.insert name t found
  | .tuple span ps, some t, found =>
    refineElems ps (t.unfoldOnce.narrow (.tuple span ps)) 0 ps.length found
  | .record span fs, some t, found =>
    refineFields fs (t.unfoldOnce.narrow (.record span fs)) found
  | _, some _, found => found

/-- Adds the types of the names that the elements of a tuple pattern bind, from the given one
on. -/
def refineElems : List Pattern → Ty → Nat → Nat → Table String Ty → Table String Ty
  | [], _, _, _, found => found
  | p :: ps, t, i, length, found =>
    refineElems ps t (i + 1) length (refineInto p (t.elem? i length) found)

/-- Adds the types of the names that field patterns bind. -/
def refineFields : List (String × Pattern) → Ty → Table String Ty → Table String Ty
  | [], _, found => found
  | (name, p) :: fs, t, found => refineFields fs t (refineInto p (t.field? name) found)

end

/-- The types of the names that a pattern binds when it matches a value of a type. -/
def refine (t : Ty) (p : Pattern) : Table String Ty := refineInto p (some t) []

end Pattern

end RowTypes
