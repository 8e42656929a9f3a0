import RowTypes.Coverage.Analysis

/-!
# Analyses that end

Whether a pattern could match a value of a type is asked of the type's heads, and to come to a head
recursive types are unfolded, which uses up nothing of the pattern.  Nothing bounds that search.

The search here calls itself as often as it has to, and a limit on the calls below each other says
how far it is followed.  It ends if it comes to an answer from some limit on.
-/

namespace RowTypes

open Ty

/-- A computation with a limit comes to an answer, which does not depend on the limit if that is
high enough. -/
def ComesTo {α : Type} (f : Nat → Option α) (a : α) : Prop := ∃ N, ∀ n, N ≤ n → f n = some a

namespace Pattern

/-- Whether a pattern that is not irrefutable could match some value of a head, given what is to be
asked of the parts. -/
def fitsHeadWith (ask : Pattern → Ty → Option Bool) : Pattern → Ty → Option Bool
  | _, .var _ => some true
  | .literal _ kind value, t => some (literalFits kind value t)
  | .tuple _ ps, .tuple ts =>
    if ps.length = ts.length then (ps.zip ts).allM fun e => ask e.1 e.2 else some false
  | .record _ fs, .record ts row =>
    fs.allM fun f =>
      match Table.get? f.1 ts with
      | some t => ask f.2 t
      | none => some row.isSome
  | _, _ => some false

/-- Whether a pattern could match some value of a type, with so many calls below each other. -/
def compatibleWithin : Nat → Pattern → Ty → Option Bool
  | 0, _, _ => none
  | n + 1, p, t =>
    if p.isIrrefutable then some true
    else
      match t with
      | .mu v t => compatibleWithin n p (.unfold v t)
      | .union ts => ts.anyM (compatibleWithin n p)
      | t => fitsHeadWith (compatibleWithin n) p t

end Pattern

/-- The alternatives of a union that a pattern could match, as far as that is found out. -/
def Ty.narrowWithin (n : Nat) (t : Ty) (p : Pattern) : Option Ty :=
  match t.unfoldOnce with
  | .union ts => do
    match ← ts.filterM (p.compatibleWithin n) with
    | [] => some (.union ts)
    | kept => some (unionOf kept)
  | t => some t

namespace Pattern

mutual

/-- Adds the types of the names that a pattern binds.  A type is narrowed for each element of a
tuple pattern, and once for a record pattern. -/
def refineIntoWithin (n : Nat) : Pattern → Option Ty → Table String Ty → Option (Table String Ty)
  | _, none, found => some found
  | .var _ name, some t, found =>
    match t.unfoldOnce with
    | .var _ => some found
    | t => some (Table.insert name t found)
  | .tuple span ps, some t, found =>
    refineElemsWithin n ps (t.unfoldOnce.narrowWithin n (.tuple span ps)) 0 ps.length found
  | .record span fs, some t, found => do
    refineFieldsWithin n fs (← t.unfoldOnce.narrowWithin n (.record span fs)) found
  | _, some _, found => some found

def refineElemsWithin (n : Nat) : List Pattern → Option Ty → Nat → Nat → Table String Ty →
    Option (Table String Ty)
  | [], _, _, _, found => some found
  | p :: ps, narrowed, i, length, found => do
    let t ← narrowed
    refineElemsWithin n ps narrowed (i + 1) length
      (← refineIntoWithin n p (t.elem? i length) found)

def refineFieldsWithin (n : Nat) : List (String × Pattern) → Ty → Table String Ty →
    Option (Table String Ty)
  | [], _, found => some found
  | (name, p) :: fs, t, found => do
    refineFieldsWithin n fs t (← refineIntoWithin n p (t.field? name) found)

end

/-- The types of the names that a pattern binds. -/
def refineWithin (n : Nat) (t : Ty) (p : Pattern) : Option (Table String Ty) :=
  refineIntoWithin n p (some t) []

end Pattern

/-- Analysing a match ends if what each of its patterns binds is found. -/
def Analysis.Ends (t : Ty) (patterns : List Pattern) : Prop :=
  ∀ p ∈ patterns, ∃ found, ComesTo (fun n => p.refineWithin n t) found

end RowTypes
