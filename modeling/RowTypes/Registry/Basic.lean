import RowTypes.Diagnostic.Basic
import RowTypes.Scheme
import RowTypes.Search
import RowTypes.Trail
import RowTypes.Ty.Hash

/-!
# Named types

A program may name types and give them parameters.  The registry holds the definitions, and the
normal forms of references that have been worked out already, under the digests of the
references.

A definition is refused if its name is taken, or if expanding it would never come to a
constructor.  Whether it would is decided by following the references that stand at the head of
the type, through intersections and recursive types but not into records, functions, tuples or
unions: if one is met a second time on the way, the names since its first visit are a cycle.  A
name that is not defined yet stops the walk, and when it gets defined only its own body is followed.
The walk cannot visit more names than there are definitions, which bounds its length.
-/

namespace RowTypes

/-- The definition of a named type. -/
structure Definition where
  name : String
  params : List TyVar := []
  body : Ty
  span : Span := {}
  deriving Repr, Inhabited

/-- The type that a definition stands for under some arguments, if their number fits. -/
def Definition.expand? (d : Definition) (args : List Ty) : Option Ty :=
  if args.length = d.params.length then
    some ((Subst.ofList (d.params.zip args)).apply d.body)
  else none

/-- The named types of a program. -/
structure Registry where
  definitions : Table String Definition := []
  /-- Normal forms that have been worked out, under the digests of the references. -/
  memo : Table Digest Ty := []
  deriving Repr, Inhabited

namespace Registry

def lookup? (r : Registry) (name : String) : Option Definition := Table.get? name r.definitions

def names (r : Registry) : List String := Table.keys r.definitions

/-- The type that a reference stands for, one step deep. -/
def expand? (r : Registry) (name : String) (args : List Ty) : Option Ty :=
  (r.lookup? name).bind (·.expand? args)

/-- The head of a type, if it is found in fewer steps than the limit. -/
def headWithin (r : Registry) : Nat → Ty → Option Ty
  | 0, _ => none
  | n + 1, .named name args =>
    match r.expand? name args with
    | some t => r.headWithin n t
    | none => some (.named name args)
  | n + 1, .mu v body => r.headWithin n (.unfold v body)
  | _ + 1, t => some t

/-- The first type, through names and recursive types, whose constructor shows, or the first
reference that stands for nothing. Where a type leads back to itself there is none, and looking for
it goes on for ever. -/
def head? (r : Registry) (t : Ty) : Option Ty := search (r.headWithin · t)

theorem steady_headWithin (r : Registry) (t : Ty) : Steady (r.headWithin · t) := by
  suffices h : ∀ n t u, r.headWithin n t = some u → r.headWithin (n + 1) t = some u from
    steady_of_succ fun n => h n t
  intro n
  induction n with
  | zero => exact fun _ _ h => nomatch h
  | succ n ih =>
    intro t u h
    cases t with
    | named name args =>
      simp only [headWithin] at h ⊢
      split at h
      · exact ih _ u h
      · exact h
    | mu v body => exact ih _ u h
    | _ => exact h

/-- One step to the head of a type. -/
theorem head?_step (r : Registry) (t : Ty) : r.head? t =
    match t with
    | .named name args =>
      match r.expand? name args with
      | some t => r.head? t
      | none => some (.named name args)
    | .mu v body => r.head? (.unfold v body)
    | t => some t := by
  rw [head?, ← search_succ (r.steady_headWithin t)]
  cases t with
  | named name args =>
    simp only [headWithin]
    cases r.expand? name args with
    | some t => rfl
    | none => exact search_const _
  | mu v body => rfl
  | _ => exact search_const _

end Registry

namespace Ty

mutual

/-- The references at the head of a type: those that are met before any constructor. -/
def headRefs : Ty → List (String × List Ty)
  | .named name args => [(name, args)]
  | .inter ts => headRefsAll ts
  | .mu _ t => headRefs t
  | _ => []

def headRefsAll : List Ty → List (String × List Ty)
  | [] => []
  | t :: ts => headRefs t ++ headRefsAll ts

end

end Ty

namespace Registry

/-- The first cycle among the references that are met below the end of a trail, at most the
given number of expansions deep. -/
def cycleWithin (r : Registry) : Nat → Trail String → Ty → Option (List String)
  | 0, _, _ => none
  | n + 1, trail, t => t.headRefs.findSome? fun (name, args) =>
    if trail.contains name then some (trail.since name ++ [name])
    else (r.expand? name args).bind fun expanded => r.cycleWithin n (trail.push name) expanded

/-- The registry with one more definition, and nothing worked out. -/
def insert (r : Registry) (d : Definition) : Registry :=
  { definitions := Table.insert d.name d r.definitions, memo := [] }

/-- The cycle that a new definition would close. -/
def cycle? (r : Registry) (d : Definition) : Option (List String) :=
  let all := r.insert d
  all.cycleWithin (all.definitions.length + 1) (({} : Trail String).push d.name) d.body

/-- Adds a definition, unless its name is taken or it would close a cycle. -/
def define (r : Registry) (d : Definition) : Except Diagnostic Registry :=
  if (Ty.primitive? d.name).isSome || (r.lookup? d.name).isSome then
    .error ⟨.duplicateDefinition d.name, d.span⟩
  else
    match r.cycle? d with
    | some cycle => .error ⟨.circularTypeDefinition d.name cycle, d.span⟩
    | none => .ok (r.insert d)

end Registry

/-- What the checking of a program keeps from one step to the next. -/
structure Session where
  supply : Supply := {}
  registry : Registry := {}
  /-- Whether relating two types ever went deeper than its limit. -/
  exceeded : Bool := false
  /-- That every search so far ends. Nothing reads it: a program does not get past one that goes on
  for ever, and what is said to come after such a search means nothing. -/
  ends : Prop := True
  deriving Repr, Inhabited

end RowTypes
