import RowTypes.Solver.Row

/-!
# Unification

Unifying two types finds a substitution under which they are one, up to two liberties: a string
literal goes with the type of strings, and a type goes with a union if it goes with one of its
alternatives.

The recursion is cut into a step, which gets the relation for the types further down as an
argument, and the limit, which is spent one by one.  Raising the limit therefore changes no answer
but an answer that says that the limit was exceeded.
-/

namespace RowTypes

namespace Relate

/-- Unifies a type with the first alternative of a union that it goes with. -/
def absorb (ctx : Context) (unify : Relation) (t : Ty) (alts : List Ty) : Relate Subst := do
  match ← firstOf (unify t) alts with
  | some s => pure s
  | none => throw ⟨.unionFailure t.render (alts.map Ty.render), ctx.span⟩

/-- Unifies each of some alternatives with one alternative of a union. -/
def absorbAll (ctx : Context) (unify : Relation) (target : Ty) :
    List Ty → Subst → Relate Subst
  | [], s => pure s
  | alt :: alts, s => do
    let next ← match s.apply target with
      | .union ts => absorb ctx unify (s.apply alt) ts
      | t => unify (s.apply alt) t
    absorbAll ctx unify target alts (next.after s)

/-- Unifies two unions: each alternative of one goes with some alternative of the other. -/
def unifyUnions (ctx : Context) (unify : Relation) (as bs : List Ty) : Relate Subst :=
  orElseThrow
    (do
      let s ← absorbAll ctx unify (.union bs) as .empty
      absorbAll ctx unify (.union as) bs s)
    fun _ => mismatch ctx (.union as) (.union bs) "union alternatives differ"

/-- Unifies a type with every member of an intersection. -/
def unifyWithMembers (ctx : Context) (unify : Relation) (t : Ty) (members : List Ty) :
    Relate Subst :=
  orElseThrow (thread unify (members.map fun m => (t, m)) .empty)
    fun _ => ⟨.intersectionFailure t.render (members.map Ty.render), ctx.span⟩

/-- Whether a type has to be expanded or unfolded before its constructor shows. -/
def isIndirect : Ty → Bool
  | .named .. | .mu .. => true
  | _ => false

/-- The arguments of two references to one name, pairwise. -/
def sameNameArgs? : Ty → Ty → Option (List (Ty × Ty))
  | .named m as, .named n bs => if m = n ∧ as.length = bs.length then some (as.zip bs) else none
  | _, _ => none

/-- Unifies types of which one has to be expanded or unfolded first. References to one name are
expanded only if their arguments do not unify. -/
def unifyIndirect (ctx : Context) (unify : Relation) (a b : Ty) : Relate Subst := do
  if ← assume a b then return .empty
  if let some pairs := sameNameArgs? a b then
    if let some s ← attempt (thread unify pairs .empty) then return s
  match a, b with
  | .named name args, b => do unify (← expand ctx name args) b
  | a, .named name args => do unify a (← expand ctx name args)
  | .mu v t, b => unify (.unfold v t) b
  | a, .mu v t => unify a (.unfold v t)
  | a, b => unify a b

/-- Unifies two types whose constructors show. -/
def unifyShapes (ctx : Context) (unify : Relation) (a b : Ty) : Relate Subst :=
  match a, b with
  | .union as, .union bs => unifyUnions ctx unify as bs
  | a, .union bs => absorb ctx unify a bs
  | a, .inter ms => unifyWithMembers ctx unify a ms
  | .union as, b => absorb ctx unify b as
  | .inter ms, b => unifyWithMembers ctx unify b ms
  | .prim "String", .lit _ => pure .empty
  | .lit _, .prim "String" => pure .empty
  | .fn p r, .fn p' r' => thread unify [(p, p'), (r, r')] .empty
  | .tuple as, .tuple bs =>
    if as.length = bs.length then thread unify (as.zip bs) .empty
    else throw (mismatch ctx (.tuple bs) (.tuple as) "tuples of different sizes")
  | .record fs row, .record gs row' => unifyRecords ctx unify ⟨fs, row⟩ ⟨gs, row'⟩
  | a, b => throw (mismatch ctx b a "")

/-- One step of unification, with the relation for the types further down. -/
def unifyStep (ctx : Context) (unify : Relation) (a b : Ty) : Relate Subst :=
  if a.equiv b then pure .empty
  else
    match a, b with
    | .var v, b => bindVar ctx v b
    | a, .var v => bindVar ctx v a
    | a, b =>
      if isIndirect a || isIndirect b then unifyIndirect ctx unify a b
      else unifyShapes ctx unify a b

/-- Unifies two types, at most the given number of steps deep. -/
def unify (ctx : Context) : Nat → Relation
  | 0, a, b => exceed ctx a b
  | n + 1, a, b => unifyStep ctx (unify ctx n) a b

end Relate

end RowTypes
