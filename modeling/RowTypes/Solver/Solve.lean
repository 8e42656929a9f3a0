import RowTypes.Constraint.Set
import RowTypes.Coverage.Analysis
import RowTypes.Registry.Normalize
import RowTypes.Solver.Join
import RowTypes.Solver.Merge

/-!
# Solving

Constraints are met one by one, those of higher priority first and otherwise in the order of the
set.  Each one is met under what was found before it, and what it adds is composed with that.  The
first constraint that cannot be met ends the solving; the substitution found until then is kept
beside the complaint.
-/

namespace RowTypes

/-- A step of a session that may fail; what it did until then stays done. -/
abbrev SessionM := ExceptT Diagnostic (StateM Session)

namespace Session

/-- The limit on the depth of relating types where none is asked for. -/
def defaultLimit : Nat := 250

/-- The limit that is asked for by a number; a number that is not positive asks for none. -/
def limitOf (maxDepth : Int) : Nat := if maxDepth ≤ 0 then defaultLimit else maxDepth.toNat

/-- A session after types were related in it. -/
def afterRelating (s : Session) (progress : Progress) : Session :=
  { s with
    supply := progress.supply
    exceeded := s.exceeded || progress.exceeded
    ends := s.ends ∧ progress.ends }

/-- Relates types in a session, at a place, with nothing assumed. -/
def relating {α : Type} (span : Span) (m : Context → Relate α) : SessionM α := fun s =>
  let (result, progress) := (m { registry := s.registry, span }).run { supply := s.supply }
  (result, s.afterRelating progress)

def unify (limit : Nat) (span : Span) (a b : Ty) : SessionM Subst :=
  relating span fun ctx => Relate.unify ctx limit a b

def subtype (limit : Nat) (span : Span) (a b : Ty) : SessionM Subst :=
  relating span fun ctx => Relate.subtype ctx limit a b

end Session

/-- Whether the values of a type can be compared, looking so many steps deep. Nothing is known
about an unknown, so it can be. -/
def Registry.isComparable (r : Registry) : Nat → Ty → Bool
  | 0, _ => false
  | n + 1, t =>
    match t with
    | .prim _ | .lit _ | .var _ => true
    | .tuple ts | .union ts => ts.all (r.isComparable n)
    | .record fs _ => fs.all fun (_, t) => r.isComparable n t
    | .named name args => (r.expand? name args).any (r.isComparable n)
    | .fn .. | .inter _ | .mu .. => false

namespace Session

/-- Checks that a type belongs to a class. -/
def checkClass (limit : Nat) (span : Span) (t : Ty) (cls : String) : SessionM Unit := do
  if cls = Demand.printable then return
  if cls ≠ Demand.comparable then throw ⟨.typeClassFailure t.render cls true, span⟩
  if !(← get).registry.isComparable (limit + 1) t then
    throw ⟨.typeClassFailure t.render cls false, span⟩

/-- Checks that patterns cover every value of a type, if its values can be listed. -/
def checkExhaustive (span : Span) (t : Ty) (patterns : List Pattern) : SessionM Unit := do
  let t ← Registry.normalize t
  if t.isEnumerable then
    match Pattern.uncovered? t patterns with
    | none | some [] => return
    | some missing => throw ⟨.nonExhaustive missing, span⟩

/-- Meets a constraint, and gives what it adds. -/
def discharge (limit : Nat) (c : Constraint) : SessionM Subst :=
  if c.isTrivial then pure .empty
  else
    match c.demand with
    | .equal a b => unify limit c.span a b
    | .subtype a b => subtype limit c.span a b
    | .ofClass t cls => do
      checkClass limit c.span t cls
      pure .empty
    | .recordShape t => relating c.span fun ctx => Relate.recordShape ctx t
    | .merge result spreads explicit =>
      relating c.span fun ctx => Relate.merge ctx (Relate.unify ctx limit) result spreads explicit
    | .holds t ts => relating c.span fun ctx => Relate.holds ctx limit t ts
    | .branch t ts => relating c.span fun ctx => Relate.branch ctx limit t ts
    | .exhaustive t ps => do
      checkExhaustive c.span t ps
      pure .empty

end Session

/-- What solving came to: the substitution found, and the complaint that ended it, if any. -/
structure Solution where
  subst : Subst := {}
  failure : Option Diagnostic := none
  deriving Repr, Inhabited

namespace Session

/-- Meets constraints in order. `found` holds what each constraint before them added, the
earliest first; a constraint sees all of it, one after the other, and then their composition. -/
def solveInOrder (limit : Nat) : List Constraint → List Subst → Subst → StateM Session Solution
  | [], _, s => pure { subst := s }
  | c :: cs, found, s => do
    let c := (found.foldl (fun c next => c.apply next) c).apply s
    match ← (discharge limit c).run with
    | .error e => pure { subst := s, failure := some e }
    | .ok next =>
      if next.isEmpty then solveInOrder limit cs found s
      else solveInOrder limit cs (found ++ [next]) (next.after s)

def solve (limit : Nat) (cs : ConstraintSet) : StateM Session Solution :=
  solveInOrder limit cs.simplify.sorted [] .empty

end Session

end RowTypes
