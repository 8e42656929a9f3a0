import RowTypes.Constraint.Set
import RowTypes.Coverage.Ending
import RowTypes.Env
import RowTypes.Registry.Resolve
import RowTypes.Solver.Solve

/-!
# Inference steps

Inference walks an expression in a session and collects warnings on the way.  It stops at the
first error; the unknowns and warnings made until then stay.
-/

namespace RowTypes

/-- What inference changes on its way. -/
structure Generating where
  session : Session := {}
  warnings : List Diagnostic := []
  deriving Inhabited

/-- A step of inference. -/
abbrev Generate := ExceptT Diagnostic (StateM Generating)

/-- The type of an expression, which it has once the constraints are met. -/
structure Typed where
  ty : Ty
  constraints : ConstraintSet := .empty
  deriving Inhabited

namespace Generate

def ofSession {α : Type} (m : StateM Session α) : Generate α :=
  modifyGet fun g =>
    let (a, session) := m.run g.session
    (a, { g with session })

def ofSessionM {α : Type} (m : SessionM α) : Generate α := do
  match ← ofSession m.run with
  | .ok a => pure a
  | .error e => throw e

def fresh (level : Int) : Generate TyVar := ofSession (Registry.freshVar level)

def warn (ds : List Diagnostic) : Generate Unit :=
  modify fun g => { g with warnings := g.warnings ++ ds }

/-- Resolves an annotation, starting from some type variables. -/
def resolve (level : Int) (vars : Table String TyVar) (e : TyExpr) :
    Generate (Ty × Table String TyVar) := do
  let registry ← ofSession (do pure (← get).registry)
  ofSessionM (Session.resolving vars (Resolve.resolve registry { level } e))

/-- An equality that an expression makes. -/
def equality (a b : Ty) (span : Span) : Constraint := .equal a b .inference span

/-- A fresh unknown for a constant. A string is the type of that one string only where it can
serve as a tag, and the type of strings elsewhere. -/
def literal (level : Int) (span : Span) (kind : LiteralKind) (value : String) (isTag : Bool) :
    Generate Typed := do
  let t ← match kind with
    | .int => pure Ty.int
    | .bool => pure Ty.bool
    | .unit => pure Ty.unit
    | .string => pure (if isTag then Ty.lit value else Ty.string)
    | .other _ => throw ⟨.internal ("unexpected literal kind " ++ kind.name) none, span⟩
  let ret ← fresh level
  pure ⟨.var ret, ConstraintSet.empty.add (equality (.var ret) t span)⟩

/-- Gives parameters their types and puts them into scope. -/
def params (level : Int) : List Param → Table String TyVar → Env → Generate (List Ty × Env)
  | [], _, e => pure ([], e)
  | p :: ps, vars, e => do
    let v ← fresh level
    let (t, vars) ← match p.typed with
      | none => pure (.var v, vars)
      | some written => resolve level vars written
    let (ts, e) ← params level ps vars (e.bindMono p.name t)
    pure (t :: ts, e)

mutual

/-- The type of the values that a pattern matches, and the types of the names it binds, added to
those bound already. -/
def patternType (level : Int) : Pattern → Table String Ty → Generate (Ty × Table String Ty)
  | .missing, _ => throw ⟨.unsupportedPattern "<nil>", {}⟩
  | .literal span kind value, vars =>
    match kind with
    | .int => pure (.int, vars)
    | .bool => pure (.bool, vars)
    | .unit => pure (.unit, vars)
    | .string => pure (.lit value, vars)
    | .other _ => throw ⟨.unsupportedPattern (kind.render value), span⟩
  | .var _ name, vars => do
    let v ← fresh level
    pure (.var v, Table.insert name (.var v) vars)
  | .wildcard _, vars => do
    let v ← fresh level
    pure (.var v, vars)
  | .tuple _ ps, vars => do
    let (ts, vars) ← patternTypes level ps vars
    pure (.tuple ts, vars)
  | .record _ fs, vars => do
    let (ts, vars) ← fieldPatternTypes level fs [] vars
    let row ← fresh level
    pure (.record ts (some row), vars)

def patternTypes (level : Int) :
    List Pattern → Table String Ty → Generate (List Ty × Table String Ty)
  | [], vars => pure ([], vars)
  | p :: ps, vars => do
    let (t, vars) ← patternType level p vars
    let (ts, vars) ← patternTypes level ps vars
    pure (t :: ts, vars)

/-- The types of field patterns; of two patterns of one field the later one counts. -/
def fieldPatternTypes (level : Int) :
    List (String × Pattern) → Table String Ty → Table String Ty →
      Generate (Table String Ty × Table String Ty)
  | [], done, vars => pure (done, vars)
  | (name, p) :: fs, done, vars => do
    let (t, vars) ← patternType level p vars
    fieldPatternTypes level fs (Table.insert name t done) vars

end

/-- Puts the names of a case into scope. The pattern's type is given unless the pattern matches
everything. -/
def caseScope (level : Int) (scrutinee : Ty) (refined : Table String Ty) (e : Env) :
    Pattern → Generate (Env × Option Ty)
  | .var _ name => pure (e.bindMono name scrutinee, none)
  | .wildcard _ => pure (e, none)
  | p => do
    let (t, vars) ← patternType level p []
    let e := vars.foldl (fun e (name, t) =>
      e.bindMono name ((Table.get? name refined).getD t)) e
    pure (e, some t)

/-- What the constraints tell about a scrutinee, in normal form; the scrutinee itself if they
cannot be met. -/
def knownShape (limit : Nat) (t : Ty) (cs : ConstraintSet) : Generate Ty := ofSession do
  let solution ← Session.solve limit cs
  match solution.failure with
  | some _ => pure t
  | none => Registry.normalize (solution.subst.apply t)

/-- Whether a match that leaves values of a type out only deserves a warning. -/
def isProduct : Ty → Bool
  | .tuple _ | .record .. => true
  | _ => false

/-- Notes that what comes next is a search that ends only if something holds. -/
def needs (ends : Prop) : Generate Unit :=
  modify fun g => { g with session.ends := g.session.ends ∧ ends }

/-- Analyses a match and warns about its cases. -/
def analyse (span : Span) (known : Ty) (patterns : List Pattern) : Generate Analysis := do
  needs (Analysis.Ends known patterns)
  let analysis := Analysis.ofMatch known patterns
  warn (analysis.warnings patterns)
  if isProduct known && analysis.isDecided && !analysis.isExhaustive then
    warn [⟨.incompleteMatch analysis.missing, span⟩]
  pure analysis

/-- What a local definition and one at the top of a program have in common. -/
structure Site where
  span : Span := {}
  name : String
  isRec : Bool := false
  typed : Option TyExpr := none

/-- The scheme of a value. Its constraints are met on the spot, so that nothing they settle gets
quantified; if they cannot be met the scheme quantifies nothing, and they fail again where the
whole is solved. -/
def settle (limit : Nat) (e : Env) (typed : Typed) : Generate Scheme := do
  let solution ← ofSession (Session.solve limit typed.constraints)
  match solution.failure with
  | some _ => pure (.mono typed.ty)
  | none => pure ((e.apply solution.subst).generalize (solution.subst.apply typed.ty))

/-- Gives a defined name its scheme, and the constraints of its value. -/
def binding (limit : Nat) (e : Env) (level : Int) (site : Site) (value : Env → Generate Typed) :
    Generate (Scheme × ConstraintSet) := do
  let declared ← match site.typed with
    | none => pure none
    | some written => do
      let (t, _) ← resolve (level + 1) [] written
      pure (some t)
  let placeholder ← if site.isRec then some <$> fresh (level + 1) else pure none
  let valueEnv := match placeholder with
    | some v => e.bindMono site.name (.var v)
    | none => e
  let ⟨t, cs⟩ ← value valueEnv
  let cs := match placeholder with
    | some v => cs.add (equality (.var v) t site.span)
    | none => cs
  let (t, cs) := match declared with
    | some d => (d, cs.add (.subtype t d .written site.span))
    | none => (t, cs)
  let scheme ← settle limit e ⟨t, cs⟩
  pure (scheme, cs)

end Generate

end RowTypes
