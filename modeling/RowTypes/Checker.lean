import RowTypes.Diagnostic.Report
import RowTypes.Inference.Generate
import RowTypes.Prelude

/-!
# Checking programs

A checker holds the session and the environment of a program.  An expression is checked by
inferring its type and solving the constraints.  A program is checked declaration by declaration,
past those that fail: its named types first, so that they can be used ahead of their declarations,
then everything else in order.  A definition that fails gives its name the type of anything, so
that its uses raise no errors of their own.
-/

namespace RowTypes

structure Checker where
  limit : Nat := Session.defaultLimit
  session : Session := {}
  env : Env := {}
  deriving Inhabited

/-- What is known about an expression that has a type. -/
structure Checked where
  ty : Ty
  subst : Subst
  warnings : List Diagnostic
  deriving Inhabited

/-- What became of a declaration: a scheme for a definition or an expression, and nothing for a
named type. -/
abbrev DeclOutcome := Except Diagnostic (Option Scheme)

/-- What became of a program. -/
structure ProgramResult where
  outcomes : List DeclOutcome := []
  warnings : List Diagnostic := []
  env : Env := {}
  deriving Inhabited

namespace ProgramResult

def report (r : ProgramResult) : Report :=
  ⟨r.outcomes.filterMap fun
    | .error e => some e
    | .ok _ => none⟩

def isOk (r : ProgramResult) : Bool := !r.report.hasError

end ProgramResult

namespace Checker

/-- A checker with nothing but the prelude, or with nothing at all. -/
def start (withPrelude : Bool) (maxDepth : Int) : Checker :=
  let limit := Session.limitOf maxDepth
  if withPrelude then
    let (env, supply) := Env.prelude {}
    { limit, session := { supply }, env }
  else { limit }

def inSession {α : Type} (m : StateM Session α) : StateM Checker α :=
  modifyGet fun c =>
    let (a, session) := m.run c.session
    (a, { c with session })

def checkExpr (x : Expr) : StateM Checker (Except Diagnostic Checked) := do
  let c ← get
  let (result, warnings) ← inSession (Session.generate c.limit c.env x)
  match result with
  | .error e => pure (.error e)
  | .ok typed =>
    let solution ← inSession (Session.solve c.limit typed.constraints)
    match solution.failure with
    | some e => pure (.error e)
    | none => pure (.ok ⟨solution.subst.apply typed.ty, solution.subst, warnings⟩)

/-- Infers the scheme of a definition and checks that its constraints can be met. -/
def checkLet (d : LetDecl) : StateM Checker (Except Diagnostic Scheme × List Diagnostic) := do
  let c ← get
  let (result, warnings) ← inSession (Session.generateDecl c.limit c.env d)
  match result with
  | .error e => pure (.error e, warnings)
  | .ok (scheme, cs) =>
    let solution ← inSession (Session.solve c.limit cs)
    match solution.failure with
    | some e => pure (.error e, warnings)
    | none => pure (.ok scheme, warnings)

def anything : StateM Checker Scheme :=
  inSession (modifyGet fun s =>
    let (scheme, supply) := Scheme.forAll .var s.supply
    (scheme, { s with supply }))

/-- Declares the named types of a program, and gives for each declaration what went wrong. -/
def declareTypes : List Decl → StateM Checker (List (Option Diagnostic))
  | [] => pure []
  | d :: ds => do
    let failure ← match d with
      | .type t => do
        match ← inSession (Session.declare t).run with
        | .ok () => pure none
        | .error e => pure (some e)
      | _ => pure none
    let failures ← declareTypes ds
    pure (failure :: failures)

/-- Checks a declaration, whose named type is declared already. -/
def checkDecl (d : Decl) (declared : Option Diagnostic) :
    StateM Checker (DeclOutcome × List Diagnostic) := do
  match d with
  | .missing => pure (.error ⟨.unimplemented "declaration <nil>", {}⟩, [])
  | .type _ =>
    match declared with
    | some e => pure (.error e, [])
    | none => pure (.ok none, [])
  | .define l =>
    let (result, warnings) ← checkLet l
    match result with
    | .ok scheme =>
      modify fun c => { c with env := c.env.bind l.name scheme }
      pure (.ok (some scheme), warnings)
    | .error e =>
      let scheme ← anything
      modify fun c => { c with env := c.env.bind l.name scheme }
      pure (.error e, warnings)
  | .expr _ x =>
    match ← checkExpr x with
    | .ok checked => pure (.ok (some (.mono checked.ty)), checked.warnings)
    | .error e => pure (.error e, [])

def checkDecls : List (Decl × Option Diagnostic) →
    StateM Checker (List (DeclOutcome × List Diagnostic))
  | [] => pure []
  | (d, declared) :: ds => do
    let outcome ← checkDecl d declared
    let outcomes ← checkDecls ds
    pure (outcome :: outcomes)

/-- Checks a program. Its definitions stay in scope for what is checked later. -/
def checkProgram (p : Program) : StateM Checker ProgramResult := do
  let failures ← declareTypes p.decls
  let outcomes ← checkDecls (p.decls.zip failures)
  pure {
    outcomes := outcomes.map (·.1)
    warnings := outcomes.flatMap (·.2)
    env := (← get).env }

end Checker

end RowTypes
