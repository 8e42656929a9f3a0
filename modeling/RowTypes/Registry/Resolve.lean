import RowTypes.Registry.Basic
import RowTypes.Source.Decl

/-!
# From annotations to types

Resolving an annotation looks its names up and gives its type variables unknowns, the same one to
each occurrence of a variable.  A rigid scope knows its variables from the start, as the
declaration of a named type does; a forward scope allows names that are not defined yet.
-/

namespace RowTypes

/-- How the names of an annotation are looked up. -/
structure ScopeRules where
  /-- The level of the unknowns that are made for type variables. -/
  level : Int := 0
  /-- Whether only the type variables known from the start are allowed. -/
  rigid : Bool := false
  /-- Whether names that are not defined yet are allowed. -/
  forward : Bool := false
  deriving Repr, DecidableEq, Inhabited

/-- What resolving has made so far: unknowns, and the type variables they were made for. -/
structure Resolving where
  supply : Supply := {}
  vars : Table String TyVar := []
  deriving Repr, Inhabited

/-- Resolving may fail, and what it made until then stays made. -/
abbrev Resolve := ExceptT Diagnostic (StateM Resolving)

namespace Resolve

def fresh (level : Int) : Resolve TyVar :=
  modifyGet fun s =>
    let (v, supply) := s.supply.fresh level
    (v, { s with supply })

/-- The unknown of a type variable, made now if the rules allow it. -/
def typeVar (rules : ScopeRules) (span : Span) (name : String) : Resolve Ty := do
  match Table.get? name (← get).vars with
  | some v => return .var v
  | none =>
    if rules.rigid then throw ⟨.undefinedTypeVariable name, span⟩
    let v ← fresh rules.level
    modify fun s => { s with vars := Table.insert name v s.vars }
    return .var v

/-- The complaint about an annotation that makes no type. -/
def invalid (e : TyExpr) (reason : String) : Diagnostic := ⟨.invalidTyExpr e.render reason, e.span⟩

/-- Why the number of arguments does not fit. -/
def arityReason (name : String) (want got : Nat) : String :=
  name ++ " expects " ++ toString want ++ " type argument(s), got " ++ toString got

/-- The type of a name that is no primitive, under resolved arguments. -/
def reference (r : Registry) (rules : ScopeRules) (e : TyExpr) (name : String) (args : List Ty) :
    Resolve Ty := do
  match r.lookup? name with
  | none =>
    if rules.forward then return .named name args
    throw ⟨.undefinedConstructor name, e.span⟩
  | some d =>
    if d.params.length ≠ args.length then
      throw (invalid e (arityReason name d.params.length args.length))
    return .named name args

mutual

def resolve (r : Registry) (rules : ScopeRules) : TyExpr → Resolve Ty
  | .missing => throw ⟨.internal "resolving a nil annotation" none, {}⟩
  | .name span name args =>
    match Ty.primitive? name with
    | some t =>
      if args.isEmpty then pure t
      else throw (invalid (.name span name args) (name ++ " takes no type arguments"))
    | none => do
      let ts ← resolveAll r rules args
      reference r rules (.name span name args) name ts
  | .ref span name => typeVar rules span name
  | .fn _ p q => do
    let p ← resolve r rules p
    let q ← resolve r rules q
    pure (.fn p q)
  | .record span fields isOpen => do
    let ts ← resolveFields r rules (.record span fields isOpen) [] fields
    let row ← if isOpen then some <$> fresh rules.level else pure none
    pure (.record ts row)
  | .tuple _ es => do
    let ts ← resolveAll r rules es
    pure (.tuple ts)
  | .union span es => do
    let ts ← resolveAll r rules es
    match Ty.unionOf? ts with
    | some t => pure t
    | none => throw (invalid (.union span es) "union of no alternatives")
  | .inter span es => do
    let ts ← resolveAll r rules es
    match Ty.interOf? ts with
    | some t => pure t
    | none => throw (invalid (.inter span es) "intersection of no members")
  | .lit _ value => pure (.lit value)

def resolveAll (r : Registry) (rules : ScopeRules) : List TyExpr → Resolve (List Ty)
  | [] => pure []
  | e :: es => do
    let t ← resolve r rules e
    let ts ← resolveAll r rules es
    pure (t :: ts)

/-- The fields of a record annotation, none of which may appear twice. -/
def resolveFields (r : Registry) (rules : ScopeRules) (whole : TyExpr)
    (done : List (String × Ty)) : List (String × TyExpr) → Resolve (List (String × Ty))
  | [] => pure done
  | (name, e) :: fs => do
    if Table.has name done then throw (invalid whole ("field '" ++ name ++ "' appears twice"))
    let t ← resolve r rules e
    resolveFields r rules whole (Table.insert name t done) fs

end

/-- Gives each parameter of a declaration an unknown; no parameter may appear twice. -/
def declareParams (span : Span) : List String → Resolve (List TyVar)
  | [] => pure []
  | name :: names => do
    if Table.has name (← get).vars then throw ⟨.duplicateDefinition name, span⟩
    let v ← fresh 0
    modify fun s => { s with vars := Table.insert name v s.vars }
    let vs ← declareParams span names
    pure (v :: vs)

def definition (r : Registry) (d : TypeDecl) : Resolve Definition := do
  let params ← declareParams d.span d.params
  let body ← resolve r { rigid := true, forward := true } d.body
  pure { name := d.name, params, body, span := d.span }

end Resolve

namespace Session

/-- Resolves something in a session, starting from some type variables; the unknowns made stay
made, also when it fails. -/
def resolving {α : Type} (vars : Table String TyVar) (m : Resolve α) :
    ExceptT Diagnostic (StateM Session) (α × Table String TyVar) := fun s =>
  match m.run { supply := s.supply, vars } with
  | (.ok a, made) => (.ok (a, made.vars), { s with supply := made.supply })
  | (.error e, made) => (.error e, { s with supply := made.supply })

/-- Adds a definition to the session's registry. -/
def define (d : Definition) : ExceptT Diagnostic (StateM Session) Unit := do
  match (← get).registry.define d with
  | .ok registry => modify fun s => { s with registry }
  | .error e => throw e

/-- Resolves a declaration and adds its definition. -/
def declare (d : TypeDecl) : ExceptT Diagnostic (StateM Session) Unit := do
  let (definition, _) ← resolving [] (Resolve.definition (← get).registry d)
  define definition

end Session

end RowTypes
