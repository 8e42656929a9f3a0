import RowTypes.Registry.Basic

/-!
# Relating types

Unification and subtyping relate two types by finding a substitution.  They share what is set up
here.

Named and recursive types are related by assuming the pair while it is taken apart: a pair that
comes up again holds because it is assumed.  Pairs are remembered by a digest.  Trying one of
several ways must not leave its assumptions behind, so an attempt puts the assumptions back; the
unknowns that it made stay made.

How deep relating may go is bounded by a limit, and beyond it an internal error is raised.  Such an
error may be caught further out and take another form, so that it happened is noted beside it.  The
search for a type's head is not bounded; whether it ends is noted in the same way.
-/

namespace RowTypes

/-- Where types are related: the named types, and the place to complain about. -/
structure Context where
  registry : Registry := {}
  span : Span := {}
  deriving Repr, Inhabited

/-- What relating types has used and assumed so far. -/
structure Progress where
  supply : Supply := {}
  /-- The digests of the pairs that are assumed to be related. -/
  assumed : List Digest := []
  /-- Whether the limit was exceeded, also in an attempt that was given up. -/
  exceeded : Bool := false
  /-- That every search so far ends, as in a session. -/
  ends : Prop := True
  deriving Repr, Inhabited

/-- Relating may fail, and the unknowns made until then stay made. -/
abbrev Relate := ExceptT Diagnostic (StateM Progress)

/-- A way to relate two types. -/
abbrev Relation := Ty → Ty → Relate Subst

namespace Relate

def pairDigest (a b : Ty) : Digest := (31 * a.digest) ^^^ b.digest

/-- Assumes that two types are related, and tells whether that was assumed already. -/
def assume (a b : Ty) : Relate Bool := do
  let assumed := (← get).assumed
  let key := pairDigest a b
  if assumed.contains key then return true
  modify fun s => { s with assumed := key :: assumed }
  return false

def fresh (level : Int) : Relate TyVar :=
  modifyGet fun s =>
    let (v, supply) := s.supply.fresh level
    (v, { s with supply })

/-- Tries to relate types; the assumptions made on the way are dropped. -/
def attempt {α : Type} (m : Relate α) : StateM Progress (Option α) := fun s =>
  match m.run s with
  | (.ok a, s') => (some a, { s' with assumed := s.assumed })
  | (.error _, s') => (none, { s' with assumed := s.assumed })

/-- The first of several types for which an attempt succeeds, with what it found. -/
def firstOf {α : Type} (m : Ty → Relate α) : List Ty → StateM Progress (Option α)
  | [] => pure none
  | t :: ts => do
    match ← attempt (m t) with
    | some a => pure (some a)
    | none => firstOf m ts

/-- Relates pairs one after the other, each under what was found before it. -/
def thread (rel : Relation) : List (Ty × Ty) → Subst → Relate Subst
  | [], s => pure s
  | (a, b) :: pairs, s => do
    let next ← rel (s.apply a) (s.apply b)
    thread rel pairs (next.after s)

/-- Fails in another way when something fails. -/
def orElseThrow {α : Type} (m : Relate α) (d : Diagnostic → Diagnostic) : Relate α :=
  tryCatch m fun e => throw (d e)

/-- The complaint that one type was found where another was expected. -/
def mismatch (ctx : Context) (expected found : Ty) (reason : String) : Diagnostic :=
  ⟨.typeMismatch expected.render found.render reason, ctx.span⟩

/-- The complaint that relating two types went too deep. -/
def tooDeep (ctx : Context) (a b : Ty) : Diagnostic :=
  ⟨.internal ("exceeded max depth limit relating " ++ a.render ++ " and " ++ b.render) none,
    ctx.span⟩

/-- Notes that what comes next is a search that ends only if something holds. -/
def needs (ends : Prop) : Relate Unit := modify fun s => { s with ends := s.ends ∧ ends }

/-- Gives up because relating two types went too deep. -/
def exceed {α : Type} (ctx : Context) (a b : Ty) : Relate α := do
  modify fun s => { s with exceeded := true }
  throw (tooDeep ctx a b)

def expand (ctx : Context) (name : String) (args : List Ty) : Relate Ty :=
  match ctx.registry.lookup? name with
  | none => throw ⟨.undefinedConstructor name, ctx.span⟩
  | some d =>
    match d.expand? args with
    | some t => pure t
    | none =>
      throw ⟨.invalidTyExpr (Ty.named name args).render "wrong number of type arguments", ctx.span⟩

/-- Binds an unknown, unless it occurs in the type. -/
def bindVar (ctx : Context) (v : TyVar) (t : Ty) : Relate Subst :=
  match t with
  | .var w =>
    if w.id = v.id then pure .empty else pure (.single v t)
  | t =>
    if t.occurs v then throw ⟨.occursCheck v.render t.render, ctx.span⟩
    else pure (.single v t)

end Relate

end RowTypes
