import RowTypes.Registry.Basic

/-!
# Normal forms

Normalising a type expands all its references.  A reference that is met again while it is being
expanded becomes the binder of a recursive type, so `List[Int]` becomes `μt.{head: Int, tail: t}`.
References to unknown names are kept, with their arguments normalised; references with the wrong
number of arguments are kept as they are; and since arguments can grow from one reference to the
next, expansions are nested at most `expansionLimit` deep, below which references are kept.

A normal form is remembered under the digest of its reference, unless it mentions the binder of an
expansion that is still going on: outside of that expansion it would mean nothing.
-/

namespace RowTypes

namespace Registry

/-- How deep expansions may nest. -/
def expansionLimit : Nat := 64

/-- The expansions that are going on, with their binders. -/
abbrev Expanding := List (Digest × TyVar)

mutual

/-- Normalises a type, given what becomes of a reference; a reference of which nothing becomes
is kept, with its arguments normalised. -/
def normalizeWith (onRef : String → List Ty → StateM Session (Option Ty)) : Ty → StateM Session Ty
  | .var v => pure (.var v)
  | .prim name => pure (.prim name)
  | .lit value => pure (.lit value)
  | .fn p r => do
    let p ← normalizeWith onRef p
    let r ← normalizeWith onRef r
    pure (.fn p r)
  | .record fs row => do
    let fs ← normalizeFields onRef fs
    pure (.record fs row)
  | .tuple ts => do
    let ts ← normalizeAll onRef ts
    pure (.tuple ts)
  | .union ts => do
    let ts ← normalizeAll onRef ts
    pure (Ty.unionOf ts)
  | .inter ts => do
    let ts ← normalizeAll onRef ts
    pure (Ty.interOf ts)
  | .named name args => do
    match ← onRef name args with
    | some t => pure t
    | none =>
      let args ← normalizeAll onRef args
      pure (.named name args)
  | .mu v t => do
    let t ← normalizeWith onRef t
    pure (.mu v t)

def normalizeAll (onRef : String → List Ty → StateM Session (Option Ty)) :
    List Ty → StateM Session (List Ty)
  | [] => pure []
  | t :: ts => do
    let t ← normalizeWith onRef t
    let ts ← normalizeAll onRef ts
    pure (t :: ts)

def normalizeFields (onRef : String → List Ty → StateM Session (Option Ty)) :
    List (String × Ty) → StateM Session (List (String × Ty))
  | [] => pure []
  | (name, t) :: fs => do
    let t ← normalizeWith onRef t
    let fs ← normalizeFields onRef fs
    pure ((name, t) :: fs)

end

/-- Whether a type mentions the binder of an expansion that is going on. -/
def mentionsBinder (expanding : Expanding) (t : Ty) : Bool :=
  t.free.any fun v => expanding.any fun (_, b) => b.id == v.id

def remember (key : Digest) (t : Ty) : StateM Session Unit :=
  modify fun s =>
    { s with registry := { s.registry with memo := Table.insert key t s.registry.memo } }

def freshVar (level : Int) : StateM Session TyVar :=
  modifyGet fun s =>
    let (v, supply) := s.supply.fresh level
    (v, { s with supply })

/-- Closes an expanded reference: it is a recursive type if it mentions its own binder. -/
def closeExpansion (expanding : Expanding) (key : Digest) (binder : TyVar) (body : Ty) :
    StateM Session Ty := do
  let result := if body.occurs binder then .mu binder body else body
  if !mentionsBinder expanding result then remember key result
  pure result

/-- What becomes of a reference, given what becomes of the references below it, if it may be
expanded. -/
def normalizeRefStep (below : Option (Expanding → String → List Ty → StateM Session (Option Ty)))
    (expanding : Expanding) (name : String) (args : List Ty) : StateM Session (Option Ty) := do
  let key := (Ty.named name args).digest
  if let some binder := expanding.lookup key then return some (.var binder)
  let session ← get
  if let some t := Table.get? key session.registry.memo then return some t
  match session.registry.lookup? name, below with
  | none, _ => return none
  | some _, none => return some (.named name args)
  | some definition, some below =>
    match definition.expand? args with
    | none => return some (.named name args)
    | some expanded =>
      let binder ← freshVar 0
      let body ← normalizeWith (below ((key, binder) :: expanding)) expanded
      some <$> closeExpansion expanding key binder body

/-- What becomes of a reference, with so many more expansions allowed below it. -/
def normalizeRef : Nat → Expanding → String → List Ty → StateM Session (Option Ty)
  | 0 => normalizeRefStep none
  | allowed + 1 => normalizeRefStep (some (normalizeRef allowed))

def normalize (t : Ty) : StateM Session Ty := normalizeWith (normalizeRef expansionLimit []) t

end Registry

end RowTypes
