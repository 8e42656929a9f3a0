import RowTypes.Solver.Unify

/-!
# Spreading records

A record expression that spreads other records has the fields of all of them, overlaid with its
own.  Fields that come more than once must unify.
-/

namespace RowTypes

namespace Relate

/-- The complaint that something else than a record is spread. -/
def notRecord (ctx : Context) (t : Ty) : Diagnostic :=
  ⟨.typeMismatch "record" t.render "only records can be spread", ctx.span⟩

/-- The first type, through names and recursive types, whose constructor shows. -/
def head (ctx : Context) (t : Ty) : Relate Ty := do
  needs (ctx.registry.head? t).isSome
  match ctx.registry.head? t with
  | some (.named name args) => expand ctx name args
  | some t => pure t
  -- The search goes on for ever, and nothing comes after it.
  | none => throw (tooDeep ctx t t)

/-- Makes a type a record: an unknown becomes an open one. -/
def recordShape (ctx : Context) (t : Ty) : Relate Subst := do
  match ← head ctx t with
  | .record .. => pure .empty
  | .var v => do
    let row ← fresh v.level
    bindVar ctx v (.record [] (some row))
  | t => throw (notRecord ctx t)

/-- The record that is spread; an unknown has no fields that are known. -/
def spreadRecord (ctx : Context) (t : Ty) : Relate RecordTy := do
  match ← head ctx t with
  | .record fs row => pure ⟨fs, row⟩
  | .var v => pure ⟨[], some v⟩
  | t => throw (notRecord ctx t)

/-- What spreading has collected: the fields, and the substitution found so far. -/
structure Merging where
  fields : Table String Ty := []
  subst : Subst := {}

/-- Lays fields over those collected. A field that is there already must unify, and is replaced
only if asked to. -/
def overlay (ctx : Context) (unify : Relation) (replace : Bool) :
    List (String × Ty) → Merging → Relate Merging
  | [], m => pure m
  | (name, t) :: fs, m => do
    let t := m.subst.apply t
    let m ← match Table.get? name m.fields with
      | none => pure { m with fields := Table.insert name t m.fields }
      | some existing => do
        let existing := m.subst.apply existing
        let next ← orElseThrow (unify existing t) fun _ =>
          ⟨.mergeConflict name existing.render t.render, ctx.span⟩
        pure {
          fields := if replace then Table.insert name t m.fields else m.fields
          subst := next.after m.subst }
    overlay ctx unify replace fs m

/-- Lays spread records over each other, from left to right. -/
def overlaySpreads (ctx : Context) (unify : Relation) : List Ty → Merging → Relate Merging
  | [], m => pure m
  | t :: ts, m => do
    let r ← spreadRecord ctx (m.subst.apply t)
    let m ← overlay ctx unify false r.fields m
    overlaySpreads ctx unify ts m

/-- Makes a type the record of spread records and explicit fields. The record is open. -/
def merge (ctx : Context) (unify : Relation) (result : Ty) (spreads : List Ty)
    (explicit : RecordTy) : Relate Subst := do
  let m ← overlaySpreads ctx unify spreads {}
  let m ← overlay ctx unify true explicit.fields m
  let row ← fresh 0
  let merged := m.subst.apply (.record m.fields (some row))
  let next ← unify (m.subst.apply result) merged
  pure (next.after m.subst)

end Relate

end RowTypes
