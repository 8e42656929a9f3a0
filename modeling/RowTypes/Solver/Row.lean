import RowTypes.Solver.Relate
import RowTypes.Text.Names

/-!
# Relating records

Two records are unified by unifying the fields they share and then their rows: an open record
takes in the fields that only the other one has, and two open records get a common new row for
what neither names.  Two closed records must have the same fields.

Subtyping of records is by width: every field of the wider type has to be there, with a type that
unifies, and more fields may be.  An open record grows the fields it lacks through its row.
-/

namespace RowTypes

namespace RecordTy

/-- The row of a record under a substitution, if the record is open then. -/
def rowUnder (s : Subst) (r : RecordTy) : Option TyVar :=
  match r.row with
  | none => none
  | some v =>
    match s.apply (.var v) with
    | .var w => some w
    | .record _ row => row
    | _ => some v

/-- Whether a substitution gives the row of a record fields. -/
def rowGrows (s : Subst) (r : RecordTy) : Bool :=
  match r.row with
  | none => false
  | some v => (s.apply (.var v)).record?.isSome

/-- Some fields of a record, under a substitution. -/
def pick (s : Subst) (r : RecordTy) (names : List String) : List (String × Ty) :=
  Table.ofList (names.filterMap fun name => (r.field? name).map fun t => (name, s.apply t))

/-- The types of the fields that two records share, in the order of the names. -/
def sharedFields (a b : RecordTy) : List (Ty × Ty) :=
  (Text.Names.inter a.names b.names).filterMap fun name => do
    let x ← a.field? name
    let y ← b.field? name
    pure (x, y)

end RecordTy

namespace Relate

/-- Binds a row to a record of fields with another row behind them. -/
def extendRow (ctx : Context) (s : Subst) (row : TyVar) (fields : List (String × Ty))
    (behind : Option TyVar) : Relate Subst := do
  let bound ← bindVar ctx row (.record fields behind)
  pure (bound.after s)

/-- The complaint about records whose fields do not fit. Fields that a record lacks are
reported if it is closed; two records that are open with one row lack what the other has. -/
def fieldMismatch (ctx : Context) (s : Subst) (a b : RecordTy) (onlyA onlyB : List String) :
    Diagnostic :=
  let missing := if (a.rowUnder s).isSome then [] else onlyB
  let extra := if (b.rowUnder s).isSome then [] else onlyA
  let (missing, extra) :=
    if missing.isEmpty && extra.isEmpty then (onlyB, onlyA) else (missing, extra)
  ⟨.recordFieldMismatch b.toTy.render a.toTy.render missing extra, ctx.span⟩

/-- Unifies the rows of two records whose shared fields are unified. -/
def unifyRows (ctx : Context) (s : Subst) (a b : RecordTy) (onlyA onlyB : List String) :
    Relate Subst :=
  match a.rowUnder s, b.rowUnder s with
  | none, none =>
    if onlyA.isEmpty && onlyB.isEmpty then pure s
    else throw (fieldMismatch ctx s a b onlyA onlyB)
  | some row, none =>
    if onlyA.isEmpty then extendRow ctx s row (b.pick s onlyB) none
    else throw (fieldMismatch ctx s a b onlyA onlyB)
  | none, some row =>
    if onlyB.isEmpty then extendRow ctx s row (a.pick s onlyA) none
    else throw (fieldMismatch ctx s a b onlyA onlyB)
  | some rowA, some rowB =>
    if rowA.id = rowB.id then
      if onlyA.isEmpty && onlyB.isEmpty then pure s
      else throw (fieldMismatch ctx s a b onlyA onlyB)
    else do
      let behind ← fresh (min rowA.level rowB.level)
      let s ← extendRow ctx s rowA (b.pick s onlyB) (some behind)
      extendRow ctx s rowB (a.pick s onlyA) (some behind)

/-- Unifies two records. Where unifying the shared fields gave one of the rows fields, the
records are unified anew under what was found. -/
def unifyRecords (ctx : Context) (unify : Relation) (a b : RecordTy) : Relate Subst := do
  let s ← thread unify (a.sharedFields b) .empty
  if a.rowGrows s || b.rowGrows s then
    let next ← unify (s.apply a.toTy) (s.apply b.toTy)
    pure (next.after s)
  else
    unifyRows ctx s a b (Text.Names.diff a.names b.names) (Text.Names.diff b.names a.names)

/-- The complaint that a type cannot be used in place of another. -/
def subtypeFailure (ctx : Context) (sub super : Ty) (reason : String) : Diagnostic :=
  ⟨.subtypeFailure sub.render super.render reason, ctx.span⟩

/-- Unifies the fields of a record with those of a wider one, as far as they are there. -/
def unifyWidth (ctx : Context) (unify : Relation) (sub super : RecordTy) :
    List (String × Ty) → Subst → Relate Subst
  | [], s => pure s
  | (name, t) :: fs, s =>
    match sub.field? name with
    | none => unifyWidth ctx unify sub super fs s
    | some u => do
      let next ← orElseThrow (unify (s.apply u) (s.apply t)) fun e =>
        subtypeFailure ctx sub.toTy super.toTy ("field '" ++ name ++ "': " ++ e.message)
      unifyWidth ctx unify sub super fs (next.after s)

def subtypeRecords (ctx : Context) (unify : Relation) (sub super : RecordTy) : Relate Subst := do
  let s ← unifyWidth ctx unify sub super super.fields .empty
  let missing := super.names.filter fun name => (sub.field? name).isNone
  if missing.isEmpty then pure s
  else
    match sub.rowUnder s with
    | none =>
      throw (subtypeFailure ctx sub.toTy super.toTy
        ("missing fields " ++ Text.commas (missing.map Cause.tick)))
    | some row => do
      let behind ← fresh row.level
      extendRow ctx s row (super.pick s missing) (some behind)

end Relate

end RowTypes
