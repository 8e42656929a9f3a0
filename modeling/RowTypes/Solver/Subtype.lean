import RowTypes.Solver.Unify

/-!
# Subtyping

A type is a subtype of another if its values can be used where values of the other are expected:
records by width, functions the other way round in their parameter, string literals as strings,
each alternative of a union, some member of an intersection.  Types without a rule of their own
are unified.
-/

namespace RowTypes

namespace Relate

/-- Relates types of which one has to be expanded or unfolded first, the smaller one first. -/
def subtypeIndirect (ctx : Context) (subtype : Relation) (sub super : Ty) : Relate Subst := do
  if ← assume sub super then return .empty
  match sub, super with
  | .named name args, super => do subtype (← expand ctx name args) super
  | .mu v t, super => subtype (.unfold v t) super
  | sub, .named name args => do subtype sub (← expand ctx name args)
  | sub, .mu v t => subtype sub (.unfold v t)
  | sub, super => subtype sub super

/-- The type is a subtype of some type, by the first attempt that succeeds. -/
def subtypeSome (ctx : Context) (sub super : Ty) (reason : String)
    (found : StateM Progress (Option Subst)) : Relate Subst := do
  match ← found with
  | some s => pure s
  | none => throw (subtypeFailure ctx sub super reason)

/-- Unifies types that have no rule of their own. -/
def subtypeUnified (ctx : Context) (unify : Relation) (sub super : Ty) : Relate Subst :=
  orElseThrow (unify sub super) fun e => subtypeFailure ctx sub super e.message

/-- Relates two types whose constructors show. -/
def subtypeShapes (ctx : Context) (unify subtype : Relation) (sub super : Ty) : Relate Subst :=
  match sub, super with
  | .union alts, super => thread subtype (alts.map fun t => (t, super)) .empty
  | sub, .union alts =>
    subtypeSome ctx sub (.union alts) "no alternative of the union accepts it"
      (firstOf (subtype sub) alts)
  | .inter ms, super =>
    subtypeSome ctx (.inter ms) super "no member of the intersection is a subtype"
      (firstOf (fun m => subtype m super) ms)
  | sub, .inter ms => thread subtype (ms.map fun m => (sub, m)) .empty
  | .record fs row, .record gs row' => subtypeRecords ctx unify ⟨fs, row⟩ ⟨gs, row'⟩
  | .fn p r, .fn p' r' => do
    let params ← subtype p' p
    let results ← subtype (params.apply r) (params.apply r')
    pure (results.after params)
  | .tuple as, .tuple bs =>
    if as.length = bs.length then thread subtype (as.zip bs) .empty
    else subtypeUnified ctx unify (.tuple as) (.tuple bs)
  | .lit _, .prim "String" => pure .empty
  | sub, super => subtypeUnified ctx unify sub super

/-- One step of subtyping, with the relations for the types further down. -/
def subtypeStep (ctx : Context) (unify subtype : Relation) (sub super : Ty) : Relate Subst :=
  if sub.equiv super then pure .empty
  else
    match sub, super with
    | .var v, super => unify (.var v) super
    | sub, .var v => unify sub (.var v)
    | sub, super =>
      if isIndirect sub || isIndirect super then subtypeIndirect ctx subtype sub super
      else subtypeShapes ctx unify subtype sub super

/-- Makes one type a subtype of another, at most the given number of steps deep. -/
def subtype (ctx : Context) : Nat → Relation
  | 0, a, b => exceed ctx a b
  | n + 1, a, b => subtypeStep ctx (unify ctx n) (subtype ctx n) a b

end Relate

end RowTypes
