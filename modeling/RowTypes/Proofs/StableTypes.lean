import RowTypes.Proofs.Substitutions

/-!
# Types that building anew leaves as they are

What a substitution does to a type is not a matter of the type's free unknowns alone.  Every
substitution but the empty one builds unions and intersections anew, whether or not it replaces
anything in them, and a union that is not as it is built comes out changed.

In a stable type each union and each intersection is what its constructor makes of its parts, and
there only the free unknowns count: two substitutions that bind them alike do the same to the type.
So a stable type none of whose free unknowns is bound stays as it is.  The classes of types that
solving is about are all stable, each for a reason of its own.
-/

namespace RowTypes

namespace Ty

/-- Types whose unions and intersections are what is built from their parts. -/
inductive Stable : Ty → Prop where
  | var (v : TyVar) : Stable (.var v)
  | prim (name : String) : Stable (.prim name)
  | lit (value : String) : Stable (.lit value)
  | fn {p r : Ty} : Stable p → Stable r → Stable (.fn p r)
  | record {fs : List (String × Ty)} (row : Option TyVar) : (∀ f ∈ fs, Stable f.2) →
      Stable (.record fs row)
  | tuple {ts : List Ty} : (∀ t ∈ ts, Stable t) → Stable (.tuple ts)
  | union {ts : List Ty} : unionOf ts = .union ts → (∀ t ∈ ts, Stable t) → Stable (.union ts)
  | inter {ts : List Ty} : interOf ts = .inter ts → (∀ t ∈ ts, Stable t) → Stable (.inter ts)
  | named (name : String) {ts : List Ty} : (∀ t ∈ ts, Stable t) → Stable (.named name ts)
  | mu (v : TyVar) {t : Ty} : Stable t → Stable (.mu v t)

end Ty

namespace Subst

variable {ts : List Ty}

/-- A union that is as it is built is built anew by the empty substitution, too. -/
theorem apply_union_of_built (s : Subst) (h : Ty.unionOf ts = .union ts) :
    s.apply (.union ts) = Ty.unionOf (ts.map s.apply) := by
  cases hs : s.isEmpty with
  | true => rw [apply_of_isEmpty hs, map_apply_of_isEmpty hs, h]
  | false => exact apply_union hs ts

theorem apply_inter_of_built (s : Subst) (h : Ty.interOf ts = .inter ts) :
    s.apply (.inter ts) = Ty.interOf (ts.map s.apply) := by
  cases hs : s.isEmpty with
  | true => rw [apply_of_isEmpty hs, map_apply_of_isEmpty hs, h]
  | false => exact apply_inter hs ts

end Subst

namespace Ty.Stable

open Subst

variable {t : Ty} {s s' : Subst}

/-- Substitutions that bind the free unknowns of a stable type alike do the same to it. -/
theorem apply_congr (h : t.Stable) (hs : ∀ id, t.Mentions id → s.get? id = s'.get? id) :
    s.apply t = s'.apply t := by
  induction h generalizing s s' with
  | var v => rw [apply_var, apply_var, hs v.id (mentions_var.2 rfl)]
  | prim name => rw [apply_prim, apply_prim]
  | lit value => rw [apply_lit, apply_lit]
  | fn _ _ ihp ihr =>
      rw [apply_fn, apply_fn, ihp fun id hid => hs id (mentions_fn.2 (.inl hid)),
        ihr fun id hid => hs id (mentions_fn.2 (.inr hid))]
  | @record fs row _ ih =>
      have hfs : (fs.map fun f => (f.1, s.apply f.2)) = fs.map fun f => (f.1, s'.apply f.2) :=
        List.map_congr_left fun f hf => congrArg (Prod.mk f.1) (ih f hf fun id hid =>
          hs id (mentions_record.2 (.inl ⟨f, hf, hid⟩)))
      cases row with
      | none => rw [apply_closed, apply_closed, hfs]
      | some v =>
          rw [apply_open, apply_open, hfs, hs v.id (mentions_record.2 (.inr ⟨v, rfl, rfl⟩))]
  | tuple _ ih =>
      rw [apply_tuple, apply_tuple, List.map_congr_left fun t ht => ih t ht fun id hid =>
        hs id (mentions_tuple.2 ⟨t, ht, hid⟩)]
  | union hbuilt _ ih =>
      rw [apply_union_of_built s hbuilt, apply_union_of_built s' hbuilt,
        List.map_congr_left fun t ht => ih t ht fun id hid => hs id (mentions_union.2 ⟨t, ht, hid⟩)]
  | inter hbuilt _ ih =>
      rw [apply_inter_of_built s hbuilt, apply_inter_of_built s' hbuilt,
        List.map_congr_left fun t ht => ih t ht fun id hid => hs id (mentions_inter.2 ⟨t, ht, hid⟩)]
  | named name _ ih =>
      rw [apply_named, apply_named, List.map_congr_left fun t ht => ih t ht fun id hid =>
        hs id (mentions_named.2 ⟨t, ht, hid⟩)]
  | mu v _ ih =>
      rw [apply_mu, apply_mu, ih fun id hid => ?_]
      -- Under the binder neither substitution binds it, so there they agree in any case.
      rw [get?_erase, get?_erase]
      split
      · rfl
      · next hne => exact hs id (mentions_mu.2 ⟨Ne.symm hne, hid⟩)

/-- A stable type none of whose free unknowns is bound stays as it is. -/
theorem apply_eq_self (h : t.Stable) (hs : ∀ id, t.Mentions id → s.get? id = none) :
    s.apply t = t :=
  (h.apply_congr fun id hid => (hs id hid).trans (get?_empty id).symm).trans (apply_empty t)

end Ty.Stable

end RowTypes
