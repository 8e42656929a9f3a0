import RowTypes.Proofs.Alternatives
import RowTypes.Proofs.Coinduction
import RowTypes.Proofs.Renaming
import RowTypes.Proofs.StableTypes

/-!
# Types whose unions and recursive types are sealed

Replacing unknowns does little harm where it cannot reach into the parts of a type that are read as
a whole.  Two such parts are the unions, which are built anew from their replaced alternatives and
may lose some, and the recursive types, whose binders may have the number of an unknown of what is
put inside.  A type is sealed if neither happens: in each union, and in each recursive type apart
from its own binder, no unknown occurs free.

Sealed types are closed under what unification does to ground types: taking apart, expanding a
reference to a sealed definition, unfolding.
-/

namespace RowTypes

namespace Ty

/-- The free unknowns of the type satisfy a predicate, but none is free in a union or a recursive
type.  Records are closed and references go to definitions.  Unions are in normal form, and there
are no intersections. -/
inductive Sealed (r : Registry) : (Int → Prop) → Ty → Prop where
  | var {P : Int → Prop} {v : TyVar} : P v.id → Sealed r P (.var v)
  | prim {P : Int → Prop} (name : String) : Sealed r P (.prim name)
  | lit {P : Int → Prop} (value : String) : Sealed r P (.lit value)
  | fn {P : Int → Prop} {p q : Ty} : Sealed r P p → Sealed r P q → Sealed r P (.fn p q)
  | record {P : Int → Prop} {fs : List (String × Ty)} : Table.Ascending fs →
      (∀ f ∈ fs, Sealed r P f.2) → Sealed r P (.record fs none)
  | tuple {P : Int → Prop} {ts : List Ty} : (∀ t ∈ ts, Sealed r P t) → Sealed r P (.tuple ts)
  | union {P : Int → Prop} {ts : List Ty} : unionOf ts = .union ts →
      (∀ t ∈ ts, Sealed r (fun _ => False) t) → Sealed r P (.union ts)
  | named {P : Int → Prop} {name : String} {ts : List Ty} {d : Definition} :
      r.lookup? name = some d → ts.length = d.params.length → (∀ t ∈ ts, Sealed r P t) →
      Sealed r P (.named name ts)
  | mu {P : Int → Prop} {v : TyVar} {t : Ty} : Sealed r (fun id => id = v.id) t →
      Sealed r P (.mu v t)

end Ty

namespace Registry

/-- In every definition, the unions and the recursive types are sealed, and the free unknowns are
the parameters. -/
def Sealed (r : Registry) : Prop :=
  ∀ entry ∈ r.definitions, entry.2.body.Sealed r fun id => ∃ v ∈ entry.2.params, v.id = id

end Registry

namespace Ty

variable {r : Registry} {P Q : Int → Prop} {s : Subst} {t : Ty}

theorem Sealed.mono (h : t.Sealed r P) (hPQ : ∀ id, P id → Q id) : t.Sealed r Q := by
  induction h generalizing Q with
  | var hv => exact .var (hPQ _ hv)
  | prim name => exact .prim name
  | lit value => exact .lit value
  | fn _ _ ihp ihq => exact .fn (ihp hPQ) (ihq hPQ)
  | record hasc _ ih => exact .record hasc fun f hf => ih f hf hPQ
  | tuple _ ih => exact .tuple fun t ht => ih t ht hPQ
  | union hnorm hts _ => exact .union hnorm hts
  | named hd hlen _ ih => exact .named hd hlen fun t ht => ih t ht hPQ
  | mu ht _ => exact .mu ht

theorem Sealed.rooted (h : t.Sealed r P) : t.Rooted (fun _ => False) P := by
  induction h with
  | var hv => exact .var hv
  | prim name => exact .prim name
  | lit value => exact .lit value
  | fn _ _ ihp ihq => exact .fn ihp ihq
  | record _ _ ih => exact .record ih nofun
  | tuple _ ih => exact .tuple ih
  | union _ _ ih => exact .union fun t ht => (ih t ht).mono nofun nofun
  | named _ _ _ ih => exact .named ih
  | mu _ ih => exact .mu (ih.mono (fun _ => .inl) nofun)

theorem Sealed.sorted (h : t.Sealed r P) : t.Sorted := by
  induction h with
  | var _ => exact .var _
  | prim name => exact .prim name
  | lit value => exact .lit value
  | fn _ _ ihp ihq => exact .fn ihp ihq
  | record hasc _ ih => exact .record none hasc ih
  | tuple _ ih => exact .tuple ih
  | union _ _ ih => exact .union ih
  | named _ _ _ ih => exact .named _ ih
  | mu _ ih => exact .mu _ ih

theorem Sealed.ne_var (h : t.Sealed r fun _ => False) (w : TyVar) : t ≠ .var w := by
  rintro rfl
  cases h with
  | var h => exact h

theorem Sealed.stable (h : t.Sealed r P) : t.Stable := by
  induction h with
  | var _ => exact .var _
  | prim name => exact .prim name
  | lit value => exact .lit value
  | fn _ _ ihp ihq => exact .fn ihp ihq
  | record _ _ ih => exact .record _ ih
  | tuple _ ih => exact .tuple ih
  | union hnorm _ ih => exact .union hnorm ih
  | named _ _ _ ih => exact .named _ ih
  | mu _ ih => exact .mu _ ih

/-- Where no free unknown is bound, a type stays as it is. -/
theorem Sealed.apply_of_unbound (h : t.Sealed r P) (hs : ∀ id, P id → s.get? id = none) :
    s.apply t = t :=
  h.stable.apply_eq_self fun id hid => hs id ((h.rooted.of_mentions hid).resolve_right not_false)

/-- Replacing all free unknowns by sealed types leaves a sealed type. -/
theorem Sealed.apply (h : t.Sealed r P)
    (hs : ∀ id, P id → ∃ u, s.get? id = some u ∧ u.Sealed r Q) : (s.apply t).Sealed r Q := by
  induction h with
  | @var _ v hv =>
      obtain ⟨u, hu, hsealed⟩ := hs _ hv
      rw [Subst.apply_var, hu]
      exact hsealed
  | prim name => rw [Subst.apply_prim]; exact .prim name
  | lit value => rw [Subst.apply_lit]; exact .lit value
  | fn _ _ ihp ihq => rw [Subst.apply_fn]; exact .fn (ihp hs) (ihq hs)
  | record hasc _ ih =>
      rw [Subst.apply_closed]
      exact .record (hasc.map s.apply) (List.forall_mem_map.2 fun f hf => ih f hf hs)
  | tuple _ ih =>
      rw [Subst.apply_tuple]
      exact .tuple (List.forall_mem_map.2 fun t ht => ih t ht hs)
  | union hnorm hts _ =>
      have hwhole : Sealed r (fun _ => False) (.union _) := .union hnorm hts
      rw [hwhole.apply_of_unbound nofun]
      exact .union hnorm hts
  | named hd hlen _ ih =>
      rw [Subst.apply_named]
      exact .named hd (by simpa using hlen) (List.forall_mem_map.2 fun t ht => ih t ht hs)
  | mu ht _ =>
      have hwhole : Sealed r (fun _ => False) (.mu _ _) := .mu ht
      rw [hwhole.apply_of_unbound nofun]
      exact .mu ht

theorem Sealed.unfold {v : TyVar} (h : (Ty.mu v t).Sealed r P) : (Ty.unfold v t).Sealed r P := by
  cases h with
  | mu ht =>
      refine ht.apply fun id hid => ⟨.mu v t, ?_, .mu ht⟩
      rw [Subst.get?_single, if_pos hid, Subst.held_of_ne fun _ h => by cases h]

theorem Sealed.of_fn {p q : Ty} (h : (Ty.fn p q).Sealed r P) : p.Sealed r P ∧ q.Sealed r P := by
  cases h; constructor <;> assumption

theorem Sealed.of_named {name : String} {ts : List Ty} (h : (Ty.named name ts).Sealed r P) :
    (∃ d, r.lookup? name = some d ∧ ts.length = d.params.length) ∧ ∀ t ∈ ts, t.Sealed r P := by
  cases h with
  | named hd hlen hts => exact ⟨⟨_, hd, hlen⟩, hts⟩

end Ty

namespace Registry

variable {r : Registry} {P : Int → Prop} {name : String} {ts : List Ty} {t : Ty}

/-- With one argument for each parameter, a reference stands for the body with the arguments put
in. -/
theorem expand?_of_lookup? {d : Definition} (hd : r.lookup? name = some d)
    (hlen : ts.length = d.params.length) :
    r.expand? name ts = some ((Subst.ofList (d.params.zip ts)).apply d.body) := by
  rw [expand?, hd]
  exact if_pos hlen

/-- What stands for the parameters of a definition, where no argument is an unknown. -/
theorem exists_arg {params : List TyVar} {id : Int} (hlen : ts.length = params.length)
    (hts : ∀ t ∈ ts, ∀ w : TyVar, t ≠ .var w) (hid : ∃ v ∈ params, v.id = id) :
    ∃ u, (Subst.ofList (params.zip ts)).get? id = some u ∧ u ∈ ts := by
  cases hu : (Subst.ofList (params.zip ts)).get? id with
  | some u =>
      obtain ⟨b, hb, -, rfl⟩ := Subst.mem_of_get?_ofList hu
      exact ⟨b.2, rfl, (List.of_mem_zip hb).2⟩
  | none =>
      obtain ⟨v, hv, rfl⟩ := hid
      obtain ⟨i, hi, rfl⟩ := List.getElem_of_mem hv
      have hmem : (params[i], ts[i]) ∈ params.zip ts :=
        List.mem_iff_getElem.2 ⟨i, by simp [hlen, hi], by simp⟩
      refine absurd rfl (Subst.ne_of_get?_ofList (fun b hb w hw => ?_) hu _ hmem)
      exact hts _ (List.of_mem_zip hb).2 w hw

/-- A reference to a sealed definition can be expanded, to a sealed type. -/
theorem Sealed.exists_expand? (hr : r.Sealed) (h : (Ty.named name ts).Sealed r fun _ => False) :
    ∃ t, r.expand? name ts = some t ∧ t.Sealed r fun _ => False := by
  obtain ⟨⟨d, hd, hlen⟩, hts⟩ := h.of_named
  refine ⟨_, expand?_of_lookup? hd hlen, (hr _ (Table.mem_of_get? hd)).apply fun id hid => ?_⟩
  obtain ⟨u, hu, hmem⟩ := exists_arg hlen (fun t ht => (hts t ht).ne_var) hid
  exact ⟨u, hu, hts u hmem⟩

theorem Sealed.hereditary (hr : r.Sealed) : r.Hereditary fun t => t.Sealed r fun _ => False where
  ground h := h.rooted
  fn h := h.of_fn
  record h := by cases h; assumption
  tuple h := by cases h; assumption
  union h := by cases h; assumption
  inter h := by cases h
  named h := h.of_named.2
  expand h ht := by
    obtain ⟨u, hu, hsealed⟩ := hr.exists_expand? h
    rw [hu] at ht
    cases ht
    exact hsealed
  unfold h := h.unfold

end Registry

end RowTypes
