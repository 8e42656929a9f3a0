import RowTypes.Proofs.BuiltTypes
import RowTypes.Proofs.Inhabitants
import RowTypes.Proofs.RecordUnification
import RowTypes.Proofs.StructuralTypes

/-!
# Substituting in structural types

A run of unification finds its substitution bit by bit, and what a type becomes under the first bits
is not what it becomes in the end: unions are built anew each time, and alternatives that were apart
may meet later.  What can be relied on is that a substitution `S` that extends another one, `s`,
gives the same form to a type with and without `s` applied first.  So what is shown of a type on the
way, under whatever extends what was found until then, holds of it in the end.

A union may lose alternatives, but it gains some only if one of its alternatives is an unknown that
is bound to a union.  Types in which that does not happen are guarded.
-/

namespace RowTypes

open Ty

variable {row : Int → Prop} {S s next : Subst} {a b t u : Ty} {ts us : List Ty} {f : Form}

namespace Subst

/-- Unknowns are bound to structural types, and rows to records. -/
structure Structural (row : Int → Prop) (S : Subst) : Prop where
  ok : ∀ id u, S.get? id = some u → u.Structural row
  rows : S.RowsToRecords row

/-- What stands behind the fields of a record under a substitution. -/
def behind (S : Subst) : Option TyVar → RecordTy
  | none => ⟨[], none⟩
  | some v =>
    match S.get? v.id with
    | some (.record gs rest) => ⟨gs, rest⟩
    | _ => ⟨[], some v⟩

theorem behind_of_free {v : TyVar} (h : S.get? v.id = none) : S.behind (some v) = ⟨[], some v⟩ := by
  rw [behind, h]

theorem behind_of_bound {v : TyVar} {gs : List (String × Ty)} {rest : Option TyVar}
    (h : S.get? v.id = some (.record gs rest)) : S.behind (some v) = ⟨gs, rest⟩ := by
  rw [behind, h]

/-- A record under a substitution: its fields, and what stands behind them. -/
def recordUnder (S : Subst) (r : RecordTy) : RecordTy :=
  ⟨Table.underlay (r.fields.map fun f => (f.1, S.apply f.2)) (S.behind r.row).fields,
    (S.behind r.row).row⟩

theorem apply_toTy (hS : S.RowsToRecords row) (r : RecordTy) (hr : ∀ v, r.row = some v → row v.id) :
    S.apply r.toTy = (S.recordUnder r).toTy := by
  obtain ⟨fs, rest⟩ := r
  cases rest with
  | none => exact apply_closed S fs
  | some v =>
      show S.apply (.record fs (some v)) = (S.recordUnder ⟨fs, some v⟩).toTy
      rw [recordUnder]
      cases hv : S.get? v.id with
      | none =>
          rw [apply_open_unbound hv, behind_of_free hv]
          rfl
      | some u =>
          obtain ⟨gs, rest, rfl⟩ := hS v.id u (hr v rfl) hv
          rw [apply_open_bound hv, behind_of_bound hv]
          rfl

theorem field?_recordUnder (S : Subst) (r : RecordTy) (name : String) :
    (S.recordUnder r).field? name =
      ((r.field? name).map S.apply).or ((S.behind r.row).field? name) := by
  rw [RecordTy.field?, recordUnder, Table.get?_underlay, Table.get?_map]
  rfl

theorem formAt_recordUnder (S : Subst) (r : RecordTy) (name : String) :
    (S.recordUnder r).formAt name =
      ((r.field? name).map fun t => (S.apply t).form).or ((S.behind r.row).formAt name) := by
  rw [RecordTy.formAt, field?_recordUnder, RecordTy.formAt]
  cases r.field? name <;> rfl

/-- What stands behind a row depends on its number. -/
theorem behind_congr {v w : Option TyVar} (h : v.map TyVar.id = w.map TyVar.id) :
    (S.behind v).rowId = (S.behind w).rowId ∧ (S.behind v).fields = (S.behind w).fields := by
  cases v with
  | none =>
      cases w with
      | none => exact ⟨rfl, rfl⟩
      | some w => cases h
  | some v =>
      cases w with
      | none => cases h
      | some w =>
          have hid : v.id = w.id := Option.some.inj h
          rw [behind, behind, hid]
          split
          · exact ⟨rfl, rfl⟩
          · exact ⟨h, rfl⟩

theorem structural_behind (hS : S.Structural row) {v : Option TyVar}
    (hv : ∀ w, v = some w → row w.id) : (S.behind v).toTy.Structural row := by
  cases v with
  | none => exact .record .nil (fun _ h => by cases h) fun _ h => by cases h
  | some w =>
      cases hw : S.get? w.id with
      | none =>
          rw [behind_of_free hw]
          exact .record .nil (fun _ h => by cases h) hv
      | some u =>
          obtain ⟨gs, rest, rfl⟩ := hS.rows w.id u (hv w rfl) hw
          rw [behind_of_bound hw]
          exact hS.ok _ _ hw

/-- The row of a record that does not grow is free, since only records stand for rows. -/
theorem Structural.rowFree (hS : S.Structural row) {r : RecordTy} (hr : r.toTy.Structural row)
    (hgrows : ¬ r.rowGrows S = true) : Relate.RowFree S r := by
  refine Relate.rowFree_of_cases (fun v hv => ?_) hgrows
  cases hget : S.get? v.id with
  | none => exact .inl rfl
  | some u =>
      obtain ⟨gs, rest, rfl⟩ := hS.rows v.id u ((kinded_record.1 hr.kinded).2 v hv) hget
      exact .inr ⟨gs, rest, rfl⟩

end Subst

namespace Ty

/-- A substitution to structural types keeps types structural. -/
theorem Structural.apply (hS : S.Structural row) (h : t.Structural row) :
    (S.apply t).Structural row := by
  induction h with
  | @var v hv =>
      rw [Subst.apply_var]
      cases hget : S.get? v.id with
      | none => exact .var hv
      | some u => exact hS.ok _ _ hget
  | prim name =>
      rw [Subst.apply_prim]
      exact .prim name
  | lit value =>
      rw [Subst.apply_lit]
      exact .lit value
  | fn _ _ ihp ihr =>
      rw [Subst.apply_fn]
      exact .fn ihp ihr
  | @record fs rest hasc _ hrow ih =>
      show (S.apply (RecordTy.toTy ⟨fs, rest⟩)).Structural row
      rw [Subst.apply_toTy hS.rows _ hrow]
      cases Subst.structural_behind hS hrow with
      | record _ hgs hrest =>
          refine .record (hasc.map S.apply).underlay (fun f hf => ?_) hrest
          rcases Table.mem_underlay hf with hf | hf
          · obtain ⟨g, hg, rfl⟩ := List.mem_map.1 hf
            exact ih g hg
          · exact hgs f hf
  | tuple _ ih =>
      rw [Subst.apply_tuple]
      exact .tuple (List.forall_mem_map.2 ih)
  | @union ts hlen hts hflat hdistinct ih =>
      cases hS' : S.isEmpty with
      | true =>
          rw [Subst.apply_of_isEmpty hS']
          exact .union hlen hts hflat hdistinct
      | false =>
          rw [Subst.apply_union hS']
          refine structural_unionOf (fun hnil => ?_) (List.forall_mem_map.2 ih)
          rw [List.map_eq_nil_iff.1 hnil] at hlen
          cases hlen

/-- Structural types are without recursion and as they are built. -/
theorem Structural.plain (h : t.Structural row) : t.Plain := by
  induction h with
  | var _ => exact .var _
  | prim name => exact .prim name
  | lit value => exact .lit value
  | fn _ _ ihp ihr => exact .fn ihp ihr
  | record hasc _ _ ih => exact .record _ hasc ih
  | tuple _ ih => exact .tuple ih
  | union hlen _ hflat hdistinct ih => exact .union (by omega) ih hflat hdistinct

theorem Structural.stable (h : t.Structural row) : t.Stable := h.plain.stable

end Ty

/-- The structural types as a class of types that solving keeps to. -/
def structuralTypes (row : Int → Prop) : Grammar where
  isRow := row
  Ok := Ty.Structural row
  kinded h := h.kinded
  prim := .prim
  fn h := by
    cases h with
    | fn hp hr => exact ⟨hp, hr⟩
  field h := by
    cases h with
    | record _ hfs _ => exact hfs
  record := .record
  tuple := ⟨fun h => by
    cases h with
    | tuple hts => exact hts, .tuple⟩
  union h := by
    cases h with
    | union _ hts _ _ => exact hts
  inter h := by cases h
  named h := by cases h
  unionOf := structural_unionOf
  unfold h := by cases h
  apply hok hrows ht := ht.apply ⟨hok, hrows⟩

theorem structural_expands (row : Int → Prop) (r : Registry) : (structuralTypes row).Expands r :=
  fun _ h => by cases (show Ty.Structural row _ from h)

theorem Grammar.Solved.structural {Q : Int → Prop} (h : (structuralTypes row).Solved Q s) :
    s.Structural row := ⟨h.ok, h.rows⟩

namespace Ty

/-! ## What a union becomes -/

/-- There is to choose from a type under a substitution what there is from its alternatives. -/
theorem mem_options_apply (hS : S.Structural row) (h : t.Structural row) :
    f ∈ (S.apply t).options ↔ ∃ α ∈ t.alternatives, f ∈ (S.apply α).options := by
  by_cases hu : ∃ ts, t = .union ts
  · obtain ⟨ts, rfl⟩ := hu
    rw [h.alternatives_union]
    cases hS' : S.isEmpty with
    | false =>
        cases h with
        | union _ hts _ _ =>
            rw [Subst.apply_union hS',
              mem_options_unionOf (List.forall_mem_map.2 fun t ht => (hts t ht).apply hS)]
            simp
    | true =>
        rw [Subst.apply_of_isEmpty hS', h.mem_options_union]
        refine exists_congr fun t => and_congr_right fun ht => ?_
        cases h with
        | union _ _ hflat _ =>
            rw [Subst.apply_of_isEmpty hS', options_of_ne_union (hflat t ht)]
            exact eq_comm
  · rw [alternatives_eq_self fun ts heq => hu ⟨ts, heq⟩]
    simp

/-- There is to choose from a union under a substitution what an alternative of it becomes. -/
theorem form_mem_options_apply (hS : S.Structural row) (hus : (Ty.union us).Structural row)
    (hu : u ∈ us) (hne : ∀ vs, S.apply u ≠ .union vs) :
    (S.apply u).form ∈ (S.apply (.union us)).options := by
  rw [mem_options_apply hS hus, hus.alternatives_union]
  exact ⟨u, hu, by rw [options_of_ne_union hne]; rfl⟩

/-- What the form of a record under a substitution consists of. -/
theorem form_apply_record {ra rb : RecordTy} (hS : S.Structural row) (ha : ra.toTy.Structural row)
    (hb : rb.toTy.Structural row) :
    (S.apply ra.toTy).form = (S.apply rb.toTy).form ↔
      (S.behind ra.row).rowId = (S.behind rb.row).rowId ∧
        ∀ name, ((ra.field? name).map fun t => (S.apply t).form).or
            ((S.behind ra.row).formAt name) =
          ((rb.field? name).map fun t => (S.apply t).form).or ((S.behind rb.row).formAt name) := by
  have hrows : ∀ {r : RecordTy}, r.toTy.Structural row → ∀ v, r.row = some v → row v.id :=
    fun hr => (kinded_record.1 hr.kinded).2
  have htame : ∀ {r : RecordTy}, r.toTy.Structural row → (S.recordUnder r).toTy.Tame := fun hr =>
    Subst.apply_toTy hS.rows _ (hrows hr) ▸ (hr.apply hS).tame
  rw [Subst.apply_toTy hS.rows _ (hrows ha), Subst.apply_toTy hS.rows _ (hrows hb),
    RecordTy.form_toTy (htame ha) (htame hb)]
  simp only [Subst.formAt_recordUnder]
  exact Iff.rfl

/-- Types of one form become types of one form. -/
theorem form_apply_congr (hS : S.Structural row) (ha : a.Structural row) (hb : b.Structural row)
    (h : a.form = b.form) : (S.apply a).form = (S.apply b).form :=
  form_congr (ha.apply hS).tame (hb.apply hS).tame
    (equiv_apply (fun id u hu => (hS.ok id u hu).plain) ha.plain hb.plain
      ((form_eq_iff ha.tame hb.tame).1 h))

/-- What there is to choose from in the end depends on what there was to choose from before. -/
theorem mem_options_apply_of (hS : S.Structural row) (ht : t.Structural row)
    (hts : ∀ u ∈ ts, u.Structural row) (h : ∀ g, g ∈ t.options ↔ ∃ u ∈ ts, g ∈ u.options) :
    f ∈ (S.apply t).options ↔ ∃ u ∈ ts, f ∈ (S.apply u).options := by
  have hsame : ∀ α β : Ty, α.Structural row → β.Structural row → α.form = β.form →
      (S.apply α).options = (S.apply β).options := fun α β hα hβ hform =>
    (form_eq_iff_options (hα.apply hS) (hβ.apply hS)).1 (form_apply_congr hS hα hβ hform)
  rw [mem_options_apply hS ht]
  constructor
  · rintro ⟨α, hα, hf⟩
    obtain ⟨u, hu, β, hβ, hform⟩ := (h α.form).1 ⟨α, hα, rfl⟩
    refine ⟨u, hu, (mem_options_apply hS (hts u hu)).2 ⟨β, hβ, ?_⟩⟩
    rwa [hsame β α ((hts u hu).alternatives β hβ) (ht.alternatives α hα) hform]
  · rintro ⟨u, hu, hf⟩
    obtain ⟨β, hβ, hf⟩ := (mem_options_apply hS (hts u hu)).1 hf
    obtain ⟨α, hα, hform⟩ := (h β.form).2 ⟨u, hu, β, hβ, rfl⟩
    refine ⟨α, hα, ?_⟩
    rwa [hsame α β (ht.alternatives α hα) ((hts u hu).alternatives β hβ) hform]

end Ty

/-! ## Extensions -/

namespace Subst

/-- A substitution extends another one: what that binds is bound, to what it is bound to there once
more is known. -/
def Extends (S s : Subst) : Prop :=
  ∀ id u, s.get? id = some u → ∃ w, S.get? id = some w ∧ w.form = (S.apply u).form

/-- What stands behind a row is no more than what stands behind it in the end. -/
theorem Extends.behind (hS : S.Structural row) (hs : s.Structural row) (h : S.Extends s)
    {v : Option TyVar} (hv : ∀ w, v = some w → row w.id) :
    (S.behind v).rowId = (S.behind (s.behind v).row).rowId ∧ ∀ name, (S.behind v).formAt name =
      (((s.behind v).field? name).map fun t => (S.apply t).form).or
        ((S.behind (s.behind v).row).formAt name) := by
  cases v with
  | none => exact ⟨rfl, fun _ => rfl⟩
  | some w =>
      cases hw : s.get? w.id with
      | none =>
          rw [s.behind_of_free hw]
          exact ⟨rfl, fun _ => rfl⟩
      | some u =>
          obtain ⟨gs, rest, rfl⟩ := hs.rows w.id u (hv w rfl) hw
          obtain ⟨u, hu, hform⟩ := h w.id _ hw
          obtain ⟨gs', rest', rfl⟩ := hS.rows w.id u (hv w rfl) hu
          have hrecord := hs.ok _ _ hw
          have hrows := (kinded_record.1 hrecord.kinded).2
          rw [s.behind_of_bound hw, S.behind_of_bound hu]
          have happly := S.apply_toTy hS.rows ⟨gs, rest⟩ hrows
          rw [show Ty.record gs rest = RecordTy.toTy ⟨gs, rest⟩ from rfl, happly] at hform
          obtain ⟨hid, hfields⟩ := (RecordTy.form_toTy (r := ⟨gs', rest'⟩) (hS.ok _ _ hu).tame
            (happly ▸ (hrecord.apply hS).tame)).1 hform
          exact ⟨hid, fun name => (hfields name).trans (formAt_recordUnder S _ name)⟩

/-- Applying what is extended first makes no difference. -/
theorem Extends.form_apply_apply (hS : S.Structural row) (hs : s.Structural row) (h : S.Extends s)
    (ht : t.Structural row) : (S.apply (s.apply t)).form = (S.apply t).form := by
  induction ht with
  | @var v hv =>
      rw [apply_var s]
      cases hget : s.get? v.id with
      | none => rfl
      | some u =>
          obtain ⟨w, hw, hform⟩ := h v.id u hget
          rw [apply_var S, hw]
          exact hform.symm
  | prim name => rw [apply_prim]
  | lit value => rw [apply_lit]
  | fn hp hr ihp ihr =>
      rw [apply_fn, apply_fn, apply_fn, form_fn ((hp.apply hs).apply hS).tame
        ((hr.apply hs).apply hS).tame (hp.apply hS).tame (hr.apply hS).tame]
      exact ⟨ihp, ihr⟩
  | @record fs rest hasc hfs hrow ih =>
      have hr : (RecordTy.toTy ⟨fs, rest⟩).Structural row := .record hasc hfs hrow
      obtain ⟨hid, hfields⟩ := h.behind hS hs hrow
      show (S.apply (s.apply (RecordTy.toTy ⟨fs, rest⟩))).form =
        (S.apply (RecordTy.toTy ⟨fs, rest⟩)).form
      have happly := s.apply_toTy hs.rows ⟨fs, rest⟩ hrow
      rw [happly, form_apply_record hS (happly ▸ hr.apply hs) hr]
      refine ⟨hid.symm, fun name => ?_⟩
      rw [field?_recordUnder, hfields]
      show _ = ((Table.get? name fs).map _).or _
      show ((((Table.get? name fs).map s.apply).or _).map _).or _ = _
      cases hf : Table.get? name fs with
      | none => rfl
      | some t => exact congrArg some (ih _ (Table.mem_of_get? hf))
  | @tuple ts hts ih =>
      rw [apply_tuple, apply_tuple, apply_tuple, List.map_map]
      exact form_tuple_map (fun t ht => (((hts t ht).apply hs).apply hS).tame)
        (fun t ht => ((hts t ht).apply hS).tame) ih
  | @union ts hlen hts hflat hdistinct ih =>
      have ht := Structural.union hlen hts hflat hdistinct
      have hoptions : ∀ g, g ∈ (s.apply (.union ts)).options ↔
          ∃ u ∈ ts.map s.apply, g ∈ u.options := fun g => by
        rw [mem_options_apply hs ht, ht.alternatives_union]
        simp
      rw [form_eq_iff_options ((ht.apply hs).apply hS) (ht.apply hS)]
      ext f
      rw [mem_options_apply_of hS (ht.apply hs) (List.forall_mem_map.2 fun t ht => (hts t ht).apply hs)
        hoptions, mem_options_apply hS ht, ht.alternatives_union]
      simp only [List.mem_map, exists_exists_and_eq_and]
      refine exists_congr fun t => and_congr_right fun ht => ?_
      rw [(form_eq_iff_options (((hts t ht).apply hs).apply hS) ((hts t ht).apply hS)).1 (ih t ht)]

/-- A substitution in solved form extends itself. -/
theorem extends_self {Q : Int → Prop} (h : (structuralTypes row).Solved Q s) : s.Extends s :=
  fun id u hu => ⟨u, hu, by rw [(h.structural.ok id u hu).stable.apply_eq_self (h.fixed hu)]⟩

/-- What extends a composition extends both parts. -/
theorem Extends.of_after {Q Q' : Int → Prop} (hS : S.Structural row)
    (hs : (structuralTypes row).Solved Q s) (hnext : (structuralTypes row).Solved Q' next)
    (hapart : next.Apart s) (h : S.Extends (next.after s)) : S.Extends next ∧ S.Extends s := by
  have hget := hs.get?_after hnext (Grammar.clears_of_apart hapart)
  have hextends : S.Extends next := fun id u hu =>
    h id u (by rw [hget, hapart id (.inl ⟨u, hu⟩)]; exact hu)
  refine ⟨hextends, fun id t ht => ?_⟩
  obtain ⟨w, hw, hform⟩ := h id (next.apply t) (by rw [hget, ht])
  exact ⟨w, hw, hform.trans
    (hextends.form_apply_apply hS hnext.structural (hs.structural.ok id t ht))⟩

end Subst

/-! ## Unions that keep their alternatives apart -/

/-- No alternative of a union is an unknown that is bound to a union. -/
inductive Ty.Firm (S : Subst) : Ty → Prop where
  | var (v : TyVar) : Firm S (.var v)
  | prim (name : String) : Firm S (.prim name)
  | lit (value : String) : Firm S (.lit value)
  | fn {p r : Ty} : Firm S p → Firm S r → Firm S (.fn p r)
  | record {fs : List (String × Ty)} (rest : Option TyVar) : (∀ f ∈ fs, Firm S f.2) →
      Firm S (.record fs rest)
  | tuple {ts : List Ty} : (∀ t ∈ ts, Firm S t) → Firm S (.tuple ts)
  | union {ts : List Ty} : (∀ t ∈ ts, Firm S t) →
      (∀ v, .var v ∈ ts → ∀ us, S.get? v.id ≠ some (.union us)) → Firm S (.union ts)

/-- What a substitution binds anything to is firm. -/
def Subst.Firm (s S : Subst) : Prop := ∀ id u, s.get? id = some u → u.Firm S

namespace Ty

theorem Firm.alternatives (h : t.Firm S) (ht : t.Structural row) :
    ∀ α ∈ t.alternatives, α.Firm S := by
  cases h with
  | union hts _ =>
      rw [ht.alternatives_union]
      exact hts
  | _ => exact List.forall_mem_singleton.2 (by constructor <;> assumption)

/-- A type other than a union and an unknown does not become one. -/
theorem Structural.apply_shape (h : t.Structural row) (hvar : ∀ v, t ≠ .var v)
    (hunion : ∀ us, t ≠ .union us) :
    (∀ v, S.apply t ≠ .var v) ∧ ∀ us, S.apply t ≠ .union us := by
  cases h with
  | @var v => exact absurd rfl (hvar v)
  | prim name => simp [Subst.apply_prim]
  | lit value => simp [Subst.apply_lit]
  | fn => simp [Subst.apply_fn]
  | @record fs rest =>
      obtain ⟨gs, rest', heq⟩ := S.exists_record_eq_apply fs rest
      simp [heq]
  | tuple => simp [Subst.apply_tuple]
  | @union ts => exact absurd rfl (hunion ts)

/-- The alternatives of a firm union do not become unions. -/
theorem Firm.apply_ne_union (h : (Ty.union ts).Firm S) (hts : (Ty.union ts).Structural row)
    (ht : t ∈ ts) : ∀ us, S.apply t ≠ .union us := by
  cases hts with
  | union _ hts hflat _ =>
      by_cases hvar : ∃ v, t = .var v
      · obtain ⟨v, rfl⟩ := hvar
        cases h with
        | union _ hvars =>
            intro us heq
            rw [Subst.apply_var] at heq
            cases hv : S.get? v.id with
            | none =>
                rw [hv] at heq
                cases heq
            | some u =>
                rw [hv] at heq
                exact hvars v ht us (hv.trans (congrArg some heq))
      · exact ((hts t ht).apply_shape (fun v heq => hvar ⟨v, heq⟩) (hflat t ht)).2

theorem firm_unionOf (hts : ∀ t ∈ ts, t.Structural row) (h : ∀ t ∈ ts, t.Firm S)
    (hvars : ∀ v, .var v ∈ ts → ∀ us, S.get? v.id ≠ some (.union us)) : (unionOf ts).Firm S := by
  have hall : ∀ α ∈ distinct (alternativesAll ts), α.Firm S ∧
      ∀ v, α = .var v → ∀ us, S.get? v.id ≠ some (.union us) := by
    intro α hα
    obtain ⟨t, ht, hα⟩ := mem_alternativesAll.1 (mem_distinct hα)
    refine ⟨(h t ht).alternatives (hts t ht) α hα, ?_⟩
    rintro v rfl
    by_cases hunion : ∃ us, t = .union us
    · obtain ⟨us, rfl⟩ := hunion
      rw [(hts _ ht).alternatives_union] at hα
      cases h _ ht with
      | union _ hvars => exact hvars v hα
    · rw [alternatives_eq_self fun us heq => hunion ⟨us, heq⟩, List.mem_singleton] at hα
      exact hvars v (hα ▸ ht)
  unfold unionOf unionOf?
  split
  · exact .union (fun _ h => by cases h) fun _ h => by cases h
  · next α heq => exact (hall α (by rw [heq]; exact List.mem_singleton.2 rfl)).1
  · exact .union (fun α hα => (hall α hα).1) fun v hv => (hall _ hv).2 v rfl

theorem firm_behind (hs : s.Firm S) (rest : Option TyVar) :
    ∀ f ∈ (s.behind rest).fields, f.2.Firm S := by
  intro f hf
  cases rest with
  | none => cases hf
  | some v =>
      rw [Subst.behind] at hf
      split at hf
      · next gs rest hv =>
          cases hs _ _ hv with
          | record _ hgs => exact hgs f hf
      · cases hf

/-- An unknown that is not bound to a union in the end is not bound to one that is. -/
theorem not_bound_of_extends {v w : TyVar} (hS : S.Structural row) (hext : S.Extends s)
    (hw : ∀ us, S.get? w.id ≠ some (.union us)) (h : s.apply (.var w) = .var v) :
    ∀ us, S.get? v.id ≠ some (.union us) := by
  intro us hv
  rw [Subst.apply_var] at h
  cases hget : s.get? w.id with
  | none =>
      rw [hget] at h
      cases h
      exact hw us hv
  | some u =>
      rw [hget] at h
      obtain rfl : u = .var v := h
      obtain ⟨x, hx, hform⟩ := hext w.id _ hget
      rw [Subst.apply_var, hv] at hform
      have hxs := (hS.ok _ _ hx).tame
      have husS := (hS.ok _ _ hv).tame
      obtain ⟨xs, rfl, -⟩ := exists_union_of_equiv ((form_eq_iff husS hxs).1 hform.symm)
      exact hw xs hx

/-- Applying what is extended keeps a type firm, if what is bound there is firm. -/
theorem Firm.apply (hS : S.Structural row) (hs : s.Structural row) (hext : S.Extends s)
    (hrange : s.Firm S) (ht : t.Structural row) (h : t.Firm S) : (s.apply t).Firm S := by
  induction ht with
  | @var v _ =>
      rw [Subst.apply_var]
      cases hv : s.get? v.id with
      | none => exact .var v
      | some u => exact hrange _ _ hv
  | prim name =>
      rw [Subst.apply_prim]
      exact .prim name
  | lit value =>
      rw [Subst.apply_lit]
      exact .lit value
  | fn _ _ ihp ihr =>
      rw [Subst.apply_fn]
      cases h with
      | fn hp hr => exact .fn (ihp hp) (ihr hr)
  | @record fs rest hasc hfs hrow ih =>
      cases h with
      | record _ hfirm =>
          show (s.apply (RecordTy.toTy ⟨fs, rest⟩)).Firm S
          rw [Subst.apply_toTy hs.rows _ hrow]
          refine .record _ fun f hf => ?_
          rcases Table.mem_underlay hf with hf | hf
          · obtain ⟨g, hg, rfl⟩ := List.mem_map.1 hf
            exact ih g hg (hfirm g hg)
          · exact firm_behind hrange rest f hf
  | tuple _ ih =>
      rw [Subst.apply_tuple]
      cases h with
      | tuple hts => exact .tuple (List.forall_mem_map.2 fun t ht => ih t ht (hts t ht))
  | @union ts hlen hts hflat hdistinct ih =>
      cases h with
      | union hfirm hvars =>
          cases hs' : s.isEmpty with
          | true =>
              rw [Subst.apply_of_isEmpty hs']
              exact .union hfirm hvars
          | false =>
              rw [Subst.apply_union hs']
              refine firm_unionOf (List.forall_mem_map.2 fun t ht => (hts t ht).apply hs)
                (List.forall_mem_map.2 fun t ht => ih t ht (hfirm t ht)) fun v hv us hus => ?_
              obtain ⟨t, ht, heq⟩ := List.mem_map.1 hv
              by_cases hvar : ∃ w, t = .var w
              · obtain ⟨w, rfl⟩ := hvar
                exact not_bound_of_extends hS hext (hvars w ht) heq us hus
              · exact ((hts t ht).apply_shape (fun w h => hvar ⟨w, h⟩) (hflat t ht)).1 v heq

end Ty

/-- A composition is firm if both parts are. -/
theorem Subst.Firm.after {Q Q' : Int → Prop} {next : Subst} (h : s.Firm S) (hfirm : next.Firm S)
    (hS : S.Structural row) (hs : (structuralTypes row).Solved Q s)
    (hnext : (structuralTypes row).Solved Q' next) (hapart : next.Apart s)
    (hext : S.Extends next) : (next.after s).Firm S := by
  intro id u hu
  rw [hs.get?_after hnext (Grammar.clears_of_apart hapart)] at hu
  cases hget : s.get? id with
  | none =>
      rw [hget] at hu
      exact hfirm id u hu
  | some t =>
      rw [hget] at hu
      cases hu
      exact (h id t hget).apply hS hnext.structural hext hfirm (hs.structural.ok id t hget)

end RowTypes
