import RowTypes.Proofs.CoreTypes

/-!
# Valuations

A valuation gives every number a type, for its unknown, and a record, for its row.  A core type
then stands for a type, which is read up to equivalence: two core types have the same form under a
valuation exactly if the valuation unifies them.

A valuation absorbs a substitution if each binding holds under it, and then applying the
substitution to a type does not change the form of the type.  That is all that solving has to keep
track of: a substitution that solves equations is one that is absorbed by exactly the valuations
which satisfy them.

Rows need a second notion.  The fields that a row brings are overruled by those a record names
itself, so under a valuation whose row repeats a field the record can be read without looking at
the whole row, and equations can hold that no solving would find.  A valuation respects a type if
none of its records is overruling its row.
-/

namespace RowTypes

/-- What unknowns and rows stand for. -/
structure Valuation where
  ty : Int → Ty
  row : Int → RecordTy
  tame_ty : ∀ id, (ty id).Tame
  tame_row : ∀ id, (row id).toTy.Tame

/-- The form of a record's field. -/
def RecordTy.formAt (r : RecordTy) (name : String) : Option Form := (r.field? name).map Ty.form

/-- The number of a record's row. -/
def RecordTy.rowId (r : RecordTy) : Option Int := r.row.map TyVar.id

theorem RecordTy.form_toTy {r q : RecordTy} (hr : r.toTy.Tame) (hq : q.toTy.Tame) :
    r.toTy.form = q.toTy.form ↔ r.rowId = q.rowId ∧ ∀ name, r.formAt name = q.formAt name :=
  Ty.form_record hr hq

namespace Valuation

variable {κ : Sorts} (θ : Valuation)

/-- The record that stands behind the fields of a record. -/
def rest : Option TyVar → RecordTy
  | none => {}
  | some v => θ.row v.id

mutual

/-- The type that a core type stands for. -/
def under : Ty → Ty
  | .var v => θ.ty v.id
  | .fn p r => .fn (under p) (under r)
  | .record fs row => .record (Table.underlay (underFields fs) (θ.rest row).fields) (θ.rest row).row
  | .tuple ts => .tuple (underAll ts)
  | t => t

/-- The types that several types stand for. -/
def underAll : List Ty → List Ty
  | [] => []
  | t :: ts => under t :: underAll ts

/-- The fields that fields stand for. -/
def underFields : List (String × Ty) → List (String × Ty)
  | [] => []
  | (name, t) :: fs => (name, under t) :: underFields fs

end

/-- What a type stands for, up to equivalence. -/
def form (t : Ty) : Form := (θ.under t).form

/-- The record that a record stands for. -/
def record (r : RecordTy) : RecordTy :=
  ⟨Table.underlay (θ.underFields r.fields) (θ.rest r.row).fields, (θ.rest r.row).row⟩

theorem underAll_eq_map (ts : List Ty) : θ.underAll ts = ts.map θ.under := by
  induction ts with
  | nil => rfl
  | cons t ts ih => rw [underAll, ih, List.map_cons]

theorem underFields_eq_map (fs : List (String × Ty)) :
    θ.underFields fs = fs.map fun f => (f.1, θ.under f.2) := by
  induction fs with
  | nil => rfl
  | cons f fs ih => rw [underFields, ih, List.map_cons]

theorem under_record (fs : List (String × Ty)) (row : Option TyVar) :
    θ.under (.record fs row) = (θ.record ⟨fs, row⟩).toTy := rfl

theorem tame_rest (row : Option TyVar) : (θ.rest row).toTy.Tame := by
  cases row with
  | none => exact .record none List.Pairwise.nil (by intro f hf; cases hf)
  | some v => exact θ.tame_row v.id

theorem tame_under {t : Ty} (ht : t.Core κ) : (θ.under t).Tame := by
  induction ht with
  | var _ => exact θ.tame_ty _
  | prim name => exact .prim name
  | fn _ _ ihp ihr => exact .fn ihp ihr
  | tuple _ ih =>
      rw [under, underAll_eq_map]
      refine .tuple fun t ht => ?_
      obtain ⟨u, hu, rfl⟩ := List.mem_map.1 ht
      exact ih u hu
  | @record fs row _ hasc _ _ ih =>
      rw [under, underFields_eq_map]
      refine .record _ (hasc.map θ.under).underlay fun f hf => ?_
      rcases Table.mem_underlay hf with hf | hf
      · obtain ⟨g, hg, rfl⟩ := List.mem_map.1 hf
        exact ih g hg
      · cases θ.tame_rest row with
        | record _ _ htame => exact htame f hf

theorem formAt_record (r : RecordTy) (name : String) :
    (θ.record r).formAt name = ((r.field? name).map θ.form).or ((θ.rest r.row).formAt name) := by
  rw [RecordTy.formAt, RecordTy.field?, record, Table.get?_underlay, underFields_eq_map,
    Table.get?_map, RecordTy.formAt, RecordTy.field?, RecordTy.field?]
  cases Table.get? name r.fields <;> rfl

theorem rowId_record (r : RecordTy) : (θ.record r).rowId = (θ.rest r.row).rowId := rfl

/-! ## Forms, constructor by constructor -/

section Forms

variable {θ}

theorem form_fn {p r p' r' : Ty} (hp : p.Core κ) (hr : r.Core κ) (hp' : p'.Core κ)
    (hr' : r'.Core κ) :
    θ.form (.fn p r) = θ.form (.fn p' r') ↔ θ.form p = θ.form p' ∧ θ.form r = θ.form r' :=
  Ty.form_fn (θ.tame_under hp) (θ.tame_under hr) (θ.tame_under hp') (θ.tame_under hr')

theorem form_tuple {as bs : List Ty} (has : ∀ a ∈ as, a.Core κ) (hbs : ∀ b ∈ bs, b.Core κ) :
    θ.form (.tuple as) = θ.form (.tuple bs) ↔ as.map θ.form = bs.map θ.form := by
  have htame : ∀ {ts : List Ty}, (∀ t ∈ ts, t.Core κ) → ∀ t ∈ ts.map θ.under, t.Tame :=
    fun hts => List.forall_mem_map.2 fun t ht => θ.tame_under (hts t ht)
  unfold form
  rw [under, under, underAll_eq_map, underAll_eq_map, Ty.form_tuple (htame has) (htame hbs),
    List.map_map, List.map_map]
  rfl

/-- Records have the same form if their rows end alike and each name has the same form in both,
in the fields or behind them. -/
theorem form_record {fs gs : List (String × Ty)} {row row' : Option TyVar}
    (hf : (Ty.record fs row).Core κ) (hg : (Ty.record gs row').Core κ) :
    θ.form (.record fs row) = θ.form (.record gs row') ↔
      (θ.rest row).rowId = (θ.rest row').rowId ∧
        ∀ name, ((Table.get? name fs).map θ.form).or ((θ.rest row).formAt name) =
          ((Table.get? name gs).map θ.form).or ((θ.rest row').formAt name) := by
  have h := RecordTy.form_toTy (r := θ.record ⟨fs, row⟩) (q := θ.record ⟨gs, row'⟩)
    (θ.tame_under hf) (θ.tame_under hg)
  simp only [formAt_record, rowId_record] at h
  exact h

/-- The form of a record is that of another one, of which it is known what stands behind each
name. -/
theorem form_eq_toTy {fs : List (String × Ty)} {row : Option TyVar} {r : RecordTy}
    (hf : (Ty.record fs row).Core κ) (hr : r.toTy.Tame) :
    θ.form (.record fs row) = r.toTy.form ↔
      (θ.rest row).rowId = r.rowId ∧
        ∀ name, ((Table.get? name fs).map θ.form).or ((θ.rest row).formAt name) =
          r.formAt name := by
  have h := RecordTy.form_toTy (r := θ.record ⟨fs, row⟩) (θ.tame_under hf) hr
  simp only [formAt_record, rowId_record] at h
  exact h

theorem form_eq_of_equiv {a : Ty} (ha : a.Core κ) :
    ∀ {b : Ty}, b.Core κ → a.equiv b = true → θ.form a = θ.form b := by
  induction ha with
  | @var v _ =>
      intro b _ h
      obtain ⟨w, rfl, hid⟩ := Ty.exists_var_of_equiv h
      show (θ.ty v.id).form = (θ.ty w.id).form
      rw [hid]
  | prim name =>
      intro b _ h
      rw [Ty.eq_prim_of_equiv h]
  | fn hp hr ihp ihr =>
      intro b hb h
      obtain ⟨p', r', rfl, h₁, h₂⟩ := Ty.exists_fn_of_equiv h
      cases hb with
      | fn hp' hr' => exact (form_fn hp hr hp' hr').2 ⟨ihp hp' h₁, ihr hr' h₂⟩
  | @tuple as has ih =>
      intro b hb h
      obtain ⟨bs, rfl, helems⟩ := Ty.exists_tuple_of_equiv h
      cases hb with
      | tuple hbs =>
          exact (form_tuple has hbs).2
            (Ty.map_eq_map_of_forall₂ helems fun a ha b hb => ih a ha (hbs b hb))
  | @record fs row hrec hasc hrow hfs ih =>
      intro b hb h
      obtain ⟨gs, row', rfl⟩ := Ty.exists_record_of_equiv h
      cases hb with
      | record _ hasc' hrow' hgs =>
          obtain ⟨hid, hall⟩ := (Ty.equiv_record hasc hasc').1 h
          have hrest : θ.rest row = θ.rest row' := by
            cases row <;> cases row' <;> simp_all [rest]
          refine (form_record (.record hrec hasc hrow hfs) (.record hrec hasc' hrow' hgs)).2
            ⟨by rw [hrest], fun name => ?_⟩
          rw [hrest, Ty.map_eq_map_of_rel (hall name) fun a b ha hb =>
            ih _ (Table.mem_of_get? ha) (hgs _ (Table.mem_of_get? hb))]

end Forms

/-! ## Absorbing a substitution -/

/-- Each binding of a substitution holds under the valuation. -/
def Absorbs (κ : Sorts) (s : Subst) : Prop :=
  ∀ id t, s.get? id = some t →
    (¬ κ.isRow id → θ.form t = (θ.ty id).form) ∧
      (κ.isRow id → θ.form t = (θ.row id).toTy.form)

section Absorption

variable {θ} {s next : Subst} {t : Ty}

theorem absorbs_empty : θ.Absorbs κ .empty := by
  intro id t h
  cases h

theorem get?_map_form {fs : List (String × Ty)} (name : String)
    (h : ∀ f ∈ fs, θ.form (s.apply f.2) = θ.form f.2) :
    (Table.get? name (fs.map fun f => (f.1, s.apply f.2))).map θ.form =
      (Table.get? name fs).map θ.form := by
  rw [Table.get?_map, Option.map_map]
  cases hf : Table.get? name fs with
  | none => rfl
  | some t => exact congrArg some (h _ (Table.mem_of_get? hf))

/-- A substitution that is absorbed does not change what a type stands for. -/
theorem Absorbs.form_apply (h : θ.Absorbs κ s) (hs : s.Core κ) (ht : t.Core κ) :
    θ.form (s.apply t) = θ.form t := by
  induction ht with
  | @var v hv =>
      rw [Subst.apply_var]
      cases hg : s.get? v.id with
      | none => rfl
      | some u => exact (h _ _ hg).1 hv
  | prim name => rw [Subst.apply_prim]
  | @fn p r hp hr ihp ihr =>
      rw [Subst.apply_fn]
      exact (form_fn (hs.apply hp) (hs.apply hr) hp hr).2 ⟨ihp, ihr⟩
  | @tuple ts hts ih =>
      have hcore := hs.apply (.tuple hts)
      rw [Subst.apply_tuple] at hcore ⊢
      cases hcore with
      | tuple hts' =>
          rw [form_tuple hts' hts, List.map_map]
          exact List.map_congr_left ih
  | @record fs row hrec hasc hrow hfs ih =>
      have hcore : (Ty.record fs row).Core κ := .record hrec hasc hrow hfs
      have hcore' := hs.apply hcore
      cases row with
      | none =>
          rw [Subst.apply_closed] at hcore' ⊢
          refine (form_record hcore' hcore).2 ⟨rfl, fun name => ?_⟩
          rw [get?_map_form name ih]
      | some row =>
          rcases hs.row_cases (hrow row rfl) with hfree | ⟨gs, rest, hbound⟩
          · rw [Subst.apply_open_unbound hfree] at hcore' ⊢
            refine (form_record hcore' hcore).2 ⟨rfl, fun name => ?_⟩
            rw [get?_map_form name ih]
          · -- What the row is bound to has, name by name, what stands behind the fields.
            rw [Subst.apply_open_bound hbound] at hcore' ⊢
            have habs := (h _ _ hbound).2 (hrow row rfl)
            obtain ⟨hid, hat⟩ := (form_eq_toTy (hs _ _ hbound).1 (θ.tame_row row.id)).1 habs
            refine (form_record hcore' hcore).2 ⟨hid, fun name => ?_⟩
            show _ = Option.or _ ((θ.row row.id).formAt name)
            rw [← hat name, ← get?_map_form name ih, Table.get?_underlay]
            cases Table.get? name (fs.map fun f => (f.1, s.apply f.2)) <;> rfl

theorem Absorbs.of_after (hs : s.Solved κ) (hn : next.Solved κ) (hapart : next.Apart s)
    (h : θ.Absorbs κ (next.after s)) : θ.Absorbs κ s ∧ θ.Absorbs κ next := by
  have hget := Subst.get?_after_apart hs hn hapart
  have hnext : θ.Absorbs κ next := by
    intro id t ht
    refine h id t ?_
    rw [hget, hapart id (.inl ⟨t, ht⟩)]
    exact ht
  refine ⟨fun id t ht => ?_, hnext⟩
  have := h id (next.apply t) (by rw [hget, ht])
  rwa [hnext.form_apply hn.core (hs.core _ _ ht).1] at this

theorem Absorbs.after (hs : s.Solved κ) (hn : next.Solved κ) (hapart : next.Apart s)
    (h : θ.Absorbs κ s) (hnext : θ.Absorbs κ next) : θ.Absorbs κ (next.after s) := by
  intro id t ht
  rw [Subst.get?_after_apart hs hn hapart] at ht
  cases hg : s.get? id with
  | none => rw [hg] at ht; exact hnext id t ht
  | some u =>
      rw [hg] at ht
      cases ht
      rw [hnext.form_apply hn.core (hs.core _ _ hg).1]
      exact h id u hg

end Absorption

/-! ## Respecting rows -/

/-- No record of the type names a field that its row stands for. -/
inductive Respects : Ty → Prop where
  | var (v : TyVar) : Respects (.var v)
  | prim (name : String) : Respects (.prim name)
  | fn {p r : Ty} : Respects p → Respects r → Respects (.fn p r)
  | tuple {ts : List Ty} : (∀ t ∈ ts, Respects t) → Respects (.tuple ts)
  | record {fs : List (String × Ty)} {row : Option TyVar} :
      (∀ name ∈ Table.keys fs, (θ.rest row).field? name = none) →
      (∀ f ∈ fs, Respects f.2) → Respects (.record fs row)

/-- The types that unknowns are bound to are respected. -/
def RespectsRange (s : Subst) : Prop := ∀ id t, s.get? id = some t → θ.Respects t

section Respect

variable {θ} {s next : Subst} {t : Ty}

theorem respectsRange_empty : θ.RespectsRange .empty := by
  intro id t h
  cases h

/-- Without records there is nothing to respect. -/
theorem respects_of_core (hκ : ¬ κ.records) (ht : t.Core κ) : θ.Respects t := by
  induction ht with
  | var _ => exact .var _
  | prim name => exact .prim name
  | fn _ _ ihp ihr => exact .fn ihp ihr
  | tuple _ ih => exact .tuple ih
  | record hrec _ _ _ _ => exact absurd hrec hκ

theorem Respects.field?_row {fs : List (String × Ty)} {v : TyVar} {name : String}
    (h : θ.Respects (.record fs (some v))) (ht : Table.get? name fs = some t) :
    (θ.row v.id).field? name = none := by
  cases h with
  | record hnames _ => exact hnames name (Table.get?_isSome.1 (by rw [ht]; rfl))

theorem formAt_eq_none {r : RecordTy} {name : String} :
    r.formAt name = none ↔ r.field? name = none := by
  rw [RecordTy.formAt, Option.map_eq_none_iff]

theorem Respects.apply (h : θ.Absorbs κ s) (hs : s.Core κ) (hrange : θ.RespectsRange s)
    (ht : t.Core κ) (hr : θ.Respects t) : θ.Respects (s.apply t) := by
  induction ht with
  | @var v _ =>
      rw [Subst.apply_var]
      cases hg : s.get? v.id with
      | none => exact .var v
      | some u => exact hrange _ _ hg
  | prim name => rw [Subst.apply_prim]; exact .prim name
  | fn _ _ ihp ihr =>
      rw [Subst.apply_fn]
      cases hr with
      | fn hp hr => exact .fn (ihp hp) (ihr hr)
  | tuple _ ih =>
      rw [Subst.apply_tuple]
      cases hr with
      | tuple hts =>
          refine .tuple fun t ht => ?_
          obtain ⟨u, hu, rfl⟩ := List.mem_map.1 ht
          exact ih u hu (hts u hu)
  | @record fs row hrec hasc hrow hfs ih =>
      cases hr with
      | record hnames hfields =>
          have hmap : ∀ f ∈ fs.map fun f => (f.1, s.apply f.2), θ.Respects f.2 := by
            intro f hf
            obtain ⟨g, hg, rfl⟩ := Subst.mem_map_fields hf
            exact ih g hg (hfields g hg)
          have hkeys := Table.keys_map s.apply fs
          cases row with
          | none => rw [Subst.apply_closed]; exact .record (by rw [hkeys]; exact hnames) hmap
          | some row =>
              rcases hs.row_cases (hrow row rfl) with hfree | ⟨gs, rest, hbound⟩
              · rw [Subst.apply_open_unbound hfree]
                exact .record (by rw [hkeys]; exact hnames) hmap
              · rw [Subst.apply_open_bound hbound]
                have habs := (h _ _ hbound).2 (hrow row rfl)
                obtain ⟨-, hat⟩ := (form_eq_toTy (hs _ _ hbound).1 (θ.tame_row row.id)).1 habs
                cases hrange _ _ hbound with
                | record hnames' hfields' =>
                    refine .record (fun name hname => ?_) fun f hf => ?_
                    · rw [← Table.get?_isSome, Table.get?_underlay] at hname
                      by_cases hgs : name ∈ Table.keys gs
                      · exact hnames' name hgs
                      · -- The name stands in the fields, so neither the row nor its rest has it.
                        have hnone : Table.get? name gs = none := by
                          rwa [← Option.not_isSome_iff_eq_none, Table.get?_isSome]
                        rw [hnone, Option.or_none, Table.get?_isSome, hkeys] at hname
                        have hrest := hat name
                        rw [hnone] at hrest
                        have hrow' := formAt_eq_none.2 (hnames name hname)
                        exact formAt_eq_none.1 (hrest.trans hrow')
                    · rcases Table.mem_underlay hf with hf | hf
                      · exact hmap f hf
                      · exact hfields' f hf

theorem RespectsRange.after (hs : s.Solved κ) (hn : next.Solved κ) (hapart : next.Apart s)
    (habs : θ.Absorbs κ next) (h : θ.RespectsRange s) (hnext : θ.RespectsRange next) :
    θ.RespectsRange (next.after s) := by
  intro id t ht
  rw [Subst.get?_after_apart hs hn hapart] at ht
  cases hg : s.get? id with
  | none => rw [hg] at ht; exact hnext id t ht
  | some u =>
      rw [hg] at ht
      cases ht
      exact Respects.apply habs hn.core hnext (hs.core _ _ hg).1 (h id u hg)

end Respect

/-! ## Heights

A type that mentions an unknown is at least as high as what the unknown stands for, and higher if
it is not that unknown itself.  A row counts with the fields it stands for, which is why the type
has to be respected: a field that is overruled could be of any height. -/

section Heights

variable {θ} {t : Ty} {id : Int}

theorem mem_record {fs : List (String × Ty)} {f : String × Ty} (row : Option TyVar)
    (hasc : Table.Ascending fs) (hf : f ∈ fs) :
    (f.1, θ.under f.2) ∈ (θ.record ⟨fs, row⟩).fields := by
  refine Table.mem_of_get? ?_
  rw [record, Table.get?_underlay, underFields_eq_map, Table.get?_map, Table.get?_of_mem hasc hf]
  rfl

theorem height_lt_record {fs : List (String × Ty)} {f : String × Ty} (row : Option TyVar)
    (hasc : Table.Ascending fs) (hf : f ∈ fs) :
    (θ.under f.2).height < (θ.under (.record fs row)).height := by
  rw [under_record]
  exact Ty.height_lt_record (mem_record (θ := θ) row hasc hf) _

theorem height_lt_tuple {ts : List Ty} (ht : t ∈ ts) :
    (θ.under t).height < (θ.under (.tuple ts)).height := by
  rw [under, underAll_eq_map]
  exact Ty.height_lt_tuple (List.mem_map_of_mem ht)

theorem height_lt_under (ht : t.Core κ) (hid : ¬ κ.isRow id) (h : t.Mentions id) :
    (∃ v, t = .var v) ∨ (θ.ty id).height < (θ.under t).height := by
  have weaken : ∀ {u : Ty}, u.Mentions id →
      (∃ v, u = .var v) ∨ (θ.ty id).height < (θ.under u).height →
      (θ.ty id).height ≤ (θ.under u).height := by
    rintro u hu (⟨v, rfl⟩ | hlt)
    · rw [← Ty.mentions_var.1 hu]
      exact Nat.le_refl _
    · exact Nat.le_of_lt hlt
  induction ht with
  | @var v _ => exact .inl ⟨v, rfl⟩
  | prim name => exact absurd h Ty.mentions_prim
  | fn _ _ ihp ihr =>
      refine .inr ?_
      rw [under, Ty.height]
      rcases Ty.mentions_fn.1 h with h | h
      · have := weaken h (ihp h)
        omega
      · have := weaken h (ihr h)
        omega
  | tuple _ ih =>
      obtain ⟨t, ht, h⟩ := Ty.mentions_tuple.1 h
      exact .inr (Nat.lt_of_le_of_lt (weaken h (ih t ht h)) (height_lt_tuple ht))
  | @record fs row _ hasc hrow _ ih =>
      rcases Ty.mentions_record.1 h with ⟨f, hf, h⟩ | ⟨v, hv, rfl⟩
      · exact .inr (Nat.lt_of_le_of_lt (weaken h (ih f hf h)) (height_lt_record row hasc hf))
      · exact absurd (hrow v hv) hid

theorem heightFields_lt_under (ht : t.Core κ) (hr : θ.Respects t) (hid : κ.isRow id)
    (h : t.Mentions id) : Ty.heightFields (θ.row id).fields < (θ.under t).height := by
  induction ht with
  | @var v hv => exact absurd ((Ty.mentions_var.1 h) ▸ hid) hv
  | prim name => exact absurd h Ty.mentions_prim
  | fn _ _ ihp ihr =>
      cases hr with
      | fn hp hr =>
          rw [under, Ty.height]
          rcases Ty.mentions_fn.1 h with h | h
          · have := ihp hp h
            omega
          · have := ihr hr h
            omega
  | tuple _ ih =>
      cases hr with
      | tuple hts =>
          obtain ⟨t, ht, h⟩ := Ty.mentions_tuple.1 h
          exact Nat.lt_trans (ih t ht (hts t ht) h) (height_lt_tuple ht)
  | @record fs row _ hasc hrow _ ih =>
      cases hr with
      | record hnames hfs =>
          rcases Ty.mentions_record.1 h with ⟨f, hf, h⟩ | ⟨v, rfl, rfl⟩
          · exact Nat.lt_trans (ih f hf (hfs f hf) h) (height_lt_record row hasc hf)
          · rw [under_record, RecordTy.toTy, Ty.height, Nat.lt_succ_iff]
            refine Ty.heightFields_le_iff.2 fun e he => ?_
            -- A field of the row is one of the record, because no field of the record hides it.
            have hget : (θ.row v.id).field? e.1 = some e.2 := by
              cases θ.tame_row v.id with
              | record _ hasc' _ => exact Table.get?_of_mem hasc' he
            have hfree : Table.get? e.1 (θ.underFields fs) = none := by
              rw [← Option.not_isSome_iff_eq_none, Table.get?_isSome, underFields_eq_map,
                Table.keys_map]
              intro hname
              have : (θ.row v.id).field? e.1 = none := hnames e.1 hname
              rw [hget] at this
              cases this
            refine Ty.height_le_heightFields (Table.mem_of_get? (k := e.1) ?_)
            rw [record, Table.get?_underlay, hfree]
            exact hget

end Heights

/-! ## Changing a valuation -/

/-- Two valuations agree on the numbers up to a bound. -/
def AgreesUpTo (n : Nat) (θ' : Valuation) : Prop :=
  ∀ id : Int, id ≤ n → θ'.ty id = θ.ty id ∧ θ'.row id = θ.row id

/-- The valuation where the row of a number stands for another record. -/
def withRow (id : Int) (r : RecordTy) (hr : r.toTy.Tame) : Valuation where
  ty := θ.ty
  row := fun j => if j = id then r else θ.row j
  tame_ty := θ.tame_ty
  tame_row := by
    intro j
    split
    · exact hr
    · exact θ.tame_row j

section Agreement

variable {θ} {θ' : Valuation} {n : Nat} {s : Subst} {t : Ty}

theorem AgreesUpTo.refl : θ.AgreesUpTo n θ := fun _ _ => ⟨rfl, rfl⟩

theorem AgreesUpTo.symm (h : θ.AgreesUpTo n θ') : θ'.AgreesUpTo n θ :=
  fun id hid => ⟨(h id hid).1.symm, (h id hid).2.symm⟩

theorem AgreesUpTo.trans {θ'' : Valuation} {m : Nat} (h : θ.AgreesUpTo n θ')
    (h' : θ'.AgreesUpTo m θ'') (hnm : n ≤ m) : θ.AgreesUpTo n θ'' := by
  intro id hid
  have hid' : id ≤ m := by omega
  rw [(h' id hid').1, (h' id hid').2]
  exact h id hid

theorem AgreesUpTo.under_eq (h : θ.AgreesUpTo n θ') (ht : t.Core κ)
    (hle : ∀ id, t.Mentions id → id ≤ n) : θ'.under t = θ.under t := by
  induction ht with
  | @var v _ => exact (h v.id (hle _ (Ty.mentions_var.2 rfl))).1
  | prim name => rfl
  | fn _ _ ihp ihr =>
      rw [under, under, ihp fun id hid => hle id (Ty.mentions_fn.2 (.inl hid)),
        ihr fun id hid => hle id (Ty.mentions_fn.2 (.inr hid))]
  | tuple _ ih =>
      rw [under, under, underAll_eq_map, underAll_eq_map]
      exact congrArg _ (List.map_congr_left fun t ht =>
        ih t ht fun id hid => hle id (Ty.mentions_tuple.2 ⟨t, ht, hid⟩))
  | @record fs row _ _ _ _ ih =>
      have hrest : θ'.rest row = θ.rest row := by
        cases row with
        | none => rfl
        | some v => exact (h v.id (hle _ (Ty.mentions_record.2 (.inr ⟨v, rfl, rfl⟩)))).2
      rw [under, under, hrest, underFields_eq_map, underFields_eq_map,
        List.map_congr_left fun f hf => by
          rw [ih f hf fun id hid => hle id (Ty.mentions_record.2 (.inl ⟨f, hf, hid⟩))]]

theorem AgreesUpTo.form_eq (h : θ.AgreesUpTo n θ') (ht : t.Core κ)
    (hle : ∀ id, t.Mentions id → id ≤ n) : θ'.form t = θ.form t := by
  rw [form, h.under_eq ht hle, form]

theorem AgreesUpTo.respects (h : θ.AgreesUpTo n θ') (ht : t.Core κ)
    (hle : ∀ id, t.Mentions id → id ≤ n) (hr : θ.Respects t) : θ'.Respects t := by
  induction ht with
  | var _ => exact .var _
  | prim name => exact .prim name
  | fn _ _ ihp ihr =>
      cases hr with
      | fn hp hr =>
          exact .fn (ihp (fun id hid => hle id (Ty.mentions_fn.2 (.inl hid))) hp)
            (ihr (fun id hid => hle id (Ty.mentions_fn.2 (.inr hid))) hr)
  | tuple _ ih =>
      cases hr with
      | tuple hts =>
          exact .tuple fun t ht =>
            ih t ht (fun id hid => hle id (Ty.mentions_tuple.2 ⟨t, ht, hid⟩)) (hts t ht)
  | @record fs row _ _ _ _ ih =>
      cases hr with
      | record hnames hfs =>
          have hrest : θ'.rest row = θ.rest row := by
            cases row with
            | none => rfl
            | some v => exact (h v.id (hle _ (Ty.mentions_record.2 (.inr ⟨v, rfl, rfl⟩)))).2
          refine .record (by rw [hrest]; exact hnames) fun f hf => ?_
          exact ih f hf (fun id hid => hle id (Ty.mentions_record.2 (.inl ⟨f, hf, hid⟩))) (hfs f hf)

theorem AgreesUpTo.map_form (h : θ.AgreesUpTo n θ') {fs : List (String × Ty)}
    (hfs : ∀ f ∈ fs, f.2.Core κ) (hle : ∀ f ∈ fs, ∀ id, f.2.Mentions id → id ≤ n)
    (name : String) : (Table.get? name fs).map θ'.form = (Table.get? name fs).map θ.form := by
  cases ht : Table.get? name fs with
  | none => rfl
  | some t =>
      have hmem := Table.mem_of_get? ht
      exact congrArg some (h.form_eq (hfs _ hmem) (hle _ hmem))

theorem AgreesUpTo.absorbs (h : θ.AgreesUpTo n θ') (hs : s.Core κ)
    (hle : ∀ id, s.Mentions id → id ≤ n) (habs : θ.Absorbs κ s) : θ'.Absorbs κ s := by
  intro id t ht
  obtain ⟨hty, hrow⟩ := h id (hle id (.inl ⟨t, ht⟩))
  rw [hty, hrow, h.form_eq (hs _ _ ht).1 fun j hj => hle j (.inr ⟨id, t, ht, hj⟩)]
  exact habs id t ht

theorem AgreesUpTo.respectsRange (h : θ.AgreesUpTo n θ') (hs : s.Core κ)
    (hle : ∀ id, s.Mentions id → id ≤ n) (hr : θ.RespectsRange s) : θ'.RespectsRange s :=
  fun id t ht => h.respects (hs _ _ ht).1 (fun j hj => hle j (.inr ⟨id, t, ht, hj⟩)) (hr id t ht)

theorem agreesUpTo_withRow {id : Int} {r : RecordTy} (hr : r.toTy.Tame) (hid : n < id) :
    θ.AgreesUpTo n (θ.withRow id r hr) := by
  intro j hj
  refine ⟨rfl, if_neg ?_⟩
  omega

end Agreement

end Valuation

/-! ## Substitutions as valuations -/

namespace RecordTy

variable {fs : List (String × Ty)} {row : TyVar} {bound : Option Ty}

theorem formAt_splice (fs : List (String × Ty)) (row v : TyVar) (bound : Option Ty)
    (name : String) : (splice fs row bound).formAt name =
      ((Table.get? name fs).map Ty.form).or ((splice [] v bound).formAt name) := by
  unfold splice formAt field?
  split
  · simp
  · simp
  · simp only [Table.get?_underlay, Table.get?_nil, Option.none_or]
    cases Table.get? name fs <;> simp
  · simp

theorem rowId_splice (fs : List (String × Ty)) {row v : TyVar} (h : row.id = v.id)
    (bound : Option Ty) : (splice fs row bound).rowId = (splice [] v bound).rowId := by
  unfold splice rowId
  split <;> simp [h]

theorem tame_splice (hasc : Table.Ascending fs) (hfs : ∀ f ∈ fs, f.2.Tame)
    (hbound : ∀ t, bound = some t → t.Tame) : (splice fs row bound).toTy.Tame := by
  refine .record _ (ascending_splice hasc) fun f hf => ?_
  obtain hf | ⟨more, rest, hb, hf⟩ := mem_fields_splice hf
  · exact hfs f hf
  · cases hbound _ hb with
    | record _ _ hmore => exact hmore f hf

end RecordTy

namespace Subst

open Classical in
/-- The valuation that gives every unknown what it is bound to, and itself if it is free.  What is
not tame does not count. -/
noncomputable def valuation (s : Subst) : Valuation where
  ty := fun id =>
    let t := (s.get? id).getD (.var ⟨id, 0⟩)
    if t.Tame then t else .unit
  row := fun id =>
    let r := RecordTy.splice [] ⟨id, 0⟩ (s.get? id)
    if r.toTy.Tame then r else {}
  tame_ty := by
    intro id
    dsimp only
    split
    · next h => exact h
    · exact .prim _
  tame_row := by
    intro id
    dsimp only
    split
    · next h => exact h
    · exact .record _ List.Pairwise.nil (by intro f hf; cases hf)

variable {κ : Sorts} {s : Subst} {t : Ty}

theorem ty_valuation {id : Int} (h : ∀ u, s.get? id = some u → u.Tame) :
    s.valuation.ty id = (s.get? id).getD (.var ⟨id, 0⟩) := by
  refine if_pos ?_
  cases hg : s.get? id with
  | none => exact .var _
  | some u => exact h u hg

theorem row_valuation {id : Int} (h : ∀ u, s.get? id = some u → u.Tame) :
    s.valuation.row id = RecordTy.splice [] ⟨id, 0⟩ (s.get? id) :=
  if_pos (RecordTy.tame_splice List.Pairwise.nil (by intro f hf; cases hf) h)

theorem tame_apply (ht : t.Core κ)
    (h : ∀ id u, t.Mentions id → s.get? id = some u → u.Tame) : (s.apply t).Tame := by
  induction ht with
  | @var v _ =>
      rw [apply_var]
      cases hg : s.get? v.id with
      | none => exact .var v
      | some u => exact h v.id u (Ty.mentions_var.2 rfl) hg
  | prim name => rw [apply_prim]; exact .prim name
  | fn _ _ ihp ihr =>
      rw [apply_fn]
      exact .fn (ihp fun id u hid => h id u (Ty.mentions_fn.2 (.inl hid)))
        (ihr fun id u hid => h id u (Ty.mentions_fn.2 (.inr hid)))
  | tuple _ ih =>
      rw [apply_tuple]
      refine .tuple fun t ht => ?_
      obtain ⟨u, hu, rfl⟩ := List.mem_map.1 ht
      exact ih u hu fun id w hid => h id w (Ty.mentions_tuple.2 ⟨u, hu, hid⟩)
  | @record fs row _ hasc _ _ ih =>
      have hfs : ∀ f ∈ fs.map fun f => (f.1, s.apply f.2), f.2.Tame := by
        intro f hf
        obtain ⟨g, hg, rfl⟩ := mem_map_fields hf
        exact ih g hg fun id w hid => h id w (Ty.mentions_record.2 (.inl ⟨g, hg, hid⟩))
      cases row with
      | none => rw [apply_closed]; exact .record _ (hasc.map s.apply) hfs
      | some row =>
          rw [apply_open]
          exact RecordTy.tame_splice (hasc.map s.apply) hfs fun t ht =>
            h row.id t (Ty.mentions_record.2 (.inr ⟨row, rfl, rfl⟩)) ht

/-- A core type stands for what it is under the substitution. -/
theorem form_valuation (ht : t.Core κ)
    (h : ∀ id u, t.Mentions id → s.get? id = some u → u.Tame) :
    s.valuation.form t = (s.apply t).form := by
  induction ht with
  | @var v _ =>
      show (s.valuation.ty v.id).form = _
      rw [ty_valuation fun u => h v.id u (Ty.mentions_var.2 rfl), apply_var]
      cases s.get? v.id with
      | none => exact Ty.form_var.2 rfl
      | some u => rfl
  | prim name => rw [apply_prim]; rfl
  | @fn p r hp hr ihp ihr =>
      have hp' := fun id u hid => h id u (Ty.mentions_fn.2 (.inl hid))
      have hr' := fun id u hid => h id u (Ty.mentions_fn.2 (.inr hid))
      rw [apply_fn]
      exact (Ty.form_fn (s.valuation.tame_under hp) (s.valuation.tame_under hr)
        (tame_apply hp hp') (tame_apply hr hr')).2 ⟨ihp hp', ihr hr'⟩
  | @tuple ts hts ih =>
      have hts' := fun t ht id u hid => h id u (Ty.mentions_tuple.2 ⟨t, ht, hid⟩)
      rw [apply_tuple, Valuation.form, Valuation.under, Valuation.underAll_eq_map]
      exact Ty.form_tuple_map (fun t ht => s.valuation.tame_under (hts t ht))
        (fun t ht => tame_apply (hts t ht) (hts' t ht)) fun t ht => ih t ht (hts' t ht)
  | @record fs row hrec hasc hrow hfs ih =>
      have hfs' := fun f hf id u hid => h id u (Ty.mentions_record.2 (.inl ⟨f, hf, hid⟩))
      have hcore : (Ty.record fs row).Core κ := .record hrec hasc hrow hfs
      have htame := tame_apply hcore h
      have hmap : ∀ name, (Table.get? name (fs.map fun f => (f.1, s.apply f.2))).map Ty.form =
          (Table.get? name fs).map s.valuation.form := by
        intro name
        rw [Table.get?_map, Option.map_map]
        cases hf : Table.get? name fs with
        | none => rfl
        | some t =>
            have hmem := Table.mem_of_get? hf
            exact congrArg some (ih _ hmem (hfs' _ hmem)).symm
      cases row with
      | none =>
          rw [apply_closed] at htame ⊢
          refine (Valuation.form_eq_toTy (r := ⟨_, none⟩) hcore htame).2 ⟨rfl, fun name => ?_⟩
          rw [← hmap name]
          exact Option.or_none
      | some row =>
          have hrest : s.valuation.rest (some row) =
              RecordTy.splice [] ⟨row.id, 0⟩ (s.get? row.id) :=
            row_valuation fun u => h row.id u (Ty.mentions_record.2 (.inr ⟨row, rfl, rfl⟩))
          rw [apply_open] at htame ⊢
          refine (Valuation.form_eq_toTy hcore htame).2 ⟨?_, fun name => ?_⟩
          · rw [hrest]
            have hid : row.id = (⟨row.id, 0⟩ : TyVar).id := rfl
            exact (RecordTy.rowId_splice _ hid _).symm
          · rw [hrest, ← hmap name]
            exact (RecordTy.formAt_splice _ _ _ _ name).symm

/-- A solved substitution is absorbed by the valuation it gives. -/
theorem Solved.absorbs_valuation (hs : s.Solved κ) : s.valuation.Absorbs κ s := by
  intro id t hg
  obtain ⟨hcore, -⟩ := hs.core id t hg
  have hself : s.valuation.form t = t.form := by
    rw [form_valuation hcore fun j u _ hu => (hs.core j u hu).1.tame,
      hcore.stable.apply_eq_self (hs.fixed hg)]
  have htame : ∀ u, s.get? id = some u → u.Tame := fun u hu => (hs.core id u hu).1.tame
  rw [hself]
  constructor
  · intro _
    rw [ty_valuation htame, hg]
    rfl
  · intro hrow
    obtain ⟨fs, row, rfl⟩ := (hs.core id t hg).2 hrow
    rw [row_valuation htame, hg]
    have htame' := hcore.tame
    refine (RecordTy.form_toTy (r := ⟨fs, row⟩) htame' ?_).2 ⟨rfl, fun name => ?_⟩
    · exact RecordTy.tame_splice List.Pairwise.nil (by intro f hf; cases hf) fun t ht => by
        cases ht
        exact htame'
    · show _ = Option.map _ (Table.get? name (Table.underlay [] fs))
      rw [Table.get?_underlay, Table.get?_nil, Option.none_or]
      rfl

end Subst

end RowTypes
