import RowTypes.Proofs.SoundUnification

/-!
# Related types unify

Unified types are related, and here related types are seen to unify, if no unknown is an alternative
of a union in them.  An unknown that is one is related to the union as a whole, and would have to be
bound to a type that it occurs in.

What is found for one part of two types is applied to the other parts before these are unified, and
may bind an unknown to anything.  So types are compared by a relation that lasts under
substitutions: what they agree by are their constructors, and unknowns only agree with themselves.
Unions are built anew, but an alternative that agrees with something is never an unknown, so it
stays an alternative.

A union is searched for the first alternative that unifies, and that may be an earlier one than the
one that agrees.  Whatever it binds, the other parts still agree.
-/

namespace RowTypes

open Ty

variable {row : Int → Prop} {S s : Subst} {a b a' b' t u β : Ty} {ts us as bs : List Ty}

namespace Ty

/-! ## Types that agree -/

/-- No unknown is an alternative of a union. -/
inductive Definite : Ty → Prop where
  | var (v : TyVar) : Definite (.var v)
  | prim (name : String) : Definite (.prim name)
  | lit (value : String) : Definite (.lit value)
  | fn {p r : Ty} : Definite p → Definite r → Definite (.fn p r)
  | record {fs : List (String × Ty)} (rest : Option TyVar) : (∀ f ∈ fs, Definite f.2) →
      Definite (.record fs rest)
  | tuple {ts : List Ty} : (∀ t ∈ ts, Definite t) → Definite (.tuple ts)
  | union {ts : List Ty} : (∀ t ∈ ts, Definite t) → (∀ v, .var v ∉ ts) → Definite (.union ts)

/-- Types that go together by their constructors: where an alternative of a union is chosen for a
type, neither is an unknown. -/
inductive Agrees : Ty → Ty → Prop where
  | same {a b : Ty} : a.equiv b = true → Agrees a b
  | asString (value : String) : Agrees (.lit value) .string
  | asLit (value : String) : Agrees .string (.lit value)
  | fn {p r p' r' : Ty} : Agrees p p' → Agrees r r' → Agrees (.fn p r) (.fn p' r')
  | tuple {as bs : List Ty} : as.length = bs.length → (∀ e ∈ as.zip bs, Agrees e.1 e.2) →
      Agrees (.tuple as) (.tuple bs)
  | record {fs gs : List (String × Ty)} {rest rest' : Option TyVar} :
      rest.map TyVar.id = rest'.map TyVar.id →
      (∀ name, (Table.get? name fs).isSome = (Table.get? name gs).isSome) →
      (∀ name a b, Table.get? name fs = some a → Table.get? name gs = some b → Agrees a b) →
      Agrees (.record fs rest) (.record gs rest')
  | into {a u : Ty} {us : List Ty} : (∀ v, a ≠ .var v) → (∀ ts, a ≠ .union ts) → u ∈ us →
      Agrees a u → Agrees a (.union us)
  | onto {t b : Ty} {ts : List Ty} : (∀ v, b ≠ .var v) → (∀ us, b ≠ .union us) → t ∈ ts →
      Agrees t b → Agrees (.union ts) b
  | unions {ts us : List Ty} : (∀ t ∈ ts, Agrees t (.union us)) → (∀ u ∈ us, Agrees (.union ts) u) →
      Agrees (.union ts) (.union us)

/-- Records agree if they have the same row, and for each name both have fields that agree or none
has one. -/
theorem agrees_record {fs gs : List (String × Ty)} {rest rest' : Option TyVar}
    (hrest : rest.map TyVar.id = rest'.map TyVar.id)
    (h : ∀ name, Option.Rel Agrees (Table.get? name fs) (Table.get? name gs)) :
    Agrees (.record fs rest) (.record gs rest') := by
  refine .record hrest (fun name => ?_) fun name a b ha hb => ?_
  · have hname := h name
    generalize Table.get? name fs = x, Table.get? name gs = y at hname
    cases hname <;> rfl
  · have hname := h name
    rw [ha, hb] at hname
    cases hname with
    | some hab => exact hab

theorem Agrees.symm (ha : a.Structural row) (hb : b.Structural row) (h : a.Agrees b) :
    b.Agrees a := by
  induction h with
  | same h => exact .same (equiv_symm ha.tame hb.tame h)
  | asString value => exact .asLit value
  | asLit value => exact .asString value
  | fn _ _ ihp ihr =>
      cases ha with
      | fn hp hr =>
          cases hb with
          | fn hp' hr' => exact .fn (ihp hp hp') (ihr hr hr')
  | @tuple as bs hlen _ ih =>
      cases ha with
      | tuple has =>
          cases hb with
          | tuple hbs =>
              refine .tuple hlen.symm fun e he => ?_
              have hswap : e.swap ∈ as.zip bs := by
                rw [← List.zip_swap]
                exact List.mem_map_of_mem he
              obtain ⟨h₁, h₂⟩ := List.of_mem_zip he
              exact ih e.swap hswap (has _ h₂) (hbs _ h₁)
  | record hrest hnames _ ih =>
      cases ha with
      | record _ hfs _ =>
          cases hb with
          | record _ hgs _ =>
              exact .record hrest.symm (fun name => (hnames name).symm) fun name a b ha hb =>
                ih name b a hb ha (hfs _ (Table.mem_of_get? hb)) (hgs _ (Table.mem_of_get? ha))
  | into hvar hunion hu _ ih => exact .onto hvar hunion hu (ih ha (hb.of_union _ hu))
  | onto hvar hunion ht _ ih => exact .into hvar hunion ht (ih (ha.of_union _ ht) hb)
  | unions _ _ iht ihu =>
      exact .unions (fun u hu => ihu u hu ha (hb.of_union u hu))
        fun t ht => iht t ht (ha.of_union t ht) hb

theorem Agrees.equiv_of_var {v : TyVar} (h : (Ty.var v).Agrees b) : equiv (.var v) b = true := by
  cases h with
  | same h => exact h
  | into hvar _ _ _ => exact absurd rfl (hvar v)

theorem ne_var_of_equiv (h : equiv a b = true) (hvar : ∀ v, a ≠ .var v) : ∀ v, b ≠ .var v := by
  rintro v rfl
  obtain ⟨w, rfl⟩ := exists_var_of_equiv_var h
  exact hvar w rfl

/-- What agrees with a type that is not an unknown is none. -/
theorem Agrees.ne_var (ha : a.Structural row) (hb : b.Structural row) (h : a.Agrees b)
    (hvar : ∀ v, a ≠ .var v) : ∀ v, b ≠ .var v := by
  rintro v rfl
  exact ne_var_of_equiv (equiv_symm (.var v) ha.tame (h.symm ha hb).equiv_of_var) hvar v rfl

/-- A type other than a union that agrees with a union agrees with an alternative of it. -/
theorem Agrees.exists_alternative (hunion : ∀ ts, a ≠ .union ts) (h : a.Agrees (.union us)) :
    (∀ v, a ≠ .var v) ∧ ∃ u ∈ us, a.Agrees u := by
  cases h with
  | same h =>
      obtain ⟨ts, rfl⟩ := exists_union_of_equiv_union h
      exact absurd rfl (hunion ts)
  | into hvar _ hu h => exact ⟨hvar, _, hu, h⟩
  | onto _ _ _ _ => exact absurd rfl (hunion _)
  | unions _ _ => exact absurd rfl (hunion _)

theorem Agrees.of_alternative (hb : b.Structural row) (hvar : ∀ v, a ≠ .var v)
    (hunion : ∀ ts, a ≠ .union ts) (hβ : β ∈ b.alternatives) (h : a.Agrees β) : a.Agrees b := by
  by_cases hu : ∃ us, b = .union us
  · obtain ⟨us, rfl⟩ := hu
    rw [hb.alternatives_union] at hβ
    exact .into hvar hunion hβ h
  · rw [alternatives_eq_self fun us heq => hu ⟨us, heq⟩, List.mem_singleton] at hβ
    exact hβ ▸ h

/-- Types agree if each alternative of one agrees with the other. -/
theorem Agrees.of_alternatives (ha : a.Structural row) (hb : b.Structural row)
    (hab : ∀ α ∈ a.alternatives, α.Agrees b) (hba : ∀ β ∈ b.alternatives, a.Agrees β) :
    a.Agrees b := by
  by_cases hau : ∃ ts, a = .union ts
  · obtain ⟨ts, rfl⟩ := hau
    by_cases hbu : ∃ us, b = .union us
    · obtain ⟨us, rfl⟩ := hbu
      rw [ha.alternatives_union] at hab
      rw [hb.alternatives_union] at hba
      exact .unions hab hba
    · rw [alternatives_eq_self fun us heq => hbu ⟨us, heq⟩] at hba
      exact hba b List.mem_cons_self
  · rw [alternatives_eq_self fun ts heq => hau ⟨ts, heq⟩] at hab
    exact hab a List.mem_cons_self

/-! ## Related types agree -/

/-- Related types agree, if no unknown is an alternative in them. -/
theorem Agrees.of_related (h : Related a b) (ha : a.Structural row) (hb : b.Structural row)
    (hda : a.Definite) (hdb : b.Definite) : a.Agrees b := by
  have hwidening : Widening fun a b => a.Structural row → b.Structural row → a.Definite →
      b.Definite → a.Agrees b := by
    constructor
    · exact fun h hb ha hdb hda => (h ha hb hda hdb).symm ha hb
    · exact fun h _ _ _ _ => .same h
    · exact fun value _ _ _ _ => .asString value
    · intro p r p' r' hp hr ha hb hda hdb
      cases ha with
      | fn sp sr =>
      cases hb with
      | fn sp' sr' =>
      cases hda with
      | fn dp dr =>
      cases hdb with
      | fn dp' dr' => exact .fn (hp sp sp' dp dp') (hr sr sr' dr dr')
    · intro ts us h ha hb hda hdb
      cases ha with
      | tuple sts =>
      cases hb with
      | tuple sus =>
      cases hda with
      | tuple dts =>
      cases hdb with
      | tuple dus =>
      obtain ⟨hlen, hzip⟩ := List.forall₂_iff_zip.1 h
      refine .tuple hlen fun e he => ?_
      obtain ⟨ht, hu⟩ := List.of_mem_zip he
      exact hzip he (sts _ ht) (sus _ hu) (dts _ ht) (dus _ hu)
    · intro fs gs rest rest' h hid ha hb hda hdb
      cases ha with
      | record _ sfs _ =>
      cases hb with
      | record _ sgs _ =>
      cases hda with
      | record _ dfs =>
      cases hdb with
      | record _ dgs =>
      refine agrees_record hid fun name => ?_
      have hname := h name
      cases hx : Table.get? name fs <;> cases hy : Table.get? name gs <;>
        rw [hx, hy] at hname <;> cases hname
      · exact .none
      · next h => exact .some (h (sfs _ (Table.mem_of_get? hx)) (sgs _ (Table.mem_of_get? hy))
          (dfs _ (Table.mem_of_get? hx)) (dgs _ (Table.mem_of_get? hy)))
    · intro a u us hne hu h ha hb hda hdb
      cases hdb with
      | union dus hvars =>
          have hagrees := h ha (hb.of_union u hu) hda (dus u hu)
          have huvar : ∀ v, u ≠ .var v := fun v heq => hvars v (heq ▸ hu)
          exact .into ((hagrees.symm ha (hb.of_union u hu)).ne_var (hb.of_union u hu) ha huvar) hne
            hu hagrees
    · intro ts us hts hus ha hb hda hdb
      cases hda with
      | union dts hvars =>
      cases hdb with
      | union dus hvars' =>
      refine .unions (fun t ht => ?_) fun u hu => ?_
      · obtain ⟨u, hu, h⟩ := hts t ht
        exact .into (fun v heq => hvars v (heq ▸ ht)) (ha.flat t ht) hu
          (h (ha.of_union t ht) (hb.of_union u hu) (dts t ht) (dus u hu))
      · obtain ⟨t, ht, h⟩ := hus u hu
        exact .onto (fun v heq => hvars' v (heq ▸ hu)) (hb.flat u hu) ht
          ((h (hb.of_union u hu) (ha.of_union t ht) (dus u hu) (dts t ht)).symm (hb.of_union u hu)
            (ha.of_union t ht))
  exact h _ hwidening ha hb hda hdb

/-! ## Types that agree do so under every substitution -/

theorem exists_fn_of_form {p r : Ty} (ha : (Ty.fn p r).Structural row) (hb : b.Structural row)
    (h : (Ty.fn p r).form = b.form) :
    ∃ p' r', b = .fn p' r' ∧ p'.Structural row ∧ r'.Structural row ∧ p.form = p'.form ∧
      r.form = r'.form := by
  obtain ⟨p', r', rfl, -⟩ := exists_fn_of_equiv ((form_eq_iff ha.tame hb.tame).1 h)
  cases ha with
  | fn hp hr =>
      cases hb with
      | fn hp' hr' =>
          obtain ⟨hpp, hrr⟩ := (form_fn hp.tame hr.tame hp'.tame hr'.tame).1 h
          exact ⟨p', r', rfl, hp', hr', hpp, hrr⟩

theorem exists_tuple_of_form (ha : (Ty.tuple ts).Structural row) (hb : b.Structural row)
    (h : (Ty.tuple ts).form = b.form) :
    ∃ us, b = .tuple us ∧ (∀ u ∈ us, u.Structural row) ∧ ts.map form = us.map form := by
  obtain ⟨us, rfl, -⟩ := exists_tuple_of_equiv ((form_eq_iff ha.tame hb.tame).1 h)
  cases ha with
  | tuple hts =>
      cases hb with
      | tuple hus =>
          exact ⟨us, rfl, hus, (form_tuple (fun t ht => (hts t ht).tame)
            fun u hu => (hus u hu).tame).1 h⟩

theorem exists_record_of_form {r : RecordTy} (ha : r.toTy.Structural row) (hb : b.Structural row)
    (h : r.toTy.form = b.form) : ∃ r' : RecordTy, b = r'.toTy := by
  obtain ⟨gs, rest, rfl⟩ := exists_record_of_equiv ((form_eq_iff ha.tame hb.tame).1 h)
  exact ⟨⟨gs, rest⟩, rfl⟩

/-- Lists with the same forms are paired up alike. -/
theorem exists_mem_zip_of_forms {f : Ty → Form} {ts' us' : List Ty} (h : ts.map f = ts'.map form)
    (h' : us.map f = us'.map form) {e' : Ty × Ty} (he : e' ∈ ts'.zip us') :
    ∃ e ∈ ts.zip us, f e.1 = e'.1.form ∧ f e.2 = e'.2.form := by
  have hmaps : (ts.zip us).map (Prod.map f f) = (ts'.zip us').map (Prod.map form form) := by
    rw [← List.zip_map, ← List.zip_map, h, h']
  have hmem := List.mem_map_of_mem (f := Prod.map form form) he
  rw [← hmaps] at hmem
  obtain ⟨e, he, heq⟩ := List.mem_map.1 hmem
  exact ⟨e, he, (Prod.mk.inj heq).1, (Prod.mk.inj heq).2⟩

section Substituting

variable (hS : S.Structural row)

include hS

/-- What a type other than a union and an unknown becomes is neither. -/
theorem shape_of_form (ha : a.Structural row) (ha' : a'.Structural row) (hvar : ∀ v, a ≠ .var v)
    (hunion : ∀ us, a ≠ .union us) (hform : (S.apply a).form = a'.form) :
    (∀ v, a' ≠ .var v) ∧ ∀ us, a' ≠ .union us := by
  obtain ⟨hvarS, hunionS⟩ := ha.apply_shape (S := S) hvar hunion
  have heq := (form_eq_iff (ha.apply hS).tame ha'.tame).1 hform
  exact ⟨ne_var_of_equiv heq hvarS, ne_union_of_equiv (ha.apply hS).tame ha'.tame heq hunionS⟩

/-- What a type becomes agrees with what a union becomes, if it agrees with what one of its
alternatives becomes and that is no union. -/
theorem Agrees.apply_into (hus : (Ty.union us).Structural row) (hu : u ∈ us)
    (hvar : ∀ v, u ≠ .var v) (hvar' : ∀ v, a' ≠ .var v) (hunion' : ∀ ts, a' ≠ .union ts)
    (hb' : b'.Structural row) (hform : (S.apply (.union us)).form = b'.form)
    (ih : ∀ {β}, β.Structural row → (S.apply u).form = β.form → a'.Agrees β) : a'.Agrees b' := by
  have hne := ((hus.of_union u hu).apply_shape (S := S) hvar (hus.flat u hu)).2
  have hmem := form_mem_options_apply hS hus hu hne
  rw [(form_eq_iff_options (hus.apply hS) hb').1 hform] at hmem
  obtain ⟨β, hβ, hβu⟩ := hmem
  exact .of_alternative hb' hvar' hunion' hβ (ih (hb'.alternatives β hβ) hβu.symm)

/-- The alternatives of what a union becomes are of the forms of what its alternatives become, if
none of these is an unknown. -/
theorem exists_form_of_apply_union (hts : (Ty.union ts).Structural row)
    (hvars : ∀ t ∈ ts, ∀ v, t ≠ .var v) (ha' : a'.Structural row)
    (hform : (S.apply (.union ts)).form = a'.form) {α : Ty} (hα : α ∈ a'.alternatives) :
    ∃ t ∈ ts, (S.apply t).form = α.form := by
  have hmem : α.form ∈ (S.apply (.union ts)).options := by
    rw [(form_eq_iff_options (hts.apply hS) ha').1 hform]
    exact ⟨α, hα, rfl⟩
  rw [mem_options_apply hS hts, hts.alternatives_union] at hmem
  obtain ⟨t, ht, hmem⟩ := hmem
  rw [options_of_ne_union ((hts.of_union t ht).apply_shape (hvars t ht) (hts.flat t ht)).2] at hmem
  exact ⟨t, ht, (Set.mem_singleton_iff.1 hmem).symm⟩

/-- Tuples agree under every substitution if their elements do. -/
theorem Agrees.apply_tuple (ha : (Ty.tuple as).Structural row) (hb : (Ty.tuple bs).Structural row)
    (ha' : a'.Structural row) (hb' : b'.Structural row) (hlen : as.length = bs.length)
    (hforma : (S.apply (.tuple as)).form = a'.form) (hformb : (S.apply (.tuple bs)).form = b'.form)
    (ih : ∀ e ∈ as.zip bs, ∀ {t' u' : Ty}, t'.Structural row → u'.Structural row →
      (S.apply e.1).form = t'.form → (S.apply e.2).form = u'.form → t'.Agrees u') :
    a'.Agrees b' := by
  have htuplea := ha.apply hS
  have htupleb := hb.apply hS
  rw [Subst.apply_tuple] at hforma hformb htuplea htupleb
  obtain ⟨ts, rfl, hts, hformsa⟩ := exists_tuple_of_form htuplea ha' hforma
  obtain ⟨us, rfl, hus, hformsb⟩ := exists_tuple_of_form htupleb hb' hformb
  rw [List.map_map] at hformsa hformsb
  refine .tuple ?_ fun e' he' => ?_
  · have hlena := congrArg List.length hformsa
    have hlenb := congrArg List.length hformsb
    rw [List.length_map, List.length_map] at hlena hlenb
    omega
  · obtain ⟨e, he, h₁, h₂⟩ := exists_mem_zip_of_forms hformsa hformsb he'
    obtain ⟨hte, hue⟩ := List.of_mem_zip he'
    exact ih e he (hts _ hte) (hus _ hue) h₁ h₂

/-- The fields of records that agree do so under every substitution. -/
theorem Agrees.apply_record {ra rb ra' rb' : RecordTy} (ha : ra.toTy.Structural row)
    (hb : rb.toTy.Structural row) (ha' : ra'.toTy.Structural row) (hb' : rb'.toTy.Structural row)
    (hrest : ra.row.map TyVar.id = rb.row.map TyVar.id)
    (hnames : ∀ name, (ra.field? name).isSome = (rb.field? name).isSome)
    (hforma : (S.apply ra.toTy).form = ra'.toTy.form)
    (hformb : (S.apply rb.toTy).form = rb'.toTy.form)
    (ih : ∀ name t u, ra.field? name = some t → rb.field? name = some u → ∀ {t' u' : Ty},
      t'.Structural row → u'.Structural row → (S.apply t).form = t'.form →
      (S.apply u).form = u'.form → t'.Agrees u') : ra'.toTy.Agrees rb'.toTy := by
  have hunder : ∀ {r r' : RecordTy}, r.toTy.Structural row → r'.toTy.Structural row →
      (S.apply r.toTy).form = r'.toTy.form → (S.behind r.row).rowId = r'.rowId ∧
      ∀ name, ((r.field? name).map fun t => (S.apply t).form).or ((S.behind r.row).formAt name) =
        r'.formAt name := by
    intro r r' hr hr' hform
    have happly := S.apply_toTy hS.rows r (kinded_record.1 hr.kinded).2
    rw [happly] at hform
    obtain ⟨hid, hforms⟩ := (RecordTy.form_toTy (happly ▸ (hr.apply hS).tame) hr'.tame).1 hform
    exact ⟨hid, fun name => (S.formAt_recordUnder r name).symm.trans (hforms name)⟩
  have hfield : ∀ {r' : RecordTy} {name : String} {t : Ty}, r'.toTy.Structural row →
      r'.field? name = some t → t.Structural row := by
    intro r' name t hr' ht
    cases hr' with
    | record _ hfs _ => exact hfs _ (Table.mem_of_get? ht)
  obtain ⟨hida, hformsa⟩ := hunder ha ha' hforma
  obtain ⟨hidb, hformsb⟩ := hunder hb hb' hformb
  obtain ⟨hid, hfields⟩ := S.behind_congr hrest
  refine agrees_record (hida.symm.trans (hid.trans hidb)) fun name => ?_
  show Option.Rel Agrees (ra'.field? name) (rb'.field? name)
  have hna := hformsa name
  have hnb := hformsb name
  have hname := hnames name
  cases hfa : ra.field? name with
  | some t =>
      rw [hfa, Option.isSome_some, eq_comm, Option.isSome_iff_exists] at hname
      obtain ⟨u, hfb⟩ := hname
      rw [hfa] at hna
      rw [hfb] at hnb
      obtain ⟨t', ht', hformt⟩ := Option.map_eq_some_iff.1 hna.symm
      obtain ⟨u', hu', hformu⟩ := Option.map_eq_some_iff.1 hnb.symm
      rw [ht', hu']
      exact .some (ih name t u hfa hfb (hfield ha' ht') (hfield hb' hu') hformt.symm hformu.symm)
  | none =>
      rw [hfa, Option.isSome_none, eq_comm, Option.isSome_eq_false_iff,
        Option.isNone_iff_eq_none] at hname
      rw [hfa] at hna
      rw [hname, RecordTy.formAt, RecordTy.field?, ← hfields] at hnb
      have hforms : ra'.formAt name = rb'.formAt name := hna.symm.trans hnb
      rw [RecordTy.formAt, RecordTy.formAt] at hforms
      cases hx : ra'.field? name <;> cases hy : rb'.field? name <;> rw [hx, hy] at hforms
      · exact .none
      · cases hforms
      · cases hforms
      · exact .some (.same ((form_eq_iff (hfield ha' hx).tame (hfield hb' hy).tame).1
          (Option.some.inj hforms)))

/-- Types that agree do so under every substitution, in whatever way their unions are built. -/
theorem Agrees.apply_forms (ha : a.Structural row) (hb : b.Structural row) (h : a.Agrees b) :
    ∀ {a' b' : Ty}, a'.Structural row → b'.Structural row → (S.apply a).form = a'.form →
      (S.apply b).form = b'.form → a'.Agrees b' := by
  induction h with
  | same h =>
      intro a' b' ha' hb' hforma hformb
      have hform := form_apply_congr hS ha hb (form_congr ha.tame hb.tame h)
      exact .same ((form_eq_iff ha'.tame hb'.tame).1 (hforma.symm.trans (hform.trans hformb)))
  | asString value =>
      intro a' b' ha' hb' hforma hformb
      rw [Subst.apply_lit] at hforma
      rw [string, Subst.apply_prim] at hformb
      rw [eq_lit_of_equiv ((form_eq_iff (.lit value) ha'.tame).1 hforma),
        eq_prim_of_equiv ((form_eq_iff (.prim _) hb'.tame).1 hformb)]
      exact .asString value
  | asLit value =>
      intro a' b' ha' hb' hforma hformb
      rw [string, Subst.apply_prim] at hforma
      rw [Subst.apply_lit] at hformb
      rw [eq_prim_of_equiv ((form_eq_iff (.prim _) ha'.tame).1 hforma),
        eq_lit_of_equiv ((form_eq_iff (.lit value) hb'.tame).1 hformb)]
      exact .asLit value
  | fn _ _ ihp ihr =>
      intro a' b' ha' hb' hforma hformb
      have hfna := ha.apply hS
      have hfnb := hb.apply hS
      rw [Subst.apply_fn] at hforma hformb hfna hfnb
      obtain ⟨p₁, r₁, rfl, hp₁, hr₁, hpp₁, hrr₁⟩ := exists_fn_of_form hfna ha' hforma
      obtain ⟨p₂, r₂, rfl, hp₂, hr₂, hpp₂, hrr₂⟩ := exists_fn_of_form hfnb hb' hformb
      cases ha with
      | fn hp hr =>
          cases hb with
          | fn hp' hr' => exact .fn (ihp hp hp' hp₁ hp₂ hpp₁ hpp₂) (ihr hr hr' hr₁ hr₂ hrr₁ hrr₂)
  | tuple hlen _ ih =>
      intro a' b' ha' hb' hforma hformb
      refine Agrees.apply_tuple hS ha hb ha' hb' hlen hforma hformb fun e he => ?_
      obtain ⟨hae, hbe⟩ := List.of_mem_zip he
      cases ha with
      | tuple has =>
          cases hb with
          | tuple hbs => exact ih e he (has _ hae) (hbs _ hbe)
  | @record fs gs rest rest' hrest hnames _ ih =>
      intro a' b' ha' hb' hforma hformb
      have hra : (RecordTy.toTy ⟨fs, rest⟩).Structural row := ha
      have hrb : (RecordTy.toTy ⟨gs, rest'⟩).Structural row := hb
      have hunder : ∀ {r : RecordTy}, r.toTy.Structural row →
          S.apply r.toTy = (S.recordUnder r).toTy := fun hr =>
        S.apply_toTy hS.rows _ (kinded_record.1 hr.kinded).2
      obtain ⟨ra', rfl⟩ := exists_record_of_form (hunder hra ▸ hra.apply hS) ha'
        (hunder hra ▸ hforma)
      obtain ⟨rb', rfl⟩ := exists_record_of_form (hunder hrb ▸ hrb.apply hS) hb'
        (hunder hrb ▸ hformb)
      refine Agrees.apply_record hS hra hrb ha' hb' hrest hnames hforma hformb ?_
      intro name t u ht hu
      cases ha with
      | record _ hfs _ =>
          cases hb with
          | record _ hgs _ =>
              exact ih name t u ht hu (hfs _ (Table.mem_of_get? ht)) (hgs _ (Table.mem_of_get? hu))
  | @into a u us hvar hunion hu h ih =>
      intro a' b' ha' hb' hforma hformb
      obtain ⟨hvar', hunion'⟩ := shape_of_form hS ha ha' hvar hunion hforma
      exact .apply_into hS hb hu (h.ne_var ha (hb.of_union u hu) hvar) hvar' hunion' hb' hformb
        fun hβ hform => ih ha (hb.of_union u hu) ha' hβ hforma hform
  | @onto t b ts hvar hunion ht h ih =>
      intro a' b' ha' hb' hforma hformb
      obtain ⟨hvar', hunion'⟩ := shape_of_form hS hb hb' hvar hunion hformb
      have htvar := (h.symm (ha.of_union t ht) hb).ne_var hb (ha.of_union t ht) hvar
      exact (Agrees.apply_into hS ha ht htvar hvar' hunion' ha' hforma fun hα hform =>
        (ih (ha.of_union t ht) hb hα hb' hform hformb).symm hα hb').symm hb' ha'
  | @unions ts us hts hus iht ihu =>
      intro a' b' ha' hb' hforma hformb
      refine .of_alternatives ha' hb' (fun α hα => ?_) fun β hβ => ?_
      · obtain ⟨t, ht, hform⟩ := exists_form_of_apply_union hS ha
          (fun t ht => ((hts t ht).exists_alternative (ha.flat t ht)).1) ha' hforma hα
        exact iht t ht (ha.of_union t ht) hb (ha'.alternatives α hα) hb' hform hformb
      · have hvars : ∀ u ∈ us, ∀ v, u ≠ .var v := fun u hu =>
          (((hus u hu).symm ha (hb.of_union u hu)).exists_alternative (hb.flat u hu)).1
        obtain ⟨u, hu, hform⟩ := exists_form_of_apply_union hS hb hvars hb' hformb hβ
        exact ihu u hu ha (hb.of_union u hu) ha' (hb'.alternatives β hβ) hforma hform

theorem Agrees.apply (ha : a.Structural row) (hb : b.Structural row) (h : a.Agrees b) :
    (S.apply a).Agrees (S.apply b) :=
  h.apply_forms hS ha hb (ha.apply hS) (hb.apply hS) rfl rfl

end Substituting

end Ty

end RowTypes
