import RowTypes.Proofs.StructuralSubstitutions

/-!
# Types that go together

Unification takes two liberties: a string literal goes with the type of strings, and a type goes
with a union if it goes with one of its alternatives.  So two types that were unified need not be
equivalent in the end, and `Related` says what they are instead.

The relation is the least one with its rules, so something is shown of related types by showing that
it has the rules, too.
-/

namespace RowTypes

open Ty

/-- The rules by which types go together. -/
structure Widening (R : Ty → Ty → Prop) : Prop where
  symm : ∀ {a b}, R a b → R b a
  equiv : ∀ {a b}, a.equiv b = true → R a b
  literal : ∀ value, R (.lit value) .string
  fn : ∀ {p r p' r'}, R p p' → R r r' → R (.fn p r) (.fn p' r')
  tuple : ∀ {ts us}, List.Forall₂ R ts us → R (.tuple ts) (.tuple us)
  record : ∀ {fs gs : List (String × Ty)} {rest rest' : Option TyVar},
    (∀ name, Option.Rel R (Table.get? name fs) (Table.get? name gs)) →
    rest.map TyVar.id = rest'.map TyVar.id → R (.record fs rest) (.record gs rest')
  alternative : ∀ {a u us}, (∀ ts, a ≠ .union ts) → u ∈ us → R a u → R a (.union us)
  unions : ∀ {ts us}, (∀ t ∈ ts, ∃ u ∈ us, R t u) → (∀ u ∈ us, ∃ t ∈ ts, R u t) →
    R (.union ts) (.union us)

/-- The least relation with these rules. -/
def Related (a b : Ty) : Prop := ∀ R, Widening R → R a b

theorem rel_imp {R R' : Ty → Ty → Prop} (h : ∀ a b, R a b → R' a b) {x y : Option Ty}
    (hxy : Option.Rel R x y) : Option.Rel R' x y := by
  cases hxy with
  | some hab => exact .some (h _ _ hab)
  | none => exact .none

theorem widening_related : Widening Related where
  symm h R hR := hR.symm (h R hR)
  equiv h _ hR := hR.equiv h
  literal value _ hR := hR.literal value
  fn hp hr R hR := hR.fn (hp R hR) (hr R hR)
  tuple h R hR := hR.tuple (h.imp fun _ _ h => h R hR)
  record h hid R hR := hR.record (fun name => rel_imp (fun _ _ h => h R hR) (h name)) hid
  alternative hne hu h R hR := hR.alternative hne hu (h R hR)
  unions hts hus R hR := hR.unions
    (fun t ht => (hts t ht).imp fun _ h => ⟨h.1, h.2 R hR⟩)
    (fun u hu => (hus u hu).imp fun _ h => ⟨h.1, h.2 R hR⟩)

/-- What is left of two records, apart from the fields that they share, comes to the same. -/
def Subst.SameRest (S : Subst) (ra rb : RecordTy) : Prop :=
  (S.behind ra.row).rowId = (S.behind rb.row).rowId ∧ ∀ name,
    ((Table.get? name (ra.own rb)).map fun t => (S.apply t).form).or
        ((S.behind ra.row).formAt name) =
      ((Table.get? name (rb.own ra)).map fun t => (S.apply t).form).or
        ((S.behind rb.row).formAt name)

theorem Subst.SameRest.symm {S : Subst} {ra rb : RecordTy} (h : S.SameRest ra rb) :
    S.SameRest rb ra := ⟨h.1.symm, fun name => (h.2 name).symm⟩

namespace Related

variable {row : Int → Prop} {S : Subst} {a b a' b' t u : Ty} {ts us : List Ty}

theorem symm (h : Related a b) : Related b a := widening_related.symm h

theorem of_form (ha : a.Tame) (hb : b.Tame) (h : a.form = b.form) : Related a b :=
  widening_related.equiv ((form_eq_iff ha hb).1 h)

theorem rel_of_forms {x y : Option Ty} (hx : ∀ {t}, x = some t → t.Tame)
    (hy : ∀ {t}, y = some t → t.Tame) (h : x.map form = y.map form) : Option.Rel Related x y := by
  cases x with
  | none =>
      cases y with
      | none => exact .none
      | some u => cases h
  | some t =>
      cases y with
      | none => cases h
      | some u => exact .some (of_form (hx rfl) (hy rfl) (Option.some.inj h))

/-! ## Equivalent types are related to the same types -/

/-- Types are related, and so are types that are equivalent to them. -/
def UpToEquiv (a b : Ty) : Prop :=
  Related a b ∧ ∀ {a' b'}, a.Tame → b.Tame → a'.Tame → b'.Tame → a.equiv a' = true →
    b.equiv b' = true → Related a' b'

theorem forall₂_upToEquiv {ts' us' : List Ty} (h : List.Forall₂ UpToEquiv ts us)
    (hts : ∀ t ∈ ts, t.Tame) (hus : ∀ u ∈ us, u.Tame) (hts' : ∀ t ∈ ts', t.Tame)
    (hus' : ∀ u ∈ us', u.Tame) (htt : List.Forall₂ (fun a b => a.equiv b = true) ts ts')
    (huu : List.Forall₂ (fun a b => a.equiv b = true) us us') : List.Forall₂ Related ts' us' := by
  induction h generalizing ts' us' with
  | nil =>
      cases htt
      cases huu
      exact .nil
  | cons hhead _ ih =>
      cases htt with
      | cons ht htt =>
          cases huu with
          | cons hu huu =>
              obtain ⟨ht₁, hts⟩ := List.forall_mem_cons.1 hts
              obtain ⟨hu₁, hus⟩ := List.forall_mem_cons.1 hus
              obtain ⟨ht₂, hts'⟩ := List.forall_mem_cons.1 hts'
              obtain ⟨hu₂, hus'⟩ := List.forall_mem_cons.1 hus'
              exact .cons (hhead.2 ht₁ hu₁ ht₂ hu₂ ht hu) (ih hts hus hts' hus' htt huu)

theorem rel_upToEquiv {x y x' y' : Option Ty} (h : Option.Rel UpToEquiv x y)
    (hx : ∀ t, x = some t → t.Tame) (hy : ∀ t, y = some t → t.Tame)
    (hx' : ∀ t, x' = some t → t.Tame) (hy' : ∀ t, y' = some t → t.Tame)
    (hxx : Option.Rel (fun a b => a.equiv b = true) x x')
    (hyy : Option.Rel (fun a b => a.equiv b = true) y y') : Option.Rel Related x' y' := by
  cases h with
  | none =>
      cases hxx
      cases hyy
      exact .none
  | some hab =>
      cases hxx with
      | some haa =>
          cases hyy with
          | some hbb => exact .some (hab.2 (hx _ rfl) (hy _ rfl) (hx' _ rfl) (hy' _ rfl) haa hbb)

/-- Each of some types is up to equivalence among others, so they are related to what those are. -/
theorem exists_upToEquiv {ts' us' : List Ty} (h : ∀ t ∈ ts, ∃ u ∈ us, UpToEquiv t u)
    (hts : ∀ t ∈ ts, t.Tame) (hus : ∀ u ∈ us, u.Tame) (hts' : ∀ t ∈ ts', t.Tame)
    (hus' : ∀ u ∈ us', u.Tame) (htt : ∀ t' ∈ ts', ∃ t ∈ ts, t.equiv t' = true)
    (huu : ∀ u ∈ us, ∃ u' ∈ us', u.equiv u' = true) : ∀ t ∈ ts', ∃ u ∈ us', Related t u := by
  intro t' ht'
  obtain ⟨t, ht, htt⟩ := htt t' ht'
  obtain ⟨u, hu, htu⟩ := h t ht
  obtain ⟨u', hu', huu⟩ := huu u hu
  exact ⟨u', hu', htu.2 (hts t ht) (hus u hu) (hts' t' ht') (hus' u' hu') htt huu⟩

theorem widening_upToEquiv : Widening UpToEquiv where
  symm h := ⟨h.1.symm, fun ha hb ha' hb' haa hbb => (h.2 hb ha hb' ha' hbb haa).symm⟩
  equiv h := ⟨widening_related.equiv h, fun ha hb ha' hb' haa hbb =>
    widening_related.equiv (equiv_trans ha' hb hb' (equiv_trans ha' ha hb (equiv_symm ha ha' haa) h) hbb)⟩
  literal value := ⟨widening_related.literal value, fun _ _ _ _ haa hbb => by
    rw [eq_lit_of_equiv haa, eq_prim_of_equiv hbb]
    exact widening_related.literal value⟩
  fn {p r p' r'} hp hr := by
    refine ⟨widening_related.fn hp.1 hr.1, fun {a' b'} ha hb ha' hb' haa hbb => ?_⟩
    obtain ⟨p₁, r₁, rfl, hpp, hrr⟩ := exists_fn_of_equiv haa
    obtain ⟨p₂, r₂, rfl, hpp', hrr'⟩ := exists_fn_of_equiv hbb
    cases ha with
    | fn tp tr =>
    cases hb with
    | fn tp' tr' =>
    cases ha' with
    | fn tp₁ tr₁ =>
    cases hb' with
    | fn tp₂ tr₂ =>
    exact widening_related.fn (hp.2 tp tp' tp₁ tp₂ hpp hpp') (hr.2 tr tr' tr₁ tr₂ hrr hrr')
  tuple {ts us} h := by
    refine ⟨widening_related.tuple (h.imp fun _ _ h => h.1), fun {a' b'} ha hb ha' hb' haa hbb => ?_⟩
    obtain ⟨ts', rfl, htt⟩ := exists_tuple_of_equiv haa
    obtain ⟨us', rfl, huu⟩ := exists_tuple_of_equiv hbb
    cases ha with
    | tuple hts =>
    cases hb with
    | tuple hus =>
    cases ha' with
    | tuple hts' =>
    cases hb' with
    | tuple hus' =>
    exact widening_related.tuple (forall₂_upToEquiv h hts hus hts' hus' htt huu)
  record {fs gs rest rest'} h hid := by
    refine ⟨widening_related.record (fun name => rel_imp (fun _ _ h => h.1) (h name)) hid,
      fun {a' b'} ha hb ha' hb' haa hbb => ?_⟩
    obtain ⟨fs', rest₁, rfl⟩ := exists_record_of_equiv haa
    obtain ⟨gs', rest₂, rfl⟩ := exists_record_of_equiv hbb
    cases ha with
    | record _ hasc hfs =>
    cases hb with
    | record _ hasc' hgs =>
    cases ha' with
    | record _ hasc₁ hfs' =>
    cases hb' with
    | record _ hasc₂ hgs' =>
    obtain ⟨hid₁, hfields₁⟩ := (equiv_record hasc hasc₁).1 haa
    obtain ⟨hid₂, hfields₂⟩ := (equiv_record hasc' hasc₂).1 hbb
    refine widening_related.record (fun name => ?_) (hid₁.symm.trans (hid.trans hid₂))
    exact rel_upToEquiv (h name) (fun t ht => hfs _ (Table.mem_of_get? ht))
      (fun t ht => hgs _ (Table.mem_of_get? ht)) (fun t ht => hfs' _ (Table.mem_of_get? ht))
      (fun t ht => hgs' _ (Table.mem_of_get? ht)) (hfields₁ name) (hfields₂ name)
  alternative {a u us} hne hu h := by
    refine ⟨widening_related.alternative hne hu h.1, fun {a' b'} ha hb ha' hb' haa hbb => ?_⟩
    obtain ⟨us', rfl, -, hus, -⟩ := exists_union_of_equiv hbb
    obtain ⟨u', hu', huu⟩ := hus u hu
    cases hb with
    | union hbs =>
    cases hb' with
    | union hbs' =>
    exact widening_related.alternative (ne_union_of_equiv ha ha' haa hne) hu'
      (h.2 ha (hbs u hu) ha' (hbs' u' hu') haa huu)
  unions {ts us} hts hus := by
    refine ⟨widening_related.unions (fun t ht => (hts t ht).imp fun _ h => ⟨h.1, h.2.1⟩)
      (fun u hu => (hus u hu).imp fun _ h => ⟨h.1, h.2.1⟩), fun {a' b'} ha hb ha' hb' haa hbb => ?_⟩
    obtain ⟨ts', rfl, -, htt, htt'⟩ := exists_union_of_equiv haa
    obtain ⟨us', rfl, -, huu, huu'⟩ := exists_union_of_equiv hbb
    cases ha with
    | union tts =>
    cases hb with
    | union tus =>
    cases ha' with
    | union tts' =>
    cases hb' with
    | union tus' =>
    exact widening_related.unions (exists_upToEquiv hts tts tus tts' tus' htt' huu)
      (exists_upToEquiv hus tus tts tus' tts' huu' htt)

theorem congr (h : Related a b) (ha : a.Tame) (hb : b.Tame) (ha' : a'.Tame) (hb' : b'.Tame)
    (haa : a.form = a'.form) (hbb : b.form = b'.form) : Related a' b' :=
  (h UpToEquiv widening_upToEquiv).2 ha hb ha' hb' ((form_eq_iff ha ha').1 haa)
    ((form_eq_iff hb hb').1 hbb)

/-! ## Unions -/

/-- Types are related, and if one is a union and the other is not, an alternative is. -/
def ByAlternative (a b : Ty) : Prop :=
  Related a b ∧
    ((∀ ts, a ≠ .union ts) → ∀ us, b = .union us → ∃ u ∈ us, Related a u) ∧
    ((∀ us, b ≠ .union us) → ∀ ts, a = .union ts → ∃ t ∈ ts, Related b t)

theorem widening_byAlternative : Widening ByAlternative where
  symm h := ⟨h.1.symm, h.2.2, h.2.1⟩
  equiv {a b} h := by
    refine ⟨widening_related.equiv h, ?_, ?_⟩
    · rintro hne us rfl
      obtain ⟨ts, rfl⟩ := exists_union_of_equiv_union h
      exact absurd rfl (hne ts)
    · rintro hne ts rfl
      obtain ⟨us, rfl, -⟩ := exists_union_of_equiv h
      exact absurd rfl (hne us)
  literal value := ⟨widening_related.literal value, nofun, nofun⟩
  fn hp hr := ⟨widening_related.fn hp.1 hr.1, nofun, nofun⟩
  tuple h := ⟨widening_related.tuple (h.imp fun _ _ h => h.1), nofun, nofun⟩
  record h hid := ⟨widening_related.record (fun name => rel_imp (fun _ _ h => h.1) (h name)) hid,
    nofun, nofun⟩
  alternative hne hu h := ⟨widening_related.alternative hne hu h.1, fun _ us heq => by
    cases heq
    exact ⟨_, hu, h.1⟩, fun h => absurd rfl (h _)⟩
  unions hts hus := ⟨widening_related.unions (fun t ht => (hts t ht).imp fun _ h => ⟨h.1, h.2.1⟩)
      (fun u hu => (hus u hu).imp fun _ h => ⟨h.1, h.2.1⟩),
    fun h => absurd rfl (h _), fun h => absurd rfl (h _)⟩

/-- A type other than a union is related to a type if it is related to one of its alternatives. -/
theorem iff_alternatives (ha : ∀ ts, a ≠ .union ts) (hb : b.Structural row) :
    Related a b ↔ ∃ β ∈ b.alternatives, Related a β := by
  by_cases hu : ∃ us, b = .union us
  · obtain ⟨us, rfl⟩ := hu
    rw [hb.alternatives_union]
    constructor
    · exact fun h => (h ByAlternative widening_byAlternative).2.1 ha us rfl
    · rintro ⟨u, hu, h⟩
      exact widening_related.alternative ha hu h
  · rw [alternatives_eq_self fun us heq => hu ⟨us, heq⟩]
    simp

/-- Types are related if each alternative of the one is related to the other, and the other way
round. -/
theorem of_alternatives (ha : a.Structural row) (hb : b.Structural row)
    (hab : ∀ α ∈ a.alternatives, Related α b) (hba : ∀ β ∈ b.alternatives, Related β a) :
    Related a b := by
  by_cases hau : ∃ ts, a = .union ts
  · obtain ⟨ts, rfl⟩ := hau
    by_cases hbu : ∃ us, b = .union us
    · obtain ⟨us, rfl⟩ := hbu
      rw [ha.alternatives_union] at hab
      rw [hb.alternatives_union] at hba
      refine widening_related.unions (fun t ht => ?_) fun u hu => ?_
      · exact ((hab t ht) ByAlternative widening_byAlternative).2.1 (ha.flat t ht) us rfl
      · exact ((hba u hu) ByAlternative widening_byAlternative).2.1 (hb.flat u hu) ts rfl
    · rw [alternatives_eq_self fun us heq => hbu ⟨us, heq⟩] at hba
      exact (hba b List.mem_cons_self).symm
  · rw [alternatives_eq_self fun ts heq => hau ⟨ts, heq⟩] at hab
    exact hab a List.mem_cons_self

section Substituting

variable (hS : S.Structural row)

include hS

/-- What is related to what an alternative of a union becomes is related to what the union becomes,
unless it is a union. -/
theorem apply_union (ha : a.Structural row) (hne : ∀ ts, a ≠ .union ts)
    (hus : (Ty.union us).Structural row) (hu : u ∈ us) (h : Related a (S.apply u)) :
    Related a (S.apply (.union us)) := by
  have hus' := hus.of_union
  obtain ⟨β, hβ, haβ⟩ := (iff_alternatives hne ((hus' u hu).apply hS)).1 h
  obtain ⟨γ, hγ, hform⟩ := (mem_options_apply hS hus).2
    ⟨u, by rwa [hus.alternatives_union], β, hβ, rfl⟩
  refine (iff_alternatives hne (hus.apply hS)).2 ⟨γ, hγ, ?_⟩
  exact haβ.congr ha.tame (((hus' u hu).apply hS).alternatives β hβ).tame ha.tame
    ((hus.apply hS).alternatives γ hγ).tame rfl hform.symm

/-- A firm union that does not stay one becomes what each of its alternatives becomes. -/
theorem form_apply_alternative (hus : (Ty.union us).Structural row) (hfirm : (Ty.union us).Firm S)
    (hne : ∀ vs, S.apply (.union us) ≠ .union vs) (hu : u ∈ us) :
    (S.apply u).form = (S.apply (.union us)).form := by
  have hmem := form_mem_options_apply hS hus hu (hfirm.apply_ne_union hus hu)
  rwa [options_of_ne_union hne, Set.mem_singleton_iff] at hmem

/-- Where no alternative becomes a union, what they are related to each alternative in the end is
related to. -/
theorem alternatives_apply_union (hts : (Ty.union ts).Structural row)
    (hne : ∀ t ∈ ts, ∀ us, S.apply t ≠ .union us) (hb : b.Structural row)
    (h : ∀ t ∈ ts, Related (S.apply t) b) : ∀ α ∈ (S.apply (.union ts)).alternatives, Related α b := by
  intro α hα
  obtain ⟨t, ht, hmem⟩ := (mem_options_apply hS hts).1 ⟨α, hα, rfl⟩
  rw [hts.alternatives_union] at ht
  rw [options_of_ne_union (hne t ht), Set.mem_singleton_iff] at hmem
  exact (h t ht).congr ((hts.of_union t ht).apply hS).tame hb.tame ((hts.apply hS).alternatives α hα).tame
    hb.tame hmem.symm rfl

/-- Unions are related in the end if each alternative of one is related to the other. -/
theorem apply_unions (hts : (Ty.union ts).Structural row) (hus : (Ty.union us).Structural row)
    (hnet : ∀ t ∈ ts, ∀ vs, S.apply t ≠ .union vs) (hneu : ∀ u ∈ us, ∀ vs, S.apply u ≠ .union vs)
    (htu : ∀ t ∈ ts, Related (S.apply t) (S.apply (.union us)))
    (hut : ∀ u ∈ us, Related (S.apply u) (S.apply (.union ts))) :
    Related (S.apply (.union ts)) (S.apply (.union us)) :=
  of_alternatives (hts.apply hS) (hus.apply hS)
    (alternatives_apply_union hS hts hnet (hus.apply hS) htu)
    (alternatives_apply_union hS hus hneu (hts.apply hS) hut)

/-- Records are related if the fields that they share are, and what is left of them comes to the
same. -/
theorem apply_records {ra rb : RecordTy} (ha : ra.toTy.Structural row) (hb : rb.toTy.Structural row)
    (hshared : ∀ e ∈ ra.sharedFields rb, Related (S.apply e.1) (S.apply e.2))
    (hrest : S.SameRest ra rb) : Related (S.apply ra.toTy) (S.apply rb.toTy) := by
  have hrows : ∀ {r : RecordTy}, r.toTy.Structural row → ∀ v, r.row = some v → row v.id :=
    fun hr => (kinded_record.1 hr.kinded).2
  have htame : ∀ {r : RecordTy}, r.toTy.Structural row → ∀ {name t},
      (S.recordUnder r).field? name = some t → t.Tame := by
    intro r hr name t ht
    have := (hr.apply hS).tame
    rw [S.apply_toTy hS.rows _ (hrows hr)] at this
    cases this with
    | record _ _ htame => exact htame _ (Table.mem_of_get? ht)
  obtain ⟨hid, hforms⟩ := hrest
  rw [S.apply_toTy hS.rows _ (hrows ha), S.apply_toTy hS.rows _ (hrows hb)]
  refine widening_related.record (fun name => ?_) hid
  -- A field that both records have is shared; otherwise both sides are of one form.
  show Option.Rel Related ((S.recordUnder ra).field? name) ((S.recordUnder rb).field? name)
  have hown : ra.field? name = none ∨ rb.field? name = none →
      (S.recordUnder ra).formAt name = (S.recordUnder rb).formAt name := by
    intro hnone
    have hname := hforms name
    rw [RecordTy.get?_own, RecordTy.get?_own] at hname
    rw [S.formAt_recordUnder, S.formAt_recordUnder]
    cases hfa : ra.field? name with
    | none =>
        rw [hfa] at hname
        cases hfb : rb.field? name <;> rw [hfb] at hname <;> exact hname
    | some t =>
        rcases hnone with hnone | hfb
        · rw [hfa] at hnone
          cases hnone
        · rw [hfa, hfb] at hname
          rw [hfb]
          exact hname
  cases hfa : ra.field? name with
  | none => exact rel_of_forms (htame ha) (htame hb) (hown (.inl hfa))
  | some t =>
      cases hfb : rb.field? name with
      | none => exact rel_of_forms (htame ha) (htame hb) (hown (.inr hfb))
      | some u =>
          rw [S.field?_recordUnder, S.field?_recordUnder, hfa, hfb]
          exact .some (hshared (t, u) (RecordTy.mem_sharedFields.2 ⟨name, hfa, hfb⟩))

end Substituting

end Related

end RowTypes
