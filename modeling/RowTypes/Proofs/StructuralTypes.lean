import Mathlib.Data.List.Perm.Subperm
import Mathlib.Data.Set.Insert
import RowTypes.Proofs.Alternatives
import RowTypes.Proofs.Equivalence
import RowTypes.Proofs.SolvedForms

/-!
# Types made of unions, records, functions and tuples

Types without names, recursion and intersections are structural here, if their unions are as they
are built.  A substitution builds unions anew, and alternatives may become equivalent or unions
themselves, so what a union becomes is not a matter of its alternatives one by one.

What stays simple is the set of the forms that its alternatives have.  It determines the form of a
structural type, and building a union unites the sets.  So substituting is seen as a map between
such sets, and all that is used later follows from that: equivalent types stay equivalent, and a
substitution that was extended may be applied once more, or left out.
-/

namespace RowTypes

namespace Ty

/-- Types without names, recursion and intersections.  Rows and other unknowns are kept apart,
records list their fields in order, and unions are as they are built: of two alternatives or more,
none a union and none equivalent to a later one. -/
inductive Structural (row : Int → Prop) : Ty → Prop where
  | var {v : TyVar} : ¬ row v.id → Structural row (.var v)
  | prim (name : String) : Structural row (.prim name)
  | lit (value : String) : Structural row (.lit value)
  | fn {p r : Ty} : Structural row p → Structural row r → Structural row (.fn p r)
  | record {fs : List (String × Ty)} {rest : Option TyVar} : Table.Ascending fs →
      (∀ f ∈ fs, Structural row f.2) → (∀ v, rest = some v → row v.id) →
      Structural row (.record fs rest)
  | tuple {ts : List Ty} : (∀ t ∈ ts, Structural row t) → Structural row (.tuple ts)
  | union {ts : List Ty} : 2 ≤ ts.length → (∀ t ∈ ts, Structural row t) →
      (∀ t ∈ ts, ∀ us, t ≠ .union us) → ts.Pairwise (fun a b => equiv a b = false) →
      Structural row (.union ts)

variable {row : Int → Prop} {a b t : Ty} {ts us : List Ty} {f : Form}

theorem Structural.tame (h : t.Structural row) : t.Tame := by
  induction h with
  | var _ => exact .var _
  | prim name => exact .prim name
  | lit value => exact .lit value
  | fn _ _ ihp ihr => exact .fn ihp ihr
  | record hasc _ _ ih => exact .record _ hasc ih
  | tuple _ ih => exact .tuple ih
  | union _ _ _ _ ih => exact .union ih

theorem Structural.kinded (h : t.Structural row) : t.Kinded (fun id => ¬ row id) row := by
  induction h with
  | var h => exact h
  | prim name => trivial
  | lit value => trivial
  | fn _ _ ihp ihr => exact ⟨ihp, ihr⟩
  | record _ _ hrow ih => exact kinded_record.2 ⟨ih, hrow⟩
  | tuple _ ih => exact kinded_tuple.2 ih
  | union _ _ _ _ ih => exact kinded_union.2 ih

/-- Which numbers are rows matters only for those that occur. -/
theorem Structural.resort {row' : Int → Prop} (h : t.Structural row)
    (hsame : ∀ id, t.Mentions id → (row id ↔ row' id)) : t.Structural row' := by
  induction h with
  | var hv => exact .var fun h => hv ((hsame _ (mentions_var.2 rfl)).2 h)
  | prim name => exact .prim name
  | lit value => exact .lit value
  | fn _ _ ihp ihr =>
      exact .fn (ihp fun id hid => hsame id (mentions_fn.2 (.inl hid)))
        (ihr fun id hid => hsame id (mentions_fn.2 (.inr hid)))
  | record hasc _ hrow ih =>
      refine .record hasc (fun f hf => ih f hf fun id hid => ?_) fun v hv => ?_
      · exact hsame id (mentions_record.2 (.inl ⟨f, hf, hid⟩))
      · exact (hsame _ (mentions_record.2 (.inr ⟨v, hv, rfl⟩))).1 (hrow v hv)
  | tuple _ ih =>
      exact .tuple fun t ht => ih t ht fun id hid => hsame id (mentions_tuple.2 ⟨t, ht, hid⟩)
  | union hlen _ hflat hdistinct ih =>
      refine .union hlen (fun t ht => ih t ht fun id hid => ?_) hflat hdistinct
      exact hsame id (mentions_union.2 ⟨t, ht, hid⟩)

theorem Structural.of_union (h : (Ty.union ts).Structural row) : ∀ t ∈ ts, t.Structural row := by
  cases h with
  | union _ hts _ _ => exact hts

theorem Structural.flat (h : (Ty.union ts).Structural row) : ∀ t ∈ ts, ∀ us, t ≠ .union us := by
  cases h with
  | union _ _ hflat _ => exact hflat

/-! ## Alternatives -/

/-- The alternatives of a union are those of its parts, without repetitions. -/
theorem alternatives_unionOf (ts : List Ty) :
    (unionOf ts).alternatives = distinct (alternativesAll ts) := by
  have hflat : ∀ t ∈ distinct (alternativesAll ts), ∀ us, t ≠ .union us := fun t ht us =>
    ne_union_of_mem_alternativesAll us (mem_distinct ht)
  unfold unionOf unionOf?
  split
  · next h =>
      rw [h]
      rfl
  · next t h =>
      rw [h] at hflat ⊢
      exact alternatives_eq_self (hflat t List.mem_cons_self)
  · exact alternativesAll_eq_self hflat

theorem Structural.alternatives (h : t.Structural row) : ∀ α ∈ t.alternatives, α.Structural row := by
  cases h with
  | union hlen hts hflat hdistinct =>
      show ∀ α ∈ alternativesAll _, α.Structural row
      rwa [alternativesAll_eq_self hflat]
  | _ => exact List.forall_mem_singleton.2 (by constructor <;> assumption)

theorem Structural.alternatives_union (h : (Ty.union ts).Structural row) :
    (Ty.union ts).alternatives = ts := by
  cases h with
  | union _ _ hflat _ => exact alternativesAll_eq_self hflat

theorem Structural.of_alternativesAll (h : ∀ t ∈ ts, t.Structural row) :
    ∀ α ∈ alternativesAll ts, α.Structural row := by
  intro α hα
  obtain ⟨t, ht, hα⟩ := mem_alternativesAll.1 hα
  exact (h t ht).alternatives α hα

theorem Structural.alternatives_ne_nil (h : t.Structural row) : t.alternatives ≠ [] := by
  cases h with
  | union hlen _ hflat _ =>
      show alternativesAll _ ≠ []
      rw [alternativesAll_eq_self hflat]
      rintro rfl
      simp at hlen
  | _ => exact List.cons_ne_nil _ _

/-- Building a union of structural types gives a structural type. -/
theorem structural_unionOf (hne : ts ≠ []) (h : ∀ t ∈ ts, t.Structural row) :
    (unionOf ts).Structural row := by
  have hall : ∀ α ∈ distinct (alternativesAll ts), α.Structural row := fun α hα =>
    Structural.of_alternativesAll h α (mem_distinct hα)
  unfold unionOf unionOf?
  split
  · next hnil =>
      obtain ⟨t, ht⟩ := List.exists_mem_of_ne_nil ts hne
      obtain ⟨α, hα⟩ := List.exists_mem_of_ne_nil _ (h t ht).alternatives_ne_nil
      obtain ⟨β, hβ, -⟩ := exists_mem_distinct (mem_alternativesAll.2 ⟨t, ht, hα⟩)
      rw [hnil] at hβ
      cases hβ
  · next α heq => exact hall α (by rw [heq]; exact List.mem_singleton.2 rfl)
  · next hnil hone =>
      refine .union ?_ hall (fun t ht us => ne_union_of_mem_alternativesAll us (mem_distinct ht))
        (pairwise_distinct _)
      generalize distinct (alternativesAll ts) = ds at hnil hone
      match ds with
      | [] => exact absurd rfl hnil
      | [α] => exact absurd rfl (hone α)
      | _ :: _ :: _ => simp

/-! ## The forms of alternatives -/

/-- The forms that the alternatives of a type have. -/
def options (t : Ty) : Set Form := {f | ∃ α ∈ t.alternatives, α.form = f}

theorem mem_options : f ∈ t.options ↔ ∃ α ∈ t.alternatives, α.form = f := Iff.rfl

theorem options_of_ne_union (h : ∀ us, t ≠ .union us) : t.options = {t.form} := by
  ext f
  rw [mem_options, alternatives_eq_self h]
  simp [eq_comm]

theorem Structural.mem_options_union (h : (Ty.union ts).Structural row) :
    f ∈ (Ty.union ts).options ↔ ∃ t ∈ ts, t.form = f := by
  rw [mem_options, h.alternatives_union]

/-- Building a union unites what there is to choose from. -/
theorem mem_options_unionOf (h : ∀ t ∈ ts, t.Structural row) :
    f ∈ (unionOf ts).options ↔ ∃ t ∈ ts, f ∈ t.options := by
  rw [mem_options, alternatives_unionOf]
  constructor
  · rintro ⟨α, hα, rfl⟩
    obtain ⟨t, ht, hα⟩ := mem_alternativesAll.1 (mem_distinct hα)
    exact ⟨t, ht, α, hα, rfl⟩
  · rintro ⟨t, ht, α, hα, rfl⟩
    have hmem := mem_alternativesAll.2 ⟨t, ht, hα⟩
    obtain ⟨β, hβ, rfl | hβα⟩ := exists_mem_distinct hmem
    · exact ⟨β, hβ, rfl⟩
    · have hβ' := (Structural.of_alternativesAll h β (mem_distinct hβ)).tame
      exact ⟨β, hβ, form_congr hβ' (Structural.of_alternativesAll h α hmem).tame hβα⟩

theorem ne_union_of_equiv (ha : a.Tame) (hb : b.Tame) (h : equiv a b = true)
    (hne : ∀ us, a ≠ .union us) : ∀ us, b ≠ .union us := by
  rintro us rfl
  obtain ⟨vs, rfl, -⟩ := exists_union_of_equiv (equiv_symm ha hb h)
  exact hne vs rfl

theorem nodup_forms (hts : ∀ t ∈ ts, t.Tame) (h : ts.Pairwise fun a b => equiv a b = false) :
    (ts.map form).Nodup := by
  refine List.pairwise_map.2 (List.Pairwise.imp_of_mem (fun {a b} ha hb hab heq => ?_) h)
  cases ((form_eq_iff (hts a ha) (hts b hb)).1 heq).symm.trans hab

/-- Lists without repetitions that have the same forms have the same members. -/
theorem sameMembers_of_forms (hts : ∀ t ∈ ts, t.Tame) (hus : ∀ u ∈ us, u.Tame)
    (hts' : ts.Pairwise fun a b => equiv a b = false)
    (hus' : us.Pairwise fun a b => equiv a b = false)
    (h : ∀ f : Form, (∃ t ∈ ts, t.form = f) ↔ ∃ u ∈ us, u.form = f) : SameMembers ts us := by
  have hsub : ts.map form ⊆ us.map form := fun f hf =>
    List.mem_map.2 ((h f).1 (List.mem_map.1 hf))
  have hsub' : us.map form ⊆ ts.map form := fun f hf =>
    List.mem_map.2 ((h f).2 (List.mem_map.1 hf))
  refine ⟨?_, fun a ha => ?_, fun b hb => ?_⟩
  · have hle := ((nodup_forms hts hts').subperm hsub).length_le
    have hle' := ((nodup_forms hus hus').subperm hsub').length_le
    simp only [List.length_map] at hle hle'
    omega
  · obtain ⟨b, hb, heq⟩ := (h a.form).1 ⟨a, ha, rfl⟩
    exact ⟨b, hb, (form_eq_iff (hts a ha) (hus b hb)).1 heq.symm⟩
  · obtain ⟨a, ha, heq⟩ := (h b.form).2 ⟨b, hb, rfl⟩
    exact ⟨a, ha, (form_eq_iff (hts a ha) (hus b hb)).1 heq⟩

/-- A union of two alternatives or more has more to choose from than any other type. -/
theorem Structural.options_union_ne (h : (Ty.union ts).Structural row) (f : Form) :
    (Ty.union ts).options ≠ {f} := by
  intro heq
  have hmem := fun g => (h.mem_options_union (f := g)).symm.trans (by rw [heq])
  cases h with
  | union hlen hts _ hdistinct =>
      have hnodup := nodup_forms (fun t ht => (hts t ht).tame) hdistinct
      match ts, hlen with
      | t :: u :: _, _ =>
          have ht := (hmem t.form).1 ⟨t, List.mem_cons_self, rfl⟩
          have hu := (hmem u.form).1 ⟨u, List.mem_cons_of_mem _ List.mem_cons_self, rfl⟩
          rw [List.map_cons, List.nodup_cons] at hnodup
          refine hnodup.1 (List.mem_map.2 ⟨u, List.mem_cons_self, ?_⟩)
          exact (Set.mem_singleton_iff.1 hu).trans (Set.mem_singleton_iff.1 ht).symm

/-- The form of a structural type says what there is to choose from, and the other way round. -/
theorem form_eq_iff_options (ha : a.Structural row) (hb : b.Structural row) :
    a.form = b.form ↔ a.options = b.options := by
  rw [form_eq_iff ha.tame hb.tame]
  by_cases hau : ∃ ts, a = .union ts
  · obtain ⟨ts, rfl⟩ := hau
    by_cases hbu : ∃ us, b = .union us
    · obtain ⟨us, rfl⟩ := hbu
      rw [equiv_union, Set.ext_iff]
      simp only [ha.mem_options_union, hb.mem_options_union]
      cases ha with
      | union _ hts _ hdistinct =>
          cases hb with
          | union _ hus _ hdistinct' =>
              constructor
              · rintro ⟨-, h₁, h₂⟩ f
                constructor
                · rintro ⟨t, ht, rfl⟩
                  obtain ⟨u, hu, htu⟩ := h₁ t ht
                  exact ⟨u, hu, ((form_eq_iff (hts t ht).tame (hus u hu).tame).2 htu).symm⟩
                · rintro ⟨u, hu, rfl⟩
                  obtain ⟨t, ht, htu⟩ := h₂ u hu
                  exact ⟨t, ht, (form_eq_iff (hts t ht).tame (hus u hu).tame).2 htu⟩
              · exact sameMembers_of_forms (fun t ht => (hts t ht).tame)
                  (fun u hu => (hus u hu).tame) hdistinct hdistinct'
    · have hbu : ∀ us, b ≠ .union us := fun us h => hbu ⟨us, h⟩
      rw [options_of_ne_union hbu]
      refine ⟨fun h => ?_, fun h => absurd h (ha.options_union_ne _)⟩
      obtain ⟨us, hus, -⟩ := exists_union_of_equiv h
      exact absurd hus (hbu us)
  · have hau : ∀ us, a ≠ .union us := fun us h => hau ⟨us, h⟩
    rw [options_of_ne_union hau]
    constructor
    · intro h
      rw [options_of_ne_union (ne_union_of_equiv ha.tame hb.tame h hau),
        form_congr ha.tame hb.tame h]
    · intro h
      have hbu : ∀ us, b ≠ .union us := by
        rintro us rfl
        exact hb.options_union_ne _ h.symm
      rw [options_of_ne_union hbu, Set.singleton_eq_singleton_iff] at h
      exact (form_eq_iff ha.tame hb.tame).1 h

end Ty

end RowTypes
