import RowTypes.Proofs.StructuralTypes

/-!
# Types as they are built

Records list their fields in order, and the constructors of unions and intersections leave neither
nested ones nor repetitions behind.  Substituting builds anew what it changes, so types stay as they
are built, and a type none of whose unknowns is bound stays the same.

What a union becomes is a matter of the forms of its alternatives, and what an intersection becomes
of the forms of its members.  Intersections may stand among the alternatives of a union and the
other way round, and a union of one alternative is that alternative; so of any type both the
alternatives and the members are looked at.  Since both work the same way, they are dealt with
together, as the two kinds of compounds.  It follows that the form of a type under a substitution
depends on the forms of what is put in, and on nothing else.
-/

namespace RowTypes

open Ty

/-- Unions and intersections. -/
inductive Compound where
  | union
  | inter

namespace Compound

/-- The compound of some types, as it stands. -/
def of : Compound → List Ty → Ty
  | union => .union
  | inter => .inter

/-- The compound of some types, as its constructor builds it. -/
def build : Compound → List Ty → Ty
  | union => unionOf
  | inter => interOf

/-- What a type consists of as a compound. -/
def parts : Compound → Ty → List Ty
  | union => alternatives
  | inter => membersOf

/-- The forms of what a type consists of. -/
def forms (k : Compound) (t : Ty) : Set Form := {f | ∃ α ∈ k.parts t, α.form = f}

variable {k : Compound} {a b t : Ty} {as bs ts us : List Ty} {f : Form} {Q : Ty → Prop}

theorem mem_forms : f ∈ k.forms t ↔ ∃ α ∈ k.parts t, α.form = f := Iff.rfl

theorem parts_of (k : Compound) (ts : List Ty) : k.parts (k.of ts) = ts.flatMap k.parts := by
  cases k with
  | union =>
      show alternativesAll ts = ts.flatMap alternatives
      induction ts with
      | nil => rfl
      | cons t ts ih => rw [alternativesAll, ih, List.flatMap_cons]
  | inter =>
      show membersOfAll ts = ts.flatMap membersOf
      induction ts with
      | nil => rfl
      | cons t ts ih => rw [membersOfAll, ih, List.flatMap_cons]

theorem parts_of_ne (h : ∀ us, t ≠ k.of us) : k.parts t = [t] := by
  cases k with
  | union => exact alternatives_eq_self h
  | inter =>
      cases t with
      | inter us => exact absurd rfl (h us)
      | _ => rfl

/-- What a property that compounds pass on holds of, it holds of the parts of. -/
theorem of_mem_parts (hQ : ∀ ts, Q (k.of ts) → ∀ t ∈ ts, Q t) (ht : Q t) (ha : a ∈ k.parts t) :
    Q a := by
  cases k with
  | union => exact of_mem_alternatives hQ ht ha
  | inter => exact of_mem_membersOf hQ ht ha

mutual

theorem ne_inter_of_mem_membersOf (us : List Ty) : ∀ {t : Ty}, a ∈ t.membersOf → a ≠ .inter us
  | .inter _, h => ne_inter_of_mem_membersOfAll us h
  | .var _, h | .prim _, h | .lit _, h | .fn _ _, h | .record _ _, h | .tuple _, h | .union _, h
  | .named _ _, h | .mu _ _, h => by
      rw [List.mem_singleton.1 h]
      exact nofun

theorem ne_inter_of_mem_membersOfAll (us : List Ty) : ∀ {ts : List Ty}, a ∈ membersOfAll ts →
    a ≠ .inter us
  | t :: ts, h => by
      rw [membersOfAll] at h
      rcases List.mem_append.1 h with h | h
      · exact ne_inter_of_mem_membersOf us h
      · exact ne_inter_of_mem_membersOfAll us h

end

theorem ne_of_mem_parts (us : List Ty) (h : a ∈ k.parts t) : a ≠ k.of us := by
  cases k with
  | union => exact ne_union_of_mem_alternatives us h
  | inter => exact ne_inter_of_mem_membersOf us h

theorem flatMap_parts_eq_self (h : ∀ t ∈ ts, ∀ us, t ≠ k.of us) : ts.flatMap k.parts = ts := by
  induction ts with
  | nil => rfl
  | cons t ts ih =>
      obtain ⟨ht, hts⟩ := List.forall_mem_cons.1 h
      rw [List.flatMap_cons, parts_of_ne ht, ih hts, List.singleton_append]

/-- Some types put together, unless there is only one. -/
def together (k : Compound) : List Ty → Ty
  | [t] => t
  | ts => k.of ts

theorem together_of_length_ne (h : ts.length ≠ 1) : k.together ts = k.of ts := by
  match ts, h with
  | [], _ => rfl
  | _ :: _ :: _, _ => rfl

theorem build_eq (k : Compound) (ts : List Ty) :
    k.build ts = k.together (distinct (ts.flatMap k.parts)) := by
  rw [← parts_of]
  cases k with
  | union =>
      show ((unionOf? ts).getD (.union []) : Ty) = together union (distinct (alternativesAll ts))
      rw [unionOf?]
      generalize distinct (alternativesAll ts) = ds
      rcases ds with _ | ⟨_, _ | _⟩ <;> rfl
  | inter =>
      show ((interOf? ts).getD (.inter []) : Ty) = together inter (distinct (membersOfAll ts))
      rw [interOf?]
      generalize distinct (membersOfAll ts) = ds
      rcases ds with _ | ⟨_, _ | _⟩ <;> rfl

/-- Parts that are no compounds of the kind, each different from the others, are put together as
they are, unless there is only one. -/
theorem build_eq_of (hlen : ts.length ≠ 1) (hflat : ∀ t ∈ ts, ∀ us, t ≠ k.of us)
    (hdistinct : ts.Pairwise fun a b => equiv a b = false) : k.build ts = k.of ts := by
  rw [build_eq, flatMap_parts_eq_self hflat, distinct_eq_self hdistinct,
    together_of_length_ne hlen]

theorem equiv_of_iff : equiv (k.of as) b = true ↔ ∃ bs, b = k.of bs ∧ SameMembers as bs := by
  constructor
  · intro h
    cases k with
    | union => exact exists_union_of_equiv h
    | inter => exact exists_inter_of_equiv h
  · rintro ⟨bs, rfl, h⟩
    cases k with
    | union => exact equiv_union.2 h
    | inter => exact equiv_inter.2 h

theorem tame_of_iff : (k.of ts).Tame ↔ ∀ t ∈ ts, t.Tame := by
  cases k with
  | union => exact ⟨fun h => by cases h with | union h => exact h, .union⟩
  | inter => exact ⟨fun h => by cases h with | inter h => exact h, .inter⟩

/-- A property that compounds have if their parts do is passed on to what is built. -/
theorem build_induction (hQ : ∀ ts, (ts.length ≠ 1) → (∀ t ∈ ts, Q t) →
    (∀ t ∈ ts, ∀ us, t ≠ k.of us) → ts.Pairwise (fun a b => equiv a b = false) → Q (k.of ts))
    (h : ∀ t ∈ ts, ∀ a ∈ k.parts t, Q a) : Q (k.build ts) := by
  have hall : ∀ a ∈ distinct (ts.flatMap k.parts), Q a ∧ ∀ us, a ≠ k.of us := by
    intro a ha
    obtain ⟨t, ht, ha⟩ := List.mem_flatMap.1 (mem_distinct ha)
    exact ⟨h t ht a ha, fun us => ne_of_mem_parts us ha⟩
  rw [build_eq]
  by_cases hlen : (distinct (ts.flatMap k.parts)).length = 1
  · obtain ⟨t, ht⟩ := List.length_eq_one_iff.1 hlen
    rw [ht] at hall ⊢
    exact (hall t (List.mem_singleton.2 rfl)).1
  · rw [together_of_length_ne hlen]
    exact hQ _ hlen (fun t ht => (hall t ht).1) (fun t ht => (hall t ht).2) (pairwise_distinct _)

/-! ## The forms of the parts -/

theorem mem_forms_of : f ∈ k.forms (k.of ts) ↔ ∃ t ∈ ts, f ∈ k.forms t := by
  simp only [mem_forms, parts_of, List.mem_flatMap]
  exact ⟨fun ⟨α, ⟨t, ht, hα⟩, h⟩ => ⟨t, ht, α, hα, h⟩, fun ⟨t, ht, α, hα, h⟩ => ⟨α, ⟨t, ht, hα⟩, h⟩⟩

theorem forms_of_ne (h : ∀ us, t ≠ k.of us) : k.forms t = {t.form} := by
  ext f
  rw [mem_forms, parts_of_ne h]
  simp [eq_comm]

/-- Leaving repetitions out does not change which forms there are. -/
theorem exists_mem_distinct_form (h : ∀ t ∈ ts, t.Tame) :
    (∃ t ∈ distinct ts, t.form = f) ↔ ∃ t ∈ ts, t.form = f := by
  constructor
  · rintro ⟨t, ht, hf⟩
    exact ⟨t, mem_distinct ht, hf⟩
  · rintro ⟨t, ht, rfl⟩
    obtain ⟨u, hu, rfl | hut⟩ := exists_mem_distinct ht
    · exact ⟨u, hu, rfl⟩
    · exact ⟨u, hu, form_congr (h u (mem_distinct hu)) (h t ht) hut⟩

theorem tame_of_mem_parts (h : ∀ t ∈ ts, t.Tame) : ∀ a ∈ ts.flatMap k.parts, a.Tame := by
  intro a ha
  obtain ⟨t, ht, ha⟩ := List.mem_flatMap.1 ha
  exact of_mem_parts (fun _ => tame_of_iff.1) (h t ht) ha

/-- The form of what is built is determined by the forms of the parts. -/
theorem form_build_congr (has : ∀ a ∈ as, a.Tame) (hbs : ∀ b ∈ bs, b.Tame)
    (h : ∀ f : Form, (∃ a ∈ as, f ∈ k.forms a) ↔ ∃ b ∈ bs, f ∈ k.forms b) :
    (k.build as).form = (k.build bs).form := by
  have has' := tame_of_mem_parts (k := k) has
  have hbs' := tame_of_mem_parts (k := k) hbs
  have hforms : ∀ f : Form, (∃ a ∈ distinct (as.flatMap k.parts), a.form = f) ↔
      ∃ b ∈ distinct (bs.flatMap k.parts), b.form = f := by
    intro f
    rw [exists_mem_distinct_form has', exists_mem_distinct_form hbs', ← parts_of, ← parts_of]
    exact mem_forms_of.trans ((h f).trans mem_forms_of.symm)
  have has := fun a ha => has' a (mem_distinct ha)
  have hbs := fun b hb => hbs' b (mem_distinct hb)
  have hsame := sameMembers_of_forms has hbs (pairwise_distinct _) (pairwise_distinct _) hforms
  rw [build_eq, build_eq]
  generalize distinct (as.flatMap k.parts) = as at has hforms hsame ⊢
  generalize distinct (bs.flatMap k.parts) = bs at hbs hforms hsame ⊢
  by_cases hlen : as.length = 1
  · obtain ⟨a, rfl⟩ := List.length_eq_one_iff.1 hlen
    obtain ⟨b, rfl⟩ := List.length_eq_one_iff.1 (hsame.1 ▸ hlen)
    obtain ⟨_, hmem, heq⟩ := (hforms a.form).1 ⟨a, List.mem_singleton.2 rfl, rfl⟩
    rw [List.mem_singleton.1 hmem] at heq
    exact heq.symm
  · rw [together_of_length_ne hlen, together_of_length_ne (hsame.1 ▸ hlen)]
    exact (form_eq_iff (tame_of_iff.2 has) (tame_of_iff.2 hbs)).2 (equiv_of_iff.2 ⟨bs, rfl, hsame⟩)

/-- Building a compound unites the forms of the parts. -/
theorem mem_forms_build (h : ∀ t ∈ ts, t.Tame) :
    f ∈ k.forms (k.build ts) ↔ ∃ t ∈ ts, f ∈ k.forms t := by
  have hall : ∀ a ∈ distinct (ts.flatMap k.parts), k.forms a = {a.form} := by
    intro a ha
    obtain ⟨t, -, ha⟩ := List.mem_flatMap.1 (mem_distinct ha)
    exact forms_of_ne fun us => ne_of_mem_parts us ha
  have hbuilt : f ∈ k.forms (k.together (distinct (ts.flatMap k.parts))) ↔
      ∃ a ∈ distinct (ts.flatMap k.parts), a.form = f := by
    generalize distinct (ts.flatMap k.parts) = as at hall ⊢
    by_cases hlen : as.length = 1
    · obtain ⟨a, rfl⟩ := List.length_eq_one_iff.1 hlen
      show f ∈ k.forms a ↔ _
      rw [hall a (List.mem_singleton.2 rfl)]
      simp [eq_comm]
    · rw [together_of_length_ne hlen, mem_forms_of]
      refine exists_congr fun a => and_congr_right fun ha => ?_
      rw [hall a ha, Set.mem_singleton_iff, eq_comm]
  rw [build_eq, hbuilt, exists_mem_distinct_form (tame_of_mem_parts h), ← parts_of]
  exact mem_forms_of

/-- Types of one form have parts of the same forms. -/
theorem forms_congr (ha : a.Tame) : ∀ {b : Ty}, b.Tame → a.form = b.form →
    k.forms a = k.forms b := by
  induction hn : a.height using Nat.strong_induction_on generalizing a with
  | _ n ih =>
      intro b hb h
      have heq := (form_eq_iff ha hb).1 h
      by_cases hk : ∃ as, a = k.of as
      · obtain ⟨as, rfl⟩ := hk
        obtain ⟨bs, rfl, hsame⟩ := equiv_of_iff.1 heq
        have has := tame_of_iff.1 ha
        have hbs := tame_of_iff.1 hb
        have hmem : ∀ a ∈ as, ∀ b ∈ bs, equiv a b = true → k.forms a = k.forms b := by
          intro a hmem b hb heq
          refine ih _ (hn ▸ ?_) (has a hmem) rfl (hbs b hb) (form_congr (has a hmem) (hbs b hb) heq)
          cases k with
          | union => exact height_lt_union hmem
          | inter => exact height_lt_inter hmem
        ext f
        rw [mem_forms_of, mem_forms_of]
        refine Matched.exists_iff (Matched.mono hsame fun a ha b hb heq => ?_)
        rw [hmem a ha b hb heq]
      · have hne : ∀ us, a ≠ k.of us := fun us h => hk ⟨us, h⟩
        have hneb : ∀ us, b ≠ k.of us := by
          rintro us rfl
          obtain ⟨vs, rfl, -⟩ := equiv_of_iff.1 (equiv_symm ha hb heq)
          exact hne vs rfl
        rw [forms_of_ne hne, forms_of_ne hneb, h]

theorem form_build_of_matched (has : ∀ a ∈ as, a.Tame) (hbs : ∀ b ∈ bs, b.Tame)
    (h : Matched (fun a b => a.form = b.form) as bs) : (k.build as).form = (k.build bs).form := by
  refine form_build_congr has hbs fun f => (h.mono fun a ha b hb heq => ?_).exists_iff
  rw [forms_congr (has a ha) (hbs b hb) heq]

end Compound

namespace Ty

variable {M : Prop} {a b t u : Ty} {ts us : List Ty} {P : Int → Prop} {s s' : Subst}

/-- Types as they are built; recursive types are among them, or not. -/
inductive Built (M : Prop) : Ty → Prop where
  | var (v : TyVar) : Built M (.var v)
  | prim (name : String) : Built M (.prim name)
  | lit (value : String) : Built M (.lit value)
  | fn {p r : Ty} : Built M p → Built M r → Built M (.fn p r)
  | record {fs : List (String × Ty)} (row : Option TyVar) : Table.Ascending fs →
      (∀ f ∈ fs, Built M f.2) → Built M (.record fs row)
  | tuple {ts : List Ty} : (∀ t ∈ ts, Built M t) → Built M (.tuple ts)
  | union {ts : List Ty} : ts.length ≠ 1 → (∀ t ∈ ts, Built M t) → (∀ t ∈ ts, ∀ us, t ≠ .union us) →
      ts.Pairwise (fun a b => equiv a b = false) → Built M (.union ts)
  | inter {ts : List Ty} : ts.length ≠ 1 → (∀ t ∈ ts, Built M t) → (∀ t ∈ ts, ∀ us, t ≠ .inter us) →
      ts.Pairwise (fun a b => equiv a b = false) → Built M (.inter ts)
  | named (name : String) {ts : List Ty} : (∀ t ∈ ts, Built M t) → Built M (.named name ts)
  | mu (v : TyVar) {t : Ty} : M → Built M t → Built M (.mu v t)

/-- Types without recursion, as they are built. -/
abbrev Plain : Ty → Prop := Built False

theorem Built.tame (h : t.Plain) : t.Tame := by
  induction h with
  | var v => exact .var v
  | prim name => exact .prim name
  | lit value => exact .lit value
  | fn _ _ ihp ihr => exact .fn ihp ihr
  | record row hasc _ ih => exact .record row hasc ih
  | tuple _ ih => exact .tuple ih
  | union _ _ _ _ ih => exact .union ih
  | inter _ _ _ _ ih => exact .inter ih
  | named name _ ih => exact .named name ih
  | mu _ h => exact h.elim

theorem Built.plain (h : t.Built M) (ht : t.Tame) : t.Plain := by
  induction h with
  | var v => exact .var v
  | prim name => exact .prim name
  | lit value => exact .lit value
  | fn _ _ ihp ihr =>
      cases ht with
      | fn hp hr => exact .fn (ihp hp) (ihr hr)
  | record row hasc _ ih =>
      cases ht with
      | record _ _ hfs => exact .record row hasc fun f hf => ih f hf (hfs f hf)
  | tuple _ ih =>
      cases ht with
      | tuple hts => exact .tuple fun t ht => ih t ht (hts t ht)
  | union hlen _ hflat hdistinct ih =>
      cases ht with
      | union hts => exact .union hlen (fun t ht => ih t ht (hts t ht)) hflat hdistinct
  | inter hlen _ hflat hdistinct ih =>
      cases ht with
      | inter hts => exact .inter hlen (fun t ht => ih t ht (hts t ht)) hflat hdistinct
  | named name _ ih =>
      cases ht with
      | named _ hts => exact .named name fun t ht => ih t ht (hts t ht)
  | mu _ _ _ _ => cases ht

theorem Built.mono {N : Prop} (h : t.Built M) (hMN : M → N) : t.Built N := by
  induction h with
  | var v => exact .var v
  | prim name => exact .prim name
  | lit value => exact .lit value
  | fn _ _ ihp ihr => exact .fn ihp ihr
  | record row hasc _ ih => exact .record row hasc ih
  | tuple _ ih => exact .tuple ih
  | union hlen _ hflat hdistinct ih => exact .union hlen ih hflat hdistinct
  | inter hlen _ hflat hdistinct ih => exact .inter hlen ih hflat hdistinct
  | named name _ ih => exact .named name ih
  | mu v h _ ih => exact .mu v (hMN h) ih

theorem built_of_iff {k : Compound} : (k.of ts).Built M ↔ ts.length ≠ 1 ∧ (∀ t ∈ ts, t.Built M) ∧
    (∀ t ∈ ts, ∀ us, t ≠ k.of us) ∧ ts.Pairwise fun a b => equiv a b = false := by
  constructor
  · intro h
    cases k with
    | union => cases h with | union hlen hts hflat hdistinct => exact ⟨hlen, hts, hflat, hdistinct⟩
    | inter => cases h with | inter hlen hts hflat hdistinct => exact ⟨hlen, hts, hflat, hdistinct⟩
  · rintro ⟨hlen, hts, hflat, hdistinct⟩
    cases k with
    | union => exact .union hlen hts hflat hdistinct
    | inter => exact .inter hlen hts hflat hdistinct

theorem built_build {k : Compound} (h : ∀ t ∈ ts, t.Built M) : (k.build ts).Built M :=
  Compound.build_induction (fun _ hlen hts hflat hdistinct =>
    built_of_iff.2 ⟨hlen, hts, hflat, hdistinct⟩) fun t ht _ =>
      Compound.of_mem_parts (fun _ h => (built_of_iff.1 h).2.1) (h t ht)

/-- A compound that is as it is built does not change if it is built again. -/
theorem Built.build_eq {k : Compound} (h : (k.of ts).Built M) : k.build ts = k.of ts := by
  obtain ⟨hlen, -, hflat, hdistinct⟩ := built_of_iff.1 h
  exact Compound.build_eq_of hlen hflat hdistinct

theorem Built.stable (h : t.Built M) : t.Stable := by
  induction h with
  | var v => exact .var v
  | prim name => exact .prim name
  | lit value => exact .lit value
  | fn _ _ ihp ihr => exact .fn ihp ihr
  | record row _ _ ih => exact .record row ih
  | tuple _ ih => exact .tuple ih
  | union hlen _ hflat hdistinct ih =>
      exact .union (Compound.build_eq_of (k := .union) hlen hflat hdistinct) ih
  | inter hlen _ hflat hdistinct ih =>
      exact .inter (Compound.build_eq_of (k := .inter) hlen hflat hdistinct) ih
  | named name _ ih => exact .named name ih
  | mu v _ _ ih => exact .mu v ih

end Ty

/-! ## Substituting -/

section Substituting

variable {M : Prop} {a b t u : Ty} {ts us as bs : List Ty} {fs gs : List (String × Ty)}
  {s s' : Subst} {k : Compound}

theorem Subst.apply_of (h : s.isEmpty = false) : s.apply (k.of ts) = k.build (ts.map s.apply) := by
  cases k with
  | union => exact apply_union h ts
  | inter => exact apply_inter h ts

theorem Ty.Built.apply_of (h : (k.of ts).Built M) :
    s.apply (k.of ts) = k.build (ts.map s.apply) := by
  cases hs : s.isEmpty with
  | true => rw [Subst.apply_of_isEmpty hs, Subst.map_apply_of_isEmpty hs, h.build_eq]
  | false => exact Subst.apply_of hs

theorem built_splice {row : TyVar} {bound : Option Ty} (hasc : Table.Ascending fs)
    (hfs : ∀ f ∈ fs, f.2.Built M) (hbound : ∀ u, bound = some u → u.Built M) :
    (RecordTy.splice fs row bound).toTy.Built M := by
  refine .record _ (RecordTy.ascending_splice hasc) fun f hf => ?_
  obtain hf | ⟨more, rest, hb, hf⟩ := RecordTy.mem_fields_splice hf
  · exact hfs f hf
  · cases hbound _ hb with
    | record _ _ hmore => exact hmore f hf

/-- Substituting keeps types as they are built. -/
theorem Ty.Built.apply (h : t.Built M) : ∀ {s : Subst},
    (∀ id u, s.get? id = some u → u.Built M) → (s.apply t).Built M := by
  have hof : ∀ {k : Compound} {ts : List Ty}, (k.of ts).Built M →
      (∀ t ∈ ts, ∀ {s : Subst}, (∀ id u, s.get? id = some u → u.Built M) → (s.apply t).Built M) →
      ∀ {s : Subst}, (∀ id u, s.get? id = some u → u.Built M) → (s.apply (k.of ts)).Built M := by
    intro k ts h ih s hs
    rw [h.apply_of]
    exact built_build (List.forall_mem_map.2 fun t ht => ih t ht hs)
  induction h with
  | var v =>
      intro s hs
      rw [Subst.apply_var]
      cases hv : s.get? v.id with
      | none => exact .var v
      | some u => exact hs v.id u hv
  | prim name => intro s _; rw [Subst.apply_prim]; exact .prim name
  | lit value => intro s _; rw [Subst.apply_lit]; exact .lit value
  | fn _ _ ihp ihr => intro s hs; rw [Subst.apply_fn]; exact .fn (ihp hs) (ihr hs)
  | @record fs row hasc _ ih =>
      intro s hs
      have hfs : ∀ f ∈ fs.map fun f => (f.1, s.apply f.2), f.2.Built M :=
        List.forall_mem_map.2 fun f hf => ih f hf hs
      cases row with
      | none => rw [Subst.apply_closed]; exact .record none (hasc.map s.apply) hfs
      | some row =>
          rw [Subst.apply_open]
          exact built_splice (hasc.map s.apply) hfs fun u hu => hs row.id u hu
  | tuple _ ih =>
      intro s hs
      rw [Subst.apply_tuple]
      exact .tuple (List.forall_mem_map.2 fun t ht => ih t ht hs)
  | union hlen hts hflat hdistinct ih =>
      exact hof (k := .union) (.union hlen hts hflat hdistinct) ih
  | inter hlen hts hflat hdistinct ih =>
      exact hof (k := .inter) (.inter hlen hts hflat hdistinct) ih
  | named name _ ih =>
      intro s hs
      rw [Subst.apply_named]
      exact .named name (List.forall_mem_map.2 fun t ht => ih t ht hs)
  | mu v hM _ ih =>
      intro s hs
      rw [Subst.apply_mu]
      refine .mu v hM (ih fun id u hu => ?_)
      rw [Subst.get?_erase] at hu
      split at hu
      · cases hu
      · exact hs id u hu

/-! ## What is put in counts by its form -/

/-- Splicing what has one form into records whose fields have the same forms. -/
theorem form_splice_congr {row row' : TyVar} {x y : Option Ty} (hrow : row.id = row'.id)
    (hfs : Table.Ascending fs) (hgs : Table.Ascending gs) (hfs' : ∀ f ∈ fs, f.2.Tame)
    (hgs' : ∀ g ∈ gs, g.2.Tame) (hx : ∀ u, x = some u → u.Tame) (hy : ∀ u, y = some u → u.Tame)
    (hnames : ∀ name, (Table.get? name fs).map form = (Table.get? name gs).map form)
    (h : x.map form = y.map form) :
    (RecordTy.splice fs row x).toTy.form = (RecordTy.splice gs row' y).toTy.form := by
  have hstay : (Ty.record fs (some row)).form = (Ty.record gs (some row')).form :=
    (form_record (.record _ hfs hfs') (.record _ hgs hgs')).2 ⟨congrArg some hrow, hnames⟩
  match x, y, h with
  | none, none, _ => exact hstay
  | some u, some w, h =>
      have hu := hx u rfl
      have hw := hy w rfl
      have heq := (form_eq_iff hu hw).1 (Option.some.inj h)
      cases hu with
      | var v =>
          obtain ⟨v', rfl, hid⟩ := exists_var_of_equiv heq
          refine (form_record (.record _ hfs hfs') (.record _ hgs hgs')).2 ⟨?_, hnames⟩
          exact congrArg some hid
      | @record more rest hasc hmore =>
          obtain ⟨more', rest', rfl⟩ := exists_record_of_equiv heq
          cases hw with
          | record _ hasc' hmore' =>
              obtain ⟨hid, hrel⟩ := (form_record (.record _ hasc hmore) (.record _ hasc' hmore')).1
                (Option.some.inj h)
              have htame : ∀ {gs more : List (String × Ty)}, (∀ g ∈ gs, g.2.Tame) →
                  (∀ g ∈ more, g.2.Tame) → ∀ g ∈ Table.underlay gs more, g.2.Tame :=
                fun hgs hmore g hg => (Table.mem_underlay hg).elim (hgs g) (hmore g)
              refine (form_record (.record _ hfs.underlay (htame hfs' hmore))
                (.record _ hgs.underlay (htame hgs' hmore'))).2 ⟨hid, fun name => ?_⟩
              rw [Table.get?_underlay, Table.get?_underlay, Option.map_or, Option.map_or,
                hnames, hrel]
      | _ => cases hw <;> first | exact hstay | simp [equiv, equivUnder] at heq

theorem form_named {name : String} (has : ∀ a ∈ as, a.Tame) (hbs : ∀ b ∈ bs, b.Tame) :
    (Ty.named name as).form = (Ty.named name bs).form ↔ as.map form = bs.map form := by
  rw [form_eq_iff (.named _ has) (.named _ hbs), equiv_named, forall₂_equiv_iff has hbs]
  simp

section Applying

variable (hs : ∀ id u, s.get? id = some u → u.Plain)

include hs

/-- Equivalent types stay equivalent under substitutions that put in types of the same forms. -/
theorem Ty.equiv_apply_congr (ht : t.Plain) (hs' : ∀ id u, s'.get? id = some u → u.Plain)
    (hsame : ∀ id, (s.get? id).map form = (s'.get? id).map form) : ∀ {u : Ty}, u.Plain →
    equiv t u = true → equiv (s.apply t) (s'.apply u) = true := by
  have hmap : ∀ {ts us : List Ty},
      List.Forall₂ (fun t u => equiv (s.apply t) (s'.apply u) = true) ts us →
      List.Forall₂ (fun a b => equiv a b = true) (ts.map s.apply) (us.map s'.apply) := fun h =>
    List.forall₂_map_left_iff.2 (List.forall₂_map_right_iff.2 h)
  have hof : ∀ {k : Compound} {ts : List Ty}, (k.of ts).Plain →
      (∀ t ∈ ts, ∀ {u : Ty}, u.Plain → equiv t u = true →
        equiv (s.apply t) (s'.apply u) = true) → ∀ {u : Ty}, u.Plain → equiv (k.of ts) u = true →
      equiv (s.apply (k.of ts)) (s'.apply u) = true := by
    intro k ts ht ih u hu heq
    obtain ⟨us, rfl, hmembers⟩ := Compound.equiv_of_iff.1 heq
    have hts : ∀ t ∈ ts, (s.apply t).Tame := fun t h => (((built_of_iff.1 ht).2.1 t h).apply hs).tame
    have hus' := (built_of_iff.1 hu).2.1
    have hus : ∀ u ∈ us, (s'.apply u).Tame := fun u h => ((hus' u h).apply hs').tame
    refine (form_eq_iff (ht.apply hs).tame (hu.apply hs').tame).1 ?_
    rw [ht.apply_of, hu.apply_of]
    refine Compound.form_build_of_matched (List.forall_mem_map.2 hts) (List.forall_mem_map.2 hus)
      (Matched.map (Matched.mono hmembers fun t ht u hu heq => ?_))
    exact form_congr (hts t ht) (hus u hu) (ih t ht (hus' u hu) heq)
  induction ht with
  | var v =>
      intro u _ heq
      obtain ⟨w, rfl, hid⟩ := exists_var_of_equiv heq
      have hw := hsame w.id
      rw [Subst.apply_var, Subst.apply_var, hid]
      match ha : s.get? w.id, hb : s'.get? w.id with
      | none, none => exact heq
      | some a, some b =>
          rw [ha, hb] at hw
          exact (form_eq_iff (hs _ a ha).tame (hs' _ b hb).tame).1 (Option.some.inj hw)
      | none, some b | some a, none =>
          rw [ha, hb] at hw
          nomatch hw
  | prim name =>
      intro u _ heq
      rw [eq_prim_of_equiv heq, Subst.apply_prim, Subst.apply_prim]
      exact Sorted.equiv_self (.prim name)
  | lit value =>
      intro u _ heq
      rw [eq_lit_of_equiv heq, Subst.apply_lit, Subst.apply_lit]
      exact Sorted.equiv_self (.lit value)
  | fn _ _ ihp ihr =>
      intro u hu heq
      obtain ⟨p', r', rfl, h, h'⟩ := exists_fn_of_equiv heq
      cases hu with
      | fn hp' hr' =>
          rw [Subst.apply_fn, Subst.apply_fn]
          exact equiv_fn.2 ⟨ihp hp' h, ihr hr' h'⟩
  | @record fs row hasc hfs ih =>
      intro u hu heq
      obtain ⟨gs, row', rfl⟩ := exists_record_of_equiv heq
      have ht : (Ty.record fs row).Plain := .record row hasc hfs
      cases hu with
      | record _ hasc' hgs =>
          have hu : (Ty.record gs row').Plain := .record row' hasc' hgs
          obtain ⟨hrow, hnames⟩ := (equiv_record hasc hasc').1 heq
          have hrel : ∀ name, Option.Rel (fun a b => equiv a b = true)
              (Table.get? name (fs.map fun f => (f.1, s.apply f.2)))
              (Table.get? name (gs.map fun g => (g.1, s'.apply g.2))) := by
            intro name
            rw [Table.get?_map, Table.get?_map]
            exact rel_map (hnames name) fun a b ha hb h =>
              ih _ (Table.mem_of_get? ha) (hgs _ (Table.mem_of_get? hb)) h
          cases row with
          | none =>
              obtain rfl : row' = none := Option.map_eq_none_iff.1 hrow.symm
              rw [Subst.apply_closed, Subst.apply_closed]
              exact (equiv_record (hasc.map s.apply) (hasc'.map s'.apply)).2 ⟨rfl, hrel⟩
          | some v =>
              obtain ⟨w, rfl, hid⟩ := Option.map_eq_some_iff.1 hrow.symm
              have hid : v.id = w.id := hid.symm
              have hfs' : ∀ f ∈ fs.map fun f => (f.1, s.apply f.2), f.2.Tame :=
                List.forall_mem_map.2 fun f hf => ((hfs f hf).apply hs).tame
              have hgs' : ∀ g ∈ gs.map fun g => (g.1, s'.apply g.2), g.2.Tame :=
                List.forall_mem_map.2 fun g hg => ((hgs g hg).apply hs').tame
              refine (form_eq_iff (ht.apply hs).tame (hu.apply hs').tame).1 ?_
              rw [Subst.apply_open, Subst.apply_open]
              refine form_splice_congr hid (hasc.map s.apply) (hasc'.map s'.apply) hfs' hgs'
                (fun u hu => (hs _ u hu).tame) (fun u hu => (hs' _ u hu).tame) (fun name => ?_)
                (hid ▸ hsame v.id)
              exact (rel_equiv_iff (fun t ht => hfs' _ (Table.mem_of_get? ht))
                fun t ht => hgs' _ (Table.mem_of_get? ht)).1 (hrel name)
  | tuple _ ih =>
      intro u hu heq
      obtain ⟨us, rfl, helems⟩ := exists_tuple_of_equiv heq
      cases hu with
      | tuple hus =>
          rw [Subst.apply_tuple, Subst.apply_tuple]
          exact equiv_tuple.2 (hmap (forall₂_imp helems fun t ht u hu => ih t ht (hus u hu)))
  | union hlen hts hflat hdistinct ih =>
      exact hof (k := .union) (.union hlen hts hflat hdistinct) ih
  | inter hlen hts hflat hdistinct ih =>
      exact hof (k := .inter) (.inter hlen hts hflat hdistinct) ih
  | named name _ ih =>
      intro u hu heq
      obtain ⟨us, rfl, hargs⟩ := exists_named_of_equiv heq
      cases hu with
      | named _ hus =>
          rw [Subst.apply_named, Subst.apply_named]
          exact equiv_named.2 ⟨rfl, hmap (forall₂_imp hargs fun t ht u hu => ih t ht (hus u hu))⟩
  | mu _ h => exact h.elim

/-- Equivalent types stay equivalent under a substitution. -/
theorem Ty.equiv_apply (ht : t.Plain) (hu : u.Plain) (h : equiv t u = true) :
    equiv (s.apply t) (s.apply u) = true :=
  equiv_apply_congr hs ht hs (fun _ => rfl) hu h

/-- The form of a type under a substitution depends on the forms of what is put in. -/
theorem form_apply_of_forms (h : t.Plain) (hs' : ∀ id u, s'.get? id = some u → u.Plain)
    (hsame : ∀ id, (s.get? id).map form = (s'.get? id).map form) :
    (s.apply t).form = (s'.apply t).form :=
  form_congr (h.apply hs).tame (h.apply hs').tame
    (equiv_apply_congr hs h hs' hsame h (equiv_refl h.tame))

end Applying

theorem form_held {id : Int} (ha : a.Tame) (hu : u.Tame) (h : a.form = u.form) :
    (Subst.held id a).map form = (Subst.held id u).map form := by
  have heq := (form_eq_iff ha hu).1 h
  by_cases hvar : ∃ v, a = .var v
  · obtain ⟨v, rfl⟩ := hvar
    obtain ⟨w, rfl, hid⟩ := exists_var_of_equiv heq
    simp only [Subst.held, hid]
    split
    · rfl
    · exact congrArg some h
  · rw [Subst.held_of_ne fun w hw => absurd ⟨w, hw⟩ hvar, Subst.held_of_ne, Option.map_some,
      Option.map_some, h]
    rintro w rfl
    exact absurd (exists_var_of_equiv_var heq) hvar

/-- Parameters are sent to types of the same forms by arguments of the same forms. -/
theorem Subst.forms_ofList (id : Int) {as bs : List Ty} (params : List TyVar)
    (has : ∀ a ∈ as, a.Tame) (hbs : ∀ b ∈ bs, b.Tame) (h : as.map form = bs.map form) :
    ((ofList (params.zip as)).get? id).map form = ((ofList (params.zip bs)).get? id).map form := by
  rw [← List.forall₂_eq_eq_eq, List.forall₂_map_left_iff, List.forall₂_map_right_iff] at h
  have hargs : List.Forall₂ (fun a b => a.Tame ∧ b.Tame ∧ a.form = b.form) as bs :=
    forall₂_imp h fun a ha b hb hab => ⟨has a ha, hbs b hb, hab⟩
  refine related_ofList (V := Eq)
    (C := fun s s' => (s.get? id).map form = (s'.get? id).map form) rfl ?_
    (List.forall₂_same.2 fun _ _ => rfl) hargs
  rintro p _ a b s s' rfl ⟨ha, hb, hab⟩ hs
  rw [get?_bind, get?_bind]
  split
  · exact form_held ha hb hab
  · exact hs

end Substituting

end RowTypes
