import RowTypes.Proofs.Renaming

/-!
# Types up to equivalence

`equiv` renames binders from left to right only, so on recursive types it is neither symmetric nor
transitive: `μa.(a → b)` is equivalent to `μb.(b → b)`, and not the other way round.  On types
without recursion, which are called tame here, it is an equivalence relation, and two tame types
are equivalent exactly if they have the same constructor and equivalent parts, where the members
of unions and intersections count as sets.

The classes of that relation are the forms.  Every type has a form, and for types that are not
tame it says nothing but which type it is; equations between forms can be rewritten with, which
equivalences cannot.  A class also has a height, because equivalent types nest equally deep.
-/

namespace RowTypes

namespace Ty

/-- Types without recursion, whose records list their fields in order. -/
inductive Tame : Ty → Prop where
  | var (v : TyVar) : Tame (.var v)
  | prim (name : String) : Tame (.prim name)
  | lit (value : String) : Tame (.lit value)
  | fn {p r : Ty} : Tame p → Tame r → Tame (.fn p r)
  | record {fs : List (String × Ty)} (row : Option TyVar) :
      Table.Ascending fs → (∀ f ∈ fs, Tame f.2) → Tame (.record fs row)
  | tuple {ts : List Ty} : (∀ t ∈ ts, Tame t) → Tame (.tuple ts)
  | union {ts : List Ty} : (∀ t ∈ ts, Tame t) → Tame (.union ts)
  | inter {ts : List Ty} : (∀ t ∈ ts, Tame t) → Tame (.inter ts)
  | named (name : String) {ts : List Ty} : (∀ t ∈ ts, Tame t) → Tame (.named name ts)

theorem Tame.sorted {a : Ty} (h : a.Tame) : a.Sorted := by
  induction h with
  | var v => exact .var v
  | prim name => exact .prim name
  | lit value => exact .lit value
  | fn _ _ ihp ihr => exact .fn ihp ihr
  | record row hasc _ ih => exact .record row hasc ih
  | tuple _ ih => exact .tuple ih
  | union _ ih => exact .union ih
  | inter _ ih => exact .inter ih
  | named name _ ih => exact .named name ih

/-- A type without recursion has no binders that could be named badly. -/
theorem Tame.wellNamed {a : Ty} {P : Int → Prop} (h : a.Tame) : a.WellNamed P := by
  induction h with
  | var v => exact .var v
  | prim name => exact .prim name
  | lit value => exact .lit value
  | fn _ _ ihp ihr => exact .fn ihp ihr
  | record row _ _ ih => exact .record row ih
  | tuple _ ih => exact .tuple ih
  | union _ ih => exact .union ih
  | inter _ ih => exact .inter ih
  | named name _ ih => exact .named name ih

/-! ## What equivalence says about each constructor -/

theorem sameRow_nil_iff {r r' : Option TyVar} :
    sameRow [] r r' = true ↔ r.map TyVar.id = r'.map TyVar.id := by
  cases r <;> cases r' <;> simp [sameRow, TyVar.sameUnder]

/-- Two collections of types hold equivalent members. -/
def SameMembers (as bs : List Ty) : Prop :=
  as.length = bs.length ∧ (∀ a ∈ as, ∃ b ∈ bs, equiv a b = true) ∧
    ∀ b ∈ bs, ∃ a ∈ as, equiv a b = true

theorem equiv_var {v w : TyVar} : equiv (.var v) (.var w) = true ↔ v.id = w.id := by
  simp [equiv, equivUnder, TyVar.sameUnder]

theorem equiv_fn {p r p' r' : Ty} :
    equiv (.fn p r) (.fn p' r') = true ↔ equiv p p' = true ∧ equiv r r' = true :=
  equivUnder_fn

theorem equiv_tuple {as bs : List Ty} :
    equiv (.tuple as) (.tuple bs) = true ↔
      List.Forall₂ (fun a b => equiv a b = true) as bs :=
  equivUnder_tuple

theorem equiv_named {m n : String} {as bs : List Ty} :
    equiv (.named m as) (.named n bs) = true ↔
      m = n ∧ List.Forall₂ (fun a b => equiv a b = true) as bs :=
  equivUnder_named

theorem equiv_union {as bs : List Ty} :
    equiv (.union as) (.union bs) = true ↔ SameMembers as bs :=
  equivUnder_union

theorem equiv_inter {as bs : List Ty} :
    equiv (.inter as) (.inter bs) = true ↔ SameMembers as bs :=
  equivUnder_inter

/-- Records are equivalent if they have the same row, and for each name both have equivalent
fields or none has one. -/
theorem equiv_record {fs gs : List (String × Ty)} {r r' : Option TyVar}
    (hfs : Table.Ascending fs) (hgs : Table.Ascending gs) :
    equiv (.record fs r) (.record gs r') = true ↔
      r.map TyVar.id = r'.map TyVar.id ∧
        ∀ name, Option.Rel (fun a b => equiv a b = true) (Table.get? name fs)
          (Table.get? name gs) := by
  rw [← sameRow_nil_iff]
  exact equivUnder_record hfs hgs

/-! ## What is equivalent to a type with a given constructor -/

variable {ts : List Ty} {u : Ty}

theorem exists_var_of_equiv {v : TyVar} (h : equiv (.var v) u = true) :
    ∃ w, u = .var w ∧ v.id = w.id := by
  obtain ⟨w, rfl, -⟩ := exists_var_of_equivUnder h
  exact ⟨w, rfl, equiv_var.1 h⟩

theorem eq_prim_of_equiv {name : String} (h : equiv (.prim name) u = true) : u = .prim name :=
  eq_prim_of_equivUnder h

theorem eq_lit_of_equiv {value : String} (h : equiv (.lit value) u = true) : u = .lit value :=
  eq_lit_of_equivUnder h

theorem exists_fn_of_equiv {p r : Ty} (h : equiv (.fn p r) u = true) :
    ∃ p' r', u = .fn p' r' ∧ equiv p p' = true ∧ equiv r r' = true :=
  exists_fn_of_equivUnder h

theorem exists_record_of_equiv {fs : List (String × Ty)} {row : Option TyVar}
    (h : equiv (.record fs row) u = true) : ∃ gs row', u = .record gs row' :=
  exists_record_of_equivUnder h

theorem exists_tuple_of_equiv (h : equiv (.tuple ts) u = true) :
    ∃ us, u = .tuple us ∧ List.Forall₂ (fun a b => equiv a b = true) ts us :=
  exists_tuple_of_equivUnder h

theorem exists_union_of_equiv (h : equiv (.union ts) u = true) :
    ∃ us, u = .union us ∧ SameMembers ts us :=
  exists_union_of_equivUnder h

theorem exists_inter_of_equiv (h : equiv (.inter ts) u = true) :
    ∃ us, u = .inter us ∧ SameMembers ts us :=
  exists_inter_of_equivUnder h

theorem exists_named_of_equiv {name : String} (h : equiv (.named name ts) u = true) :
    ∃ us, u = .named name us ∧ List.Forall₂ (fun a b => equiv a b = true) ts us :=
  exists_named_of_equivUnder h

theorem exists_mu_of_equiv {v : TyVar} {t : Ty} (h : equiv (.mu v t) u = true) :
    ∃ w u', u = .mu w u' := by
  obtain ⟨w, u', rfl, -⟩ := exists_mu_of_equivUnder h
  exact ⟨w, u', rfl⟩

/-! With the constructor on the right only the shape of the other type is of interest. -/

theorem exists_var_of_equiv_var {v : TyVar} (h : equiv u (.var v) = true) : ∃ w, u = .var w := by
  cases u with
  | var w => exact ⟨w, rfl⟩
  | _ => simp [equiv, equivUnder] at h

theorem exists_record_of_equiv_record {fs : List (String × Ty)} {row : Option TyVar}
    (h : equiv u (.record fs row) = true) : ∃ gs row', u = .record gs row' := by
  cases u with
  | record gs row' => exact ⟨gs, row', rfl⟩
  | _ => simp [equiv, equivUnder] at h

theorem exists_union_of_equiv_union (h : equiv u (.union ts) = true) : ∃ us, u = .union us := by
  cases u with
  | union us => exact ⟨us, rfl⟩
  | _ => simp [equiv, equivUnder] at h

theorem exists_inter_of_equiv_inter (h : equiv u (.inter ts) = true) : ∃ us, u = .inter us := by
  cases u with
  | inter us => exact ⟨us, rfl⟩
  | _ => simp [equiv, equivUnder] at h

theorem exists_named_of_equiv_named {name : String} (h : equiv u (.named name ts) = true) :
    ∃ us, u = .named name us := by
  cases u with
  | named name' us => exact ⟨us, by rw [(equiv_named.1 h).1]⟩
  | _ => simp [equiv, equivUnder] at h

theorem exists_mu_of_equiv_mu {v : TyVar} {t : Ty} (h : equiv u (.mu v t) = true) :
    ∃ w u', u = .mu w u' := by
  cases u with
  | mu w u' => exact ⟨w, u', rfl⟩
  | _ => simp [equiv, equivUnder] at h

/-! ## An equivalence relation on tame types -/

theorem equiv_refl {a : Ty} (ha : a.Tame) : equiv a a = true := ha.sorted.equiv_self

theorem equiv_symm {a b : Ty} (ha : a.Tame) (hb : b.Tame) (h : equiv a b = true) :
    equiv b a = true :=
  equivUnder_backwards ha.sorted hb.sorted hb.wellNamed reversible_nil h

theorem equiv_trans {a b c : Ty} (ha : a.Tame) (hb : b.Tame) (hc : c.Tame)
    (h : equiv a b = true) (h' : equiv b c = true) : equiv a c = true :=
  equivUnder_comp ha.sorted hb.sorted hc.sorted hb.wellNamed reversible_nil rfl h h'

/-! ## Heights -/

theorem height_pos (t : Ty) : 1 ≤ t.height := by
  cases t <;> simp [Ty.height]

theorem heightAll_le_iff {n : Nat} {ts : List Ty} :
    heightAll ts ≤ n ↔ ∀ t ∈ ts, t.height ≤ n := by
  induction ts with
  | nil => simp [heightAll]
  | cons t ts ih => rw [heightAll, Nat.max_le, ih, List.forall_mem_cons]

theorem heightFields_le_iff {n : Nat} {fs : List (String × Ty)} :
    heightFields fs ≤ n ↔ ∀ f ∈ fs, f.2.height ≤ n := by
  induction fs with
  | nil => simp [heightFields]
  | cons f fs ih =>
      obtain ⟨name, t⟩ := f
      rw [heightFields, Nat.max_le, ih, List.forall_mem_cons]

theorem height_le_heightAll {t : Ty} {ts : List Ty} (h : t ∈ ts) : t.height ≤ heightAll ts :=
  heightAll_le_iff.1 (Nat.le_refl _) t h

theorem height_le_heightFields {name : String} {t : Ty} {fs : List (String × Ty)}
    (h : (name, t) ∈ fs) : t.height ≤ heightFields fs :=
  heightFields_le_iff.1 (Nat.le_refl _) (name, t) h

theorem height_lt_fn (p r : Ty) : p.height < (Ty.fn p r).height ∧ r.height < (Ty.fn p r).height := by
  rw [height]
  omega

theorem height_lt_record {f : String × Ty} {fs : List (String × Ty)} (h : f ∈ fs)
    (row : Option TyVar) : f.2.height < (Ty.record fs row).height :=
  Nat.lt_succ_of_le (height_le_heightFields h)

theorem height_lt_tuple {t : Ty} {ts : List Ty} (h : t ∈ ts) : t.height < (Ty.tuple ts).height :=
  Nat.lt_succ_of_le (height_le_heightAll h)

theorem height_lt_union {t : Ty} {ts : List Ty} (h : t ∈ ts) : t.height < (Ty.union ts).height :=
  Nat.lt_succ_of_le (height_le_heightAll h)

theorem height_lt_inter {t : Ty} {ts : List Ty} (h : t ∈ ts) : t.height < (Ty.inter ts).height :=
  Nat.lt_succ_of_le (height_le_heightAll h)

theorem heightAll_le_of_forall₂ {as bs : List Ty}
    (ih : ∀ a ∈ as, ∀ {b : Ty}, b.Tame → equiv a b = true → a.height ≤ b.height)
    (hbs : ∀ b ∈ bs, b.Tame) (h : List.Forall₂ (fun a b => equiv a b = true) as bs) :
    heightAll as ≤ heightAll bs := by
  induction h with
  | nil => exact Nat.le_refl _
  | cons hab _ ihl =>
      obtain ⟨ha, has⟩ := List.forall_mem_cons.1 ih
      obtain ⟨hb, hbs⟩ := List.forall_mem_cons.1 hbs
      have h₁ := ha hb hab
      have h₂ := ihl has hbs
      rw [heightAll, heightAll]
      omega

theorem heightAll_le_of_sameMembers {as bs : List Ty}
    (ih : ∀ a ∈ as, ∀ {b : Ty}, b.Tame → equiv a b = true → a.height ≤ b.height)
    (hbs : ∀ b ∈ bs, b.Tame) (h : SameMembers as bs) : heightAll as ≤ heightAll bs := by
  refine heightAll_le_iff.2 fun a ha => ?_
  obtain ⟨b, hb, hab⟩ := h.2.1 a ha
  exact Nat.le_trans (ih a ha (hbs b hb) hab) (height_le_heightAll hb)

theorem height_le_of_equiv {a : Ty} (ha : a.Tame) :
    ∀ {b : Ty}, b.Tame → equiv a b = true → a.height ≤ b.height := by
  induction ha with
  | var v =>
      intro b _ h
      obtain ⟨w, rfl, -⟩ := exists_var_of_equiv h
      rw [height, height]
  | prim name =>
      intro b _ h
      rw [eq_prim_of_equiv h]
  | lit value =>
      intro b _ h
      rw [eq_lit_of_equiv h]
  | fn _ _ ihp ihr =>
      intro b hb h
      obtain ⟨p', r', rfl, h₁, h₂⟩ := exists_fn_of_equiv h
      cases hb with
      | fn hp hr =>
          have := ihp hp h₁
          have := ihr hr h₂
          rw [height, height]
          omega
  | record row hasc _ ih =>
      intro b hb h
      obtain ⟨gs, row', rfl⟩ := exists_record_of_equiv h
      cases hb with
      | record _ hasc' htame =>
          rw [height, height, Nat.add_le_add_iff_right]
          refine heightFields_le_iff.2 fun f hf => ?_
          have hn := ((equiv_record hasc hasc').1 h).2 f.1
          rw [Table.get?_of_mem hasc hf] at hn
          generalize hg : Table.get? f.1 _ = y at hn
          cases hn with
          | some hab =>
              have hmem := Table.mem_of_get? hg
              exact Nat.le_trans (ih f hf (htame _ hmem) hab) (height_le_heightFields hmem)
  | tuple _ ih =>
      intro b hb h
      obtain ⟨bs, rfl, helems⟩ := exists_tuple_of_equiv h
      cases hb with
      | tuple hbs =>
          have := heightAll_le_of_forall₂ ih hbs helems
          rw [height, height]
          omega
  | union _ ih =>
      intro b hb h
      obtain ⟨bs, rfl, hsame⟩ := exists_union_of_equiv h
      cases hb with
      | union hbs =>
          have := heightAll_le_of_sameMembers ih hbs hsame
          rw [height, height]
          omega
  | inter _ ih =>
      intro b hb h
      obtain ⟨bs, rfl, hsame⟩ := exists_inter_of_equiv h
      cases hb with
      | inter hbs =>
          have := heightAll_le_of_sameMembers ih hbs hsame
          rw [height, height]
          omega
  | named name _ ih =>
      intro b hb h
      obtain ⟨bs, rfl, hargs⟩ := exists_named_of_equiv h
      cases hb with
      | named _ hbs =>
          have := heightAll_le_of_forall₂ ih hbs hargs
          rw [height, height]
          omega

/-! ## Forms -/

/-- The same type, or equivalent tame types. -/
def Same (a b : Ty) : Prop := a = b ∨ a.Tame ∧ b.Tame ∧ equiv a b = true

theorem same_equivalence : Equivalence Same where
  refl := fun a => .inl rfl
  symm := by
    rintro a b (rfl | ⟨ha, hb, h⟩)
    · exact .inl rfl
    · exact .inr ⟨hb, ha, equiv_symm ha hb h⟩
  trans := by
    rintro a b c (rfl | ⟨ha, hb, h⟩) h'
    · exact h'
    · rcases h' with rfl | ⟨-, hc, h'⟩
      · exact .inr ⟨ha, hb, h⟩
      · exact .inr ⟨ha, hc, equiv_trans ha hb hc h h'⟩

end Ty

/-- A type up to equivalence. -/
def Form : Type := Quotient ⟨Ty.Same, Ty.same_equivalence⟩

namespace Ty

/-- The form of a type. -/
def form (t : Ty) : Form := Quotient.mk _ t

theorem form_eq_iff {a b : Ty} (ha : a.Tame) (hb : b.Tame) :
    a.form = b.form ↔ equiv a b = true := by
  constructor
  · intro h
    rcases Quotient.exact h with rfl | ⟨-, -, h⟩
    · exact equiv_refl ha
    · exact h
  · intro h
    exact Quotient.sound (.inr ⟨ha, hb, h⟩)

theorem form_congr {a b : Ty} (ha : a.Tame) (hb : b.Tame) (h : equiv a b = true) :
    a.form = b.form := (form_eq_iff ha hb).2 h

theorem height_eq_of_form {a b : Ty} (ha : a.Tame) (hb : b.Tame) (h : a.form = b.form) :
    a.height = b.height := by
  have hab := (form_eq_iff ha hb).1 h
  exact Nat.le_antisymm (height_le_of_equiv ha hb hab)
    (height_le_of_equiv hb ha (equiv_symm ha hb hab))

theorem form_var {v w : TyVar} : (Ty.var v).form = (Ty.var w).form ↔ v.id = w.id := by
  rw [form_eq_iff (.var v) (.var w), equiv_var]

theorem form_fn {p r p' r' : Ty} (hp : p.Tame) (hr : r.Tame) (hp' : p'.Tame) (hr' : r'.Tame) :
    (Ty.fn p r).form = (Ty.fn p' r').form ↔ p.form = p'.form ∧ r.form = r'.form := by
  rw [form_eq_iff (.fn hp hr) (.fn hp' hr'), equiv_fn, form_eq_iff hp hp', form_eq_iff hr hr']

theorem forall₂_equiv_iff {as : List Ty} : ∀ {bs : List Ty}, (∀ a ∈ as, a.Tame) →
    (∀ b ∈ bs, b.Tame) →
    (List.Forall₂ (fun a b => equiv a b = true) as bs ↔ as.map form = bs.map form) := by
  induction as with
  | nil => intro bs _ _; cases bs <;> simp
  | cons a as ih =>
      intro bs has hbs
      obtain ⟨ha, has⟩ := List.forall_mem_cons.1 has
      cases bs with
      | nil => simp
      | cons b bs =>
          obtain ⟨hb, hbs⟩ := List.forall_mem_cons.1 hbs
          rw [List.forall₂_cons, ih has hbs, ← form_eq_iff ha hb, List.map_cons, List.map_cons,
            List.cons.injEq]

theorem form_tuple {as bs : List Ty} (has : ∀ a ∈ as, a.Tame) (hbs : ∀ b ∈ bs, b.Tame) :
    (Ty.tuple as).form = (Ty.tuple bs).form ↔ as.map form = bs.map form := by
  rw [form_eq_iff (.tuple has) (.tuple hbs), equiv_tuple, forall₂_equiv_iff has hbs]

theorem form_tuple_map {f g : Ty → Ty} {ts : List Ty} (hf : ∀ t ∈ ts, (f t).Tame)
    (hg : ∀ t ∈ ts, (g t).Tame) (h : ∀ t ∈ ts, (f t).form = (g t).form) :
    (Ty.tuple (ts.map f)).form = (Ty.tuple (ts.map g)).form := by
  refine (form_tuple (List.forall_mem_map.2 hf) (List.forall_mem_map.2 hg)).2 ?_
  rw [List.map_map, List.map_map]
  exact List.map_congr_left h

theorem rel_equiv_iff {x y : Option Ty} (hx : ∀ t, x = some t → t.Tame)
    (hy : ∀ t, y = some t → t.Tame) :
    Option.Rel (fun a b => equiv a b = true) x y ↔ x.map form = y.map form := by
  cases x with
  | none => cases y <;> simp
  | some a =>
      cases y with
      | none => simp
      | some b => simp [form_eq_iff (hx a rfl) (hy b rfl)]

/-- The form of a record is the forms of its fields, name by name, and its row. -/
theorem form_record {fs gs : List (String × Ty)} {r r' : Option TyVar}
    (hfs : (Ty.record fs r).Tame) (hgs : (Ty.record gs r').Tame) :
    (Ty.record fs r).form = (Ty.record gs r').form ↔
      r.map TyVar.id = r'.map TyVar.id ∧
        ∀ name, (Table.get? name fs).map form = (Table.get? name gs).map form := by
  cases hfs with
  | record _ hasc htame =>
      cases hgs with
      | record _ hasc' htame' =>
          rw [form_eq_iff (.record r hasc htame) (.record r' hasc' htame'),
            equiv_record hasc hasc']
          refine and_congr_right fun _ => forall_congr' fun name => ?_
          exact rel_equiv_iff (fun t ht => htame _ (Table.mem_of_get? ht))
            fun t ht => htame' _ (Table.mem_of_get? ht)

end Ty

end RowTypes
