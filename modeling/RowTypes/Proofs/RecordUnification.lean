import RowTypes.Proofs.Answers
import RowTypes.Solver.Row

/-!
# Unifying records

That two records are one amounts to equations between the fields they share, and one equation
between what is left: the fields that only one of them has, each over its own row.  The shared
fields are unified first.  If that gave a row fields, the records are unified anew; if not, the
rows stand as they were, and the last equation is solved by binding them.

With two rows it takes a new one, for what neither record names.  Under a valuation that unifies
the records, the new row stands for what both rows stand for apart from the fields of the other
record; here it matters that the records are respected, for otherwise a row could hide something
behind a field of its own record.
-/

namespace RowTypes

open Equations

namespace RecordTy

variable {κ : Sorts} {a b : RecordTy} {s : Subst}

/-- The fields of a record that another one does not have. -/
def own (a b : RecordTy) : List (String × Ty) := a.fields.filter fun f => (b.field? f.1).isNone

theorem get?_own (a b : RecordTy) (name : String) :
    Table.get? name (own a b) = if (b.field? name).isNone then a.field? name else none :=
  Table.get?_filter_keys (fun name => (b.field? name).isNone) name a.fields

theorem mem_names {name : String} : name ∈ a.names ↔ (a.field? name).isSome :=
  Table.get?_isSome.symm

theorem mem_diff {name : String} :
    name ∈ Text.Names.diff a.names b.names ↔ (a.field? name).isSome ∧ (b.field? name).isNone := by
  rw [Text.Names.diff, Text.Names.mem_sorted, List.mem_filter, mem_names]
  simp [mem_names]

/-- The equations between the fields that two records share. -/
theorem mem_sharedFields {e : Ty × Ty} : e ∈ a.sharedFields b ↔
    ∃ name, a.field? name = some e.1 ∧ b.field? name = some e.2 := by
  unfold sharedFields
  rw [List.mem_filterMap]
  constructor
  · rintro ⟨name, -, h⟩
    refine ⟨name, ?_⟩
    cases ha : a.field? name with
    | none => rw [ha] at h; cases h
    | some x =>
        cases hb : b.field? name with
        | none => rw [ha, hb] at h; cases h
        | some y => rw [ha, hb] at h; cases h; exact ⟨rfl, rfl⟩
  · rintro ⟨name, ha, hb⟩
    refine ⟨name, ?_, by rw [ha, hb]; rfl⟩
    rw [Text.Names.inter, Text.Names.mem_sorted, List.mem_filter, mem_names, ha]
    simp [mem_names, hb]

/-- The fields of a record that only it has are those picked by the difference of the names. -/
theorem pick_diff (hasc : Table.Ascending a.fields) :
    a.pick s (Text.Names.diff a.names b.names) = (own a b).map fun f => (f.1, s.apply f.2) := by
  have hown : Table.Ascending (own a b) := List.Pairwise.filter _ hasc
  refine Table.Ascending.ext (Table.ascending_ofList _) (hown.map s.apply) fun name => ?_
  have hlookup := Table.get?_ofList_filterMap (fun name => (a.field? name).map s.apply)
    (Text.Names.diff a.names b.names) name
  simp only [Option.map_map, Function.comp_def] at hlookup
  rw [pick, hlookup, Table.get?_map, get?_own]
  by_cases hb : (b.field? name).isNone
  · rw [if_pos hb]
    split
    · rfl
    · next hn =>
        have : a.field? name = none := by
          rw [← Option.not_isSome_iff_eq_none]
          exact fun ha => hn (mem_diff.2 ⟨ha, hb⟩)
        rw [this]
        rfl
  · rw [if_neg hb, if_neg fun hn => hb (mem_diff.1 hn).2]
    rfl

theorem own_eq_nil (h : (Text.Names.diff a.names b.names).isEmpty = true) : own a b = [] := by
  refine List.filter_eq_nil_iff.2 fun f hf hnone => ?_
  have hname : f.1 ∈ a.names := List.mem_map.2 ⟨f, hf, rfl⟩
  have := mem_diff.2 ⟨mem_names.1 hname, hnone⟩
  rw [List.isEmpty_iff.1 h] at this
  cases this

theorem exists_own (h : ¬ (Text.Names.diff a.names b.names).isEmpty = true) :
    ∃ name x, Table.get? name (own a b) = some x ∧ Table.get? name (own b a) = none := by
  obtain ⟨name, hname⟩ := List.exists_mem_of_ne_nil _ fun hnil => h (List.isEmpty_iff.2 hnil)
  obtain ⟨ha, hb⟩ := mem_diff.1 hname
  obtain ⟨x, hx⟩ := Option.isSome_iff_exists.1 ha
  refine ⟨name, x, by rw [get?_own, if_pos hb, hx], ?_⟩
  rw [get?_own, Option.isNone_iff_eq_none.1 hb, ite_self]

theorem core_own (h : a.toTy.Core κ) : (Ty.record (own a b) a.row).Core κ := by
  cases h with
  | record hrec hasc hrow hfs =>
      exact .record hrec (List.Pairwise.filter _ hasc) hrow
        fun f hf => hfs f (List.mem_filter.1 hf).1

theorem ascending_fields (h : a.toTy.Core κ) : Table.Ascending a.fields := by
  cases h with
  | record _ hasc _ _ => exact hasc

theorem records_of_core (h : a.toTy.Core κ) : κ.records := by
  cases h with
  | record hrec _ _ _ => exact hrec

theorem core_field (h : a.toTy.Core κ) {name : String} {t : Ty} (ht : a.field? name = some t) :
    t.Core κ := by
  cases h with
  | record _ _ _ hfs => exact hfs _ (Table.mem_of_get? ht)

theorem mentions_field {name : String} {t : Ty} {id : Int} (ht : a.field? name = some t)
    (hid : t.Mentions id) : a.toTy.Mentions id :=
  Ty.mentions_record.2 (.inl ⟨_, Table.mem_of_get? ht, hid⟩)

/-- The equations that say that two records are one. -/
def equations (a b : RecordTy) : Equations :=
  a.sharedFields b ++ [(.record (own a b) a.row, .record (own b a) b.row)]

theorem mentions_own {id : Int} (h : (Ty.record (own a b) a.row).Mentions id) :
    a.toTy.Mentions id := by
  rcases Ty.mentions_record.1 h with ⟨f, hf, hid⟩ | h
  · exact Ty.mentions_record.2 (.inl ⟨f, (List.mem_filter.1 hf).1, hid⟩)
  · exact Ty.mentions_record.2 (.inr h)

theorem side_sharedFields {t : Ty} (ht : t ∈ sides (a.sharedFields b)) :
    ∃ name, a.field? name = some t ∨ b.field? name = some t := by
  obtain ⟨e, he, heq⟩ := mem_sides.1 ht
  obtain ⟨name, ha, hb⟩ := mem_sharedFields.1 he
  rcases heq with rfl | rfl
  · exact ⟨name, .inl ha⟩
  · exact ⟨name, .inr hb⟩

theorem mentioned_sharedFields {id : Int} (h : Mentioned (a.sharedFields b) id) :
    a.toTy.Mentions id ∨ b.toTy.Mentions id := by
  obtain ⟨t, ht, hid⟩ := h
  obtain ⟨name, h | h⟩ := side_sharedFields ht
  · exact .inl (mentions_field h hid)
  · exact .inr (mentions_field h hid)

theorem respects_own {θ : Valuation} (h : θ.Respects a.toTy) :
    θ.Respects (.record (own a b) a.row) := by
  cases h with
  | record hnames hfs =>
      refine .record (fun name hname => hnames name ?_) fun f hf => hfs f (List.mem_filter.1 hf).1
      obtain ⟨f, hf, rfl⟩ := List.mem_map.1 hname
      exact List.mem_map.2 ⟨f, (List.mem_filter.1 hf).1, rfl⟩

theorem respects_field {θ : Valuation} (h : θ.Respects a.toTy) {name : String} {t : Ty}
    (ht : a.field? name = some t) : θ.Respects t := by
  cases h with
  | record _ hfs => exact hfs _ (Table.mem_of_get? ht)

theorem respectsAll_sharedFields {θ : Valuation} (ha : θ.Respects a.toTy)
    (hb : θ.Respects b.toTy) : θ.RespectsAll (a.sharedFields b) := by
  intro t ht
  obtain ⟨name, h | h⟩ := side_sharedFields ht
  · exact respects_field ha h
  · exact respects_field hb h

theorem formAt_rest_eq_none {θ : Valuation} (h : θ.Respects a.toTy) {name : String} {t : Ty}
    (ht : a.field? name = some t) : (θ.rest a.row).formAt name = none := by
  cases h with
  | record hnames _ =>
      refine Valuation.formAt_eq_none.2 (hnames name (mem_names.2 ?_))
      rw [ht]
      rfl

/-- Records are one if their rows end alike and each name has the same form in both. -/
theorem form_toTy_iff {θ : Valuation} (ha : a.toTy.Core κ) (hb : b.toTy.Core κ) :
    θ.form a.toTy = θ.form b.toTy ↔
      (θ.rest a.row).rowId = (θ.rest b.row).rowId ∧
        ∀ name, ((a.field? name).map θ.form).or ((θ.rest a.row).formAt name) =
          ((b.field? name).map θ.form).or ((θ.rest b.row).formAt name) :=
  Valuation.form_record ha hb

theorem unifies_sharedFields {θ : Valuation} (ha : a.toTy.Core κ) (hb : b.toTy.Core κ)
    (h : θ.form a.toTy = θ.form b.toTy) : θ.Unifies (a.sharedFields b) := by
  intro e he
  obtain ⟨name, hx, hy⟩ := mem_sharedFields.1 he
  have hname := ((form_toTy_iff ha hb).1 h).2 name
  rw [hx, hy] at hname
  simpa using hname

/-- That two records are one amounts to their equations. -/
theorem amounts_equations (n : Nat) (ha : a.toTy.Core κ) (hb : b.toTy.Core κ) :
    Amounts κ n n [(a.toTy, b.toTy)] (equations a b) := by
  have hown := core_own (b := b) ha
  have hown' := core_own (b := a) hb
  refine ⟨fun id hid => .inl (mentioned_pair.2 ?_), fun θ hu => unifies_pair.2 ?_,
    fun θ hr hu => ⟨θ, .refl, ?_, ?_⟩, fun hκ => absurd (records_of_core ha) hκ⟩
  · obtain ⟨t, ht, hid⟩ := hid
    rw [equations, sides_append] at ht
    rcases List.mem_append.1 ht with ht | ht
    · exact mentioned_sharedFields ⟨t, ht, hid⟩
    · exact (mentioned_pair.1 ⟨t, ht, hid⟩).imp mentions_own mentions_own
  · obtain ⟨hshared, hrest⟩ := Valuation.unifies_append.1 hu
    obtain ⟨hid, hat⟩ := (Valuation.form_record hown hown').1 (unifies_pair.1 hrest)
    refine (form_toTy_iff ha hb).2 ⟨hid, fun name => ?_⟩
    have hname := hat name
    rw [get?_own, get?_own] at hname
    cases hx : a.field? name with
    | none => cases hy : b.field? name <;> simpa [hx, hy] using hname
    | some x =>
        cases hy : b.field? name with
        | none => simpa [hx, hy] using hname
        | some y =>
            have : θ.form x = θ.form y := hshared (x, y) (mem_sharedFields.2 ⟨name, hx, hy⟩)
            simp [this]
  · obtain ⟨hra, hrb⟩ := respectsAll_pair.1 hr
    exact Valuation.respectsAll_append.2 ⟨respectsAll_sharedFields hra hrb,
      respectsAll_pair.2 ⟨respects_own hra, respects_own hrb⟩⟩
  · obtain ⟨hra, hrb⟩ := respectsAll_pair.1 hr
    obtain ⟨hid, hat⟩ := (form_toTy_iff ha hb).1 (unifies_pair.1 hu)
    refine Valuation.unifies_append.2
      ⟨unifies_sharedFields ha hb (unifies_pair.1 hu), unifies_pair.2 ?_⟩
    refine (Valuation.form_record hown hown').2 ⟨hid, fun name => ?_⟩
    have hname := hat name
    rw [get?_own, get?_own]
    cases hx : a.field? name with
    | none => cases hy : b.field? name <;> simpa [hx, hy] using hname
    | some x =>
        cases hy : b.field? name with
        | none => simpa [hx, hy] using hname
        | some y => simp [formAt_rest_eq_none hra hx, formAt_rest_eq_none hrb hy]

/-- Equations between shared fields may be added to the one between the records. -/
theorem amounts_again (n : Nat) (ha : a.toTy.Core κ) (hb : b.toTy.Core κ) :
    Amounts κ n n [(a.toTy, b.toTy)] (a.sharedFields b ++ [(a.toTy, b.toTy)]) := by
  refine ⟨fun id hid => .inl (mentioned_pair.2 ?_), fun θ hu => (Valuation.unifies_append.1 hu).2,
    fun θ hr hu => ⟨θ, .refl, ?_, ?_⟩, fun hκ => absurd (records_of_core ha) hκ⟩
  · obtain ⟨t, ht, hid⟩ := hid
    rw [sides_append] at ht
    rcases List.mem_append.1 ht with ht | ht
    · exact mentioned_sharedFields ⟨t, ht, hid⟩
    · exact mentioned_pair.1 ⟨t, ht, hid⟩
  · obtain ⟨hra, hrb⟩ := respectsAll_pair.1 hr
    exact Valuation.respectsAll_append.2 ⟨respectsAll_sharedFields hra hrb, hr⟩
  · exact Valuation.unifies_append.2 ⟨unifies_sharedFields ha hb (unifies_pair.1 hu), hu⟩

end RecordTy

/-! ## Rows -/

namespace Relate

open RecordTy

variable {κ : Sorts} {excuse : Diagnostic → Prop} {n : Nat} {p : Progress} {a b : RecordTy}
  {s : Subst} (ctx : Context)

/-- The row of a record is not bound. -/
def RowFree (s : Subst) (r : RecordTy) : Prop := ∀ v, r.row = some v → s.get? v.id = none

/-- The row of a record is free, if it is free or bound to a record and the record does not grow. -/
theorem rowFree_of_cases (hrow : ∀ v, a.row = some v →
      s.get? v.id = none ∨ ∃ gs rest, s.get? v.id = some (.record gs rest))
    (h : ¬ a.rowGrows s = true) : RowFree s a := by
  intro v hv
  rcases hrow v hv with hfree | ⟨gs, rest, hbound⟩
  · exact hfree
  · refine absurd ?_ h
    rw [rowGrows, hv]
    show (s.apply (.var v)).record?.isSome = true
    rw [Subst.apply_var, hbound]
    rfl

theorem rowFree_of_not_grows (hs : s.Core κ) (ha : a.toTy.Core κ) (h : ¬ a.rowGrows s = true) :
    RowFree s a := by
  refine rowFree_of_cases (fun v hv => hs.row_cases ?_) h
  cases ha with
  | record _ _ hrow _ => exact hrow v hv

theorem rowUnder_eq (h : RowFree s a) : a.rowUnder s = a.row := by
  unfold rowUnder
  split
  · next hrow => exact hrow.symm
  · next v hv =>
      rw [Subst.apply_var, h v hv, hv]
      rfl

theorem apply_own (h : RowFree s a) : s.apply (.record (own a b) a.row) =
    .record ((own a b).map fun f => (f.1, s.apply f.2)) a.row := by
  cases hrow : a.row with
  | none => exact Subst.apply_closed s _
  | some v => exact Subst.apply_open_unbound (h v hrow)

/-- Equations that hold under every valuation can be left out. -/
theorem amounts_drop (n : Nat) (E : Equations) {F : Equations}
    (h : ∀ θ : Valuation, θ.Unifies F) : Amounts κ n n (E ++ F) E where
  mentioned := fun id ⟨t, ht, hid⟩ =>
    .inl ⟨t, by rw [sides_append]; exact List.mem_append_left _ ht, hid⟩
  back := fun θ hu => Valuation.unifies_append.2 ⟨hu, h θ⟩
  forth := fun θ hr hu =>
    ⟨θ, .refl, (Valuation.respectsAll_append.1 hr).1, (Valuation.unifies_append.1 hu).1⟩
  height := fun _ _ hsides t ht => hsides t (by rw [sides_append]; exact List.mem_append_left _ ht)

theorem refutes_append {E F : Equations} (h : Refutes F False) : Refutes (E ++ F) False :=
  fun θ hr hu => h θ (Valuation.respectsAll_append.1 hr).2 (Valuation.unifies_append.1 hu).2

/-- A field of one record that is neither in the other nor behind it. -/
theorem refutes_own (ha : a.toTy.Core κ) (hb : b.toTy.Core κ)
    (h : ¬ (Text.Names.diff a.names b.names).isEmpty = true)
    (hrest : ∀ θ : Valuation, θ.Respects (.record (own a b) a.row) → ∀ name x,
      Table.get? name (own a b) = some x → (θ.rest b.row).formAt name = none) :
    Refutes [(.record (own a b) a.row, .record (own b a) b.row)] False := by
  intro θ hr hu
  obtain ⟨name, x, hx, hy⟩ := exists_own h
  obtain ⟨-, hat⟩ := (Valuation.form_record (core_own ha) (core_own hb)).1 (unifies_pair.1 hu)
  have hname := hat name
  rw [hx, hy, hrest θ (respectsAll_pair.1 hr).1 name x hx] at hname
  cases hname

/-! ## Two rows -/

/-- Two open records without a common field, and the new row for what neither names. -/
structure OpenPair (κ : Sorts) (m : Nat) (fa fb : List (String × Ty)) (rowA rowB w : TyVar) :
    Prop where
  new : w.id = m + 1
  isRow : κ.isRow w.id
  coreA : (Ty.record fa (some rowA)).Core κ
  coreB : (Ty.record fb (some rowB)).Core κ
  olderA : ∀ id, (Ty.record fa (some rowA)).Mentions id → id ≤ m
  olderB : ∀ id, (Ty.record fb (some rowB)).Mentions id → id ≤ m
  distinct : rowA.id ≠ rowB.id
  disjoint : ∀ name, Table.get? name fa = none ∨ Table.get? name fb = none

/-- The equations of two open records without a common field: each row stands for the other's
fields and a common rest. -/
def rowEquations (fa fb : List (String × Ty)) (rowA rowB w : TyVar) : Equations :=
  [(.record [] (some rowA), .record fb (some w))] ++ [(.record [] (some rowB), .record fa (some w))]

/-- What a row stands for, apart from some fields. -/
def behind (θ : Valuation) (row : TyVar) (fs : List (String × Ty)) : RecordTy :=
  ⟨(θ.row row.id).fields.filter fun f => (Table.get? f.1 fs).isNone, (θ.row row.id).row⟩

theorem field?_behind (θ : Valuation) (row : TyVar) (fs : List (String × Ty)) (name : String) :
    (behind θ row fs).field? name =
      if (Table.get? name fs).isNone then (θ.row row.id).field? name else none :=
  Table.get?_filter_keys (fun name => (Table.get? name fs).isNone) name _

theorem tame_behind (θ : Valuation) (row : TyVar) (fs : List (String × Ty)) :
    (behind θ row fs).toTy.Tame := by
  cases θ.tame_row row.id with
  | record _ hasc hfs =>
      exact .record _ (List.Pairwise.filter _ hasc) fun f hf => hfs f (List.mem_filter.1 hf).1

theorem respects_bare (θ : Valuation) (v : TyVar) : θ.Respects (.record [] (some v)) :=
  .record (by intro name hname; cases hname) (by intro f hf; cases hf)

namespace OpenPair

variable {m : Nat} {fa fb : List (String × Ty)} {rowA rowB w : TyVar} {θ : Valuation}

theorem core_behind {fs : List (String × Ty)} {v : TyVar} (hw : κ.isRow w.id)
    (h : (Ty.record fs (some v)).Core κ) :
    κ.records ∧ κ.isRow v.id ∧ (Ty.record fs (some w)).Core κ := by
  cases h with
  | record hrec hasc hrow hfs =>
      exact ⟨hrec, hrow v rfl, .record hrec hasc (by rintro u ⟨⟩; exact hw) hfs⟩

/-- Fields over a new row are respected if the new row stands for none of them. -/
theorem respects_withRow {fs : List (String × Ty)} {v : TyVar} {r : RecordTy} (hr : r.toTy.Tame)
    (hw : w.id = m + 1) (hcore : (Ty.record fs (some v)).Core κ)
    (hle : ∀ id, (Ty.record fs (some v)).Mentions id → id ≤ m)
    (hresp : θ.Respects (.record fs (some v)))
    (hnone : ∀ name t, Table.get? name fs = some t → r.field? name = none) :
    (θ.withRow w.id r hr).Respects (.record fs (some w)) := by
  have hagree : θ.AgreesUpTo m (θ.withRow w.id r hr) :=
    Valuation.agreesUpTo_withRow hr (by omega)
  cases hresp with
  | record _ hfs =>
      cases hcore with
      | record _ _ _ hcores =>
          refine .record (fun name hname => ?_) fun f hf => ?_
          · obtain ⟨t, ht⟩ := Option.isSome_iff_exists.1 (Table.get?_isSome.2 hname)
            show (if w.id = w.id then r else θ.row w.id).field? name = none
            rw [if_pos rfl]
            exact hnone name t ht
          · exact hagree.respects (hcores f hf)
              (fun id hid => hle id (Ty.mentions_record.2 (.inl ⟨f, hf, hid⟩))) (hfs f hf)

theorem mentioned_rowEquations {id : Int} (h : Mentioned (rowEquations fa fb rowA rowB w) id) :
    id = w.id ∨ Mentioned [(.record fa (some rowA), .record fb (some rowB))] id := by
  rw [rowEquations, mentioned_append, mentioned_pair, mentioned_pair] at h
  rw [mentioned_pair]
  simp only [Ty.mentions_record, Option.some.injEq] at h ⊢
  rcases h with (⟨⟨f, hf, -⟩ | h⟩ | h | ⟨v, rfl, rfl⟩) | ⟨⟨f, hf, -⟩ | h⟩ | h | ⟨v, rfl, rfl⟩
  · cases hf
  · exact .inr (.inl (.inr h))
  · exact .inr (.inr (.inl h))
  · exact .inl rfl
  · cases hf
  · exact .inr (.inr (.inr h))
  · exact .inr (.inl (.inl h))
  · exact .inl rfl

variable (h : OpenPair κ m fa fb rowA rowB w)
include h

/-- Where the rows satisfy their equations, the records are one. -/
theorem form_eq (hu : θ.Unifies (rowEquations fa fb rowA rowB w)) :
    θ.form (.record fa (some rowA)) = θ.form (.record fb (some rowB)) := by
  obtain ⟨hrec, hrowA, hcoreA⟩ := core_behind h.isRow h.coreA
  obtain ⟨-, hrowB, hcoreB⟩ := core_behind h.isRow h.coreB
  obtain ⟨h₁, h₂⟩ := Valuation.unifies_append.1 hu
  have h₁ := (form_bare_row hrec hrowA).symm.trans (unifies_pair.1 h₁)
  have h₂ := (form_bare_row hrec hrowB).symm.trans (unifies_pair.1 h₂)
  obtain ⟨hid₁, hat₁⟩ := (Valuation.form_eq_toTy hcoreB (θ.tame_row rowA.id)).1 h₁.symm
  obtain ⟨hid₂, hat₂⟩ := (Valuation.form_eq_toTy hcoreA (θ.tame_row rowB.id)).1 h₂.symm
  refine (Valuation.form_record h.coreA h.coreB).2 ⟨hid₁.symm.trans hid₂, fun name => ?_⟩
  show Option.or _ ((θ.row rowA.id).formAt name) = Option.or _ ((θ.row rowB.id).formAt name)
  rw [← hat₁ name, ← hat₂ name]
  rcases h.disjoint name with hnone | hnone
  · rw [hnone]; simp
  · rw [hnone]; simp

/-- Where the records are one, the new row can be given a value that makes the rows satisfy their
equations: what the first row stands for, apart from the other's fields. -/
theorem unifies (hrb : θ.Respects (.record fb (some rowB)))
    (hu : θ.form (.record fa (some rowA)) = θ.form (.record fb (some rowB))) :
    (θ.withRow w.id (behind θ rowA fb) (tame_behind θ rowA fb)).Unifies
      (rowEquations fa fb rowA rowB w) := by
  obtain ⟨hid, hat⟩ := (Valuation.form_record h.coreA h.coreB).1 hu
  have hat : ∀ name, Option.or _ ((θ.row rowA.id).formAt name) =
    Option.or _ ((θ.row rowB.id).formAt name) := hat
  obtain ⟨hrec, hrowA, hcoreA⟩ := core_behind h.isRow h.coreA
  obtain ⟨-, hrowB, hcoreB⟩ := core_behind h.isRow h.coreB
  generalize hθ : θ.withRow w.id (behind θ rowA fb) (tame_behind θ rowA fb) = θ'
  have hagree : θ.AgreesUpTo m θ' := by
    have := h.new
    rw [← hθ]
    exact Valuation.agreesUpTo_withRow _ (by omega)
  -- The new row `w` stands for what is left of the first row without the fields of the second
  -- record; the other unknowns are older and read as before.
  have hrest : θ'.rest (some w) = behind θ rowA fb := by rw [← hθ]; exact if_pos rfl
  have hold : ∀ {fs : List (String × Ty)} {v : TyVar}, (Ty.record fs (some v)).Core κ →
      (∀ id, (Ty.record fs (some v)).Mentions id → id ≤ m) →
      θ'.row v.id = θ.row v.id ∧
        ∀ name, (Table.get? name fs).map θ'.form = (Table.get? name fs).map θ.form := by
    intro fs v hcore hle
    refine ⟨(hagree _ (hle _ (Ty.mentions_record.2 (.inr ⟨_, rfl, rfl⟩)))).2, ?_⟩
    cases hcore with
    | record _ _ _ hfs =>
        exact hagree.map_form hfs fun f hf id hid =>
          hle id (Ty.mentions_record.2 (.inl ⟨f, hf, hid⟩))
  obtain ⟨holdA, hformA⟩ := hold h.coreA h.olderA
  obtain ⟨holdB, hformB⟩ := hold h.coreB h.olderB
  refine Valuation.unifies_append.2 ⟨unifies_pair.2 ?_, unifies_pair.2 ?_⟩
  · rw [form_bare_row hrec hrowA, holdA]
    refine ((Valuation.form_eq_toTy hcoreB (θ.tame_row rowA.id)).2
      ⟨by rw [hrest]; rfl, fun name => ?_⟩).symm
    rw [hformB, hrest, RecordTy.formAt, field?_behind]
    cases hy : Table.get? name fb with
    | none => rfl
    | some y =>
        have hname := hat name
        rw [(h.disjoint name).resolve_right (by rw [hy]; simp), hy] at hname
        exact hname.symm
  · rw [form_bare_row hrec hrowB, holdB]
    refine ((Valuation.form_eq_toTy hcoreA (θ.tame_row rowB.id)).2
      ⟨by rw [hrest]; exact hid, fun name => ?_⟩).symm
    have hname := hat name
    rw [hformA, hrest, RecordTy.formAt, field?_behind]
    cases hx : Table.get? name fa with
    | some x =>
        rw [hx, (h.disjoint name).resolve_left (by rw [hx]; simp)] at hname
        exact hname
    | none =>
        cases hy : Table.get? name fb with
        | none => rw [hx, hy] at hname; exact hname
        | some y => exact (Valuation.formAt_eq_none.2 (hrb.field?_row hy)).symm

theorem amounts : Amounts κ m (m + 1) [(.record fa (some rowA), .record fb (some rowB))]
    (rowEquations fa fb rowA rowB w) := by
  obtain ⟨hrec, -, -⟩ := core_behind h.isRow h.coreA
  have hnew := h.new
  refine ⟨fun id hid => ?_, fun θ hu => unifies_pair.2 (h.form_eq hu), fun θ hr hu => ?_,
    fun hκ => absurd hrec hκ⟩
  · rcases mentioned_rowEquations hid with rfl | hid
    · exact .inr ⟨hrec, by omega, by omega⟩
    · exact .inl hid
  · obtain ⟨hra, hrb⟩ := respectsAll_pair.1 hr
    refine ⟨θ.withRow w.id (behind θ rowA fb) (tame_behind θ rowA fb),
      Valuation.agreesUpTo_withRow _ (by omega), ?_, h.unifies hrb (unifies_pair.1 hu)⟩
    refine Valuation.respectsAll_append.2 ⟨respectsAll_pair.2 ⟨respects_bare _ rowA, ?_⟩,
      respectsAll_pair.2 ⟨respects_bare _ rowB, ?_⟩⟩
    · refine respects_withRow _ hnew h.coreB h.olderB hrb fun name t ht => ?_
      rw [field?_behind, ht]
      rfl
    · refine respects_withRow _ hnew h.coreA h.olderA hra fun name t ht => ?_
      rw [field?_behind, hra.field?_row ht, ite_self]

theorem posed (hfresh : ∀ id : Int, (m : Int) < id → κ.isRow id) :
    Posed κ (m + 1) (rowEquations fa fb rowA rowB w) := by
  obtain ⟨hrec, hrowA, hcoreA⟩ := core_behind h.isRow h.coreA
  obtain ⟨-, hrowB, hcoreB⟩ := core_behind h.isRow h.coreB
  have hbare : ∀ {v : TyVar}, κ.isRow v.id → (Ty.record [] (some v)).Core κ := fun hv =>
    .record hrec List.Pairwise.nil (by rintro u ⟨⟩; exact hv) (by intro f hf; cases hf)
  refine ⟨fun t ht => ?_, fun t ht id hid => ?_, fun _ id hid => hfresh id (by omega)⟩
  · have hmem : t = .record [] (some rowA) ∨ t = .record fb (some w) ∨
        t = .record [] (some rowB) ∨ t = .record fa (some w) := by
      simpa [rowEquations, sides] using ht
    rcases hmem with rfl | rfl | rfl | rfl
    · exact hbare hrowA
    · exact hcoreB
    · exact hbare hrowB
    · exact hcoreA
  · have hnew := h.new
    rcases mentioned_rowEquations ⟨t, ht, hid⟩ with rfl | hid
    · omega
    · rcases mentioned_pair.1 hid with hid | hid
      · have := h.olderA id hid
        omega
      · have := h.olderB id hid
        omega

theorem ne_new : rowA.id ≠ w.id ∧ rowB.id ≠ w.id := by
  have hA := h.olderA _ (Ty.mentions_record.2 (.inr ⟨rowA, rfl, rfl⟩))
  have hB := h.olderB _ (Ty.mentions_record.2 (.inr ⟨rowB, rfl, rfl⟩))
  have := h.new
  constructor <;> omega

theorem refutes_first (hocc : (Ty.record fb (some w)).Mentions rowA.id) :
    Refutes [(.record fa (some rowA), .record fb (some rowB))] False := by
  obtain ⟨-, hrowA, -⟩ := core_behind h.isRow h.coreA
  obtain ⟨-, -, hcoreB⟩ := core_behind h.isRow h.coreB
  refine Refutes.of_amounts h.amounts fun θ hr hu => ?_
  refine refutes_row_occurs hrowA hcoreB ?_ hocc θ (Valuation.respectsAll_append.1 hr).1
    (Valuation.unifies_append.1 hu).1
  rintro u ⟨⟩
  exact h.ne_new.1.symm

section Bindings

variable (hA : ¬ (Ty.record fb (some w)).Mentions rowA.id)
include hA

/-- What is left of the second equation when the first row is bound. -/
theorem apply_first : apply (.single rowA (.record fb (some w)))
      [(.record [] (some rowB), .record fa (some w))] =
    [(.record [] (some rowB),
      .record (fa.map fun f => (f.1, (Subst.single rowA (.record fb (some w))).apply f.2))
        (some w))] := by
  have hB : (Subst.single rowA (.record fb (some w))).get? rowB.id = none := by
    rw [get?_single_of_free hA, if_neg h.distinct.symm]
  have hw : (Subst.single rowA (.record fb (some w))).get? w.id = none := by
    rw [get?_single_of_free hA, if_neg h.ne_new.1.symm]
  show [(Subst.apply _ _, Subst.apply _ _)] = _
  rw [Subst.apply_open_unbound hB, Subst.apply_open_unbound hw]
  rfl

theorem solves_first : Solves κ (m + 1) (m + 1) [(.record [] (some rowA), .record fb (some w))]
    (.single rowA (.record fb (some w))) := by
  obtain ⟨-, hrowA, -⟩ := core_behind h.isRow h.coreA
  obtain ⟨-, -, hcoreB⟩ := core_behind h.isRow h.coreB
  exact solves_row _ hrowA hcoreB hA

theorem core_second : (Ty.record
    (fa.map fun f => (f.1, (Subst.single rowA (.record fb (some w))).apply f.2)) (some w)).Core κ := by
  obtain ⟨-, -, hcoreA⟩ := core_behind h.isRow h.coreA
  have hw : (Subst.single rowA (.record fb (some w))).get? w.id = none := by
    rw [get?_single_of_free hA, if_neg h.ne_new.1.symm]
  have := (h.solves_first hA).solved.core.apply hcoreA
  rwa [Subst.apply_open_unbound hw] at this

theorem refutes_second (hfresh : ∀ id : Int, (m : Int) < id → κ.isRow id)
    (hocc : (Ty.record (fa.map fun f => (f.1, (Subst.single rowA (.record fb (some w))).apply f.2))
      (some w)).Mentions rowB.id) :
    Refutes [(.record fa (some rowA), .record fb (some rowB))] False := by
  obtain ⟨-, hrowB, -⟩ := core_behind h.isRow h.coreB
  refine Refutes.of_amounts h.amounts ((h.solves_first hA).refutes (h.posed hfresh) ?_)
  rw [h.apply_first hA]
  refine refutes_row_occurs hrowB (h.core_second hA) ?_ hocc
  rintro u ⟨⟩
  exact h.ne_new.2.symm

section Second

variable (hB : ¬ (Ty.record (fa.map fun f =>
  (f.1, (Subst.single rowA (.record fb (some w))).apply f.2)) (some w)).Mentions rowB.id)
include hB

theorem solves_second : Solves κ (m + 1) (m + 1)
    (apply (.single rowA (.record fb (some w))) [(.record [] (some rowB), .record fa (some w))])
    (.single rowB (.record (fa.map fun f =>
      (f.1, (Subst.single rowA (.record fb (some w))).apply f.2)) (some w))) := by
  obtain ⟨-, hrowB, -⟩ := core_behind h.isRow h.coreB
  rw [h.apply_first hA]
  exact solves_row _ hrowB (h.core_second hA) hB

/-- Binding one row after the other solves that the records are one. -/
theorem solves (hfresh : ∀ id : Int, (m : Int) < id → κ.isRow id) :
    Solves κ m (m + 1) [(.record fa (some rowA), .record fb (some rowB))]
      ((Subst.single rowB (.record (fa.map fun f =>
        (f.1, (Subst.single rowA (.record fb (some w))).apply f.2)) (some w))).after
        (.single rowA (.record fb (some w)))) := by
  refine Solves.of_amounts h.amounts (Nat.le_succ m) (Nat.le_refl _) ?_
  exact (h.solves_first hA).append (h.posed hfresh) (Nat.le_refl _) (Nat.le_refl _)
    (h.solves_second hA hB)

end Second

omit h in
/-- The first binding mentions the new row and what the records mention. -/
theorem mentions_first {id : Int}
    (hid : (Subst.single rowA (.record fb (some w))).Mentions id) :
    id = w.id ∨ Mentioned [(.record fa (some rowA), .record fb (some rowB))] id := by
  refine mentioned_rowEquations (mentioned_append.2 (.inl (mentioned_pair.2 ?_)))
  rcases mentions_single hA hid with rfl | hid
  · exact .inl (Ty.mentions_record.2 (.inr ⟨rowA, rfl, rfl⟩))
  · exact .inr hid

theorem mentions_second (hB : ¬ (Ty.record (fa.map fun f =>
      (f.1, (Subst.single rowA (.record fb (some w))).apply f.2)) (some w)).Mentions rowB.id)
    {id : Int} (hid : (Subst.single rowB (.record (fa.map fun f =>
      (f.1, (Subst.single rowA (.record fb (some w))).apply f.2)) (some w))).Mentions id) :
    id = w.id ∨ Mentioned [(.record fa (some rowA), .record fb (some rowB))] id := by
  rcases (h.solves_second hA hB).inside id hid with ⟨t, ht, hid⟩ | ⟨-, hlt, hle⟩
  · rw [sides_apply] at ht
    obtain ⟨u, hu, rfl⟩ := List.mem_map.1 ht
    obtain ⟨hrec, hrowB, hcoreB⟩ := core_behind h.isRow h.coreB
    obtain ⟨-, -, hcoreA⟩ := core_behind h.isRow h.coreA
    have hcore : u.Core κ := by
      have hmem : u = .record [] (some rowB) ∨ u = .record fa (some w) := by
        simpa [sides] using hu
      rcases hmem with rfl | rfl
      · exact .record hrec List.Pairwise.nil (by rintro v ⟨⟩; exact hrowB)
          (by intro f hf; cases hf)
      · exact hcoreA
    rcases Subst.mentions_or_of_apply (h.solves_first hA).solved.core hcore hid with hid | hid
    · exact mentioned_rowEquations (mentioned_append.2 (.inr ⟨u, hu, hid⟩))
    · exact mentions_first hA hid
  · omega

end Bindings

end OpenPair

/-! ## The answer -/

theorem disjoint_own (name : String) :
    Table.get? name ((own a b).map fun f => (f.1, s.apply f.2)) = none ∨
      Table.get? name ((own b a).map fun f => (f.1, s.apply f.2)) = none := by
  rw [Table.get?_map, Table.get?_map, get?_own, get?_own]
  cases a.field? name <;> cases b.field? name <;> simp

/-- What is left of two records, under a substitution that leaves their rows alone. -/
theorem apply_rest (hfa : RowFree s a) (hfb : RowFree s b) :
    apply s [(.record (own a b) a.row, .record (own b a) b.row)] =
      [(.record ((own a b).map fun f => (f.1, s.apply f.2)) a.row,
        .record ((own b a).map fun f => (f.1, s.apply f.2)) b.row)] := by
  show [(s.apply _, s.apply _)] = _
  rw [apply_own hfa, apply_own hfb]

theorem bindVar_record (v : TyVar) (gs : List (String × Ty)) (rest : Option TyVar) :
    bindVar ctx v (.record gs rest) =
      if (Ty.record gs rest).occurs v then
        throw ⟨.occursCheck v.render (Ty.record gs rest).render, ctx.span⟩
      else pure (.single v (.record gs rest)) := rfl

/-- Two records whose shared fields have been unified without giving their rows fields. -/
structure Halfway (κ : Sorts) (n m : Nat) (a b : RecordTy) (s : Subst) : Prop where
  coreA : a.toTy.Core κ
  coreB : b.toTy.Core κ
  posed : Posed κ n (equations a b)
  solves : Solves κ n m (a.sharedFields b) s
  le : n ≤ m
  freeA : RowFree s a
  freeB : RowFree s b

section Answer

variable (h : Halfway κ n p.supply.count a b s)
include h

theorem Halfway.core_rest : (Ty.record ((own a b).map fun f => (f.1, s.apply f.2)) a.row).Core κ ∧
    (Ty.record ((own b a).map fun f => (f.1, s.apply f.2)) b.row).Core κ := by
  rw [← apply_own h.freeA, ← apply_own h.freeB]
  exact ⟨h.solves.solved.core.apply (core_own h.coreA),
    h.solves.solved.core.apply (core_own h.coreB)⟩

/-- The fields that both records have are one, and there are no others. -/
theorem Halfway.answers_settled (hrow : a.row.map TyVar.id = b.row.map TyVar.id)
    (hA : (Text.Names.diff a.names b.names).isEmpty = true)
    (hB : (Text.Names.diff b.names a.names).isEmpty = true) :
    Answers κ excuse n p (equations a b) (pure s) := by
  refine answers_solved (h.solves.of_amounts (amounts_drop n _ fun θ => unifies_pair.2 ?_)
    (Nat.le_refl n) h.le)
  have hrest : θ.rest a.row = θ.rest b.row := by
    cases hra : a.row <;> cases hrb : b.row <;> simp_all [Valuation.rest]
  rw [own_eq_nil hA, own_eq_nil hB]
  show (Ty.record _ _).form = (Ty.record _ _).form
  rw [hrest]

/-- An open record, and a closed one that has all its fields. -/
theorem Halfway.answers_closed_right {row : TyVar} (hra : a.row = some row) (hrb : b.row = none)
    (hA : (Text.Names.diff a.names b.names).isEmpty = true) :
    Answers κ excuse n p (equations a b)
      (extendRow ctx s row (b.pick s (Text.Names.diff b.names a.names)) none) := by
  obtain ⟨-, hcoreB⟩ := h.core_rest
  have hrow : κ.isRow row.id := by
    cases h.coreA with
    | record _ _ hrow _ => exact hrow row hra
  refine h.solves.answers h.posed h.le ?_
  rw [apply_rest h.freeA h.freeB, own_eq_nil hA, pick_diff (ascending_fields h.coreB), hra, hrb]
  rw [hrb] at hcoreB
  exact answers_bindRow ctx hrow hcoreB (by intro w hw; cases hw)

/-- A closed record, and an open one that has none but its fields. -/
theorem Halfway.answers_closed_left {row : TyVar} (hra : a.row = none) (hrb : b.row = some row)
    (hB : (Text.Names.diff b.names a.names).isEmpty = true) :
    Answers κ excuse n p (equations a b)
      (extendRow ctx s row (a.pick s (Text.Names.diff a.names b.names)) none) := by
  obtain ⟨hcoreA, -⟩ := h.core_rest
  have hrow : κ.isRow row.id := by
    cases h.coreB with
    | record _ _ hrow _ => exact hrow row hrb
  refine h.solves.answers h.posed h.le
    (.of_amounts (amounts_swap _ _ _) (Nat.le_refl _) (Nat.le_refl _) ?_)
  rw [apply_own h.freeA, apply_own h.freeB, own_eq_nil hB, pick_diff (ascending_fields h.coreA),
    hra, hrb]
  rw [hra] at hcoreA
  exact answers_bindRow ctx hrow hcoreA (by intro w hw; cases hw)

/-- Two open records with different rows: both are bound, to a common new one. -/
theorem Halfway.answers_open {rowA rowB : TyVar} (hra : a.row = some rowA)
    (hrb : b.row = some rowB) (hne : rowA.id ≠ rowB.id) :
    Answers κ excuse n p (equations a b) (do
      let behind ← fresh (min rowA.level rowB.level)
      let s ← extendRow ctx s rowA (b.pick s (Text.Names.diff b.names a.names)) (some behind)
      extendRow ctx s rowB (a.pick s (Text.Names.diff a.names b.names)) (some behind)) := by
  refine Ends.bind (ends_fresh ?_)
  generalize hw : (⟨(p.supply.count : Int) + 1, min rowA.level rowB.level⟩ : TyVar) = w
  have hwid : w.id = p.supply.count + 1 := by rw [← hw]
  -- What is left of the records, and the equations of the rows that it amounts to.
  obtain ⟨hcoreA, hcoreB⟩ := h.core_rest
  have hposed := h.solves.posed h.posed h.le
  rw [apply_rest h.freeA h.freeB] at hposed
  rw [pick_diff (ascending_fields h.coreB)]
  have hdisjoint := disjoint_own (a := a) (b := b) (s := s)
  rw [hra] at hcoreA hposed
  rw [hrb] at hcoreB hposed
  generalize hfa : ((own a b).map fun f => (f.1, s.apply f.2)) = fa at *
  generalize hfb : ((own b a).map fun f => (f.1, s.apply f.2)) = fb at *
  have hpair : OpenPair κ p.supply.count fa fb rowA rowB w :=
    ⟨hwid, hposed.fresh (records_of_core h.coreA) _ (by omega), hcoreA, hcoreB,
      hposed.older _ (by simp [sides]), hposed.older _ (by simp [sides]), hne, hdisjoint⟩
  have hfresh := hposed.fresh (records_of_core h.coreA)
  have hrest : apply s [(.record (own a b) a.row, .record (own b a) b.row)] =
      [(.record fa (some rowA), .record fb (some rowB))] := by
    rw [apply_rest h.freeA h.freeB, hfa, hfb, hra, hrb]
  have hfree : ∀ {id : Int}, id = w.id ∨
      Mentioned [(.record fa (some rowA), .record fb (some rowB))] id → s.get? id = none := by
    rintro id (rfl | hid)
    · cases hg : s.get? w.id with
      | none => rfl
      | some t =>
          have := h.solves.older h.posed.left h.le (.inl ⟨t, hg⟩)
          omega
    · rw [← hrest] at hid
      obtain ⟨t, ht, hid⟩ := hid
      rw [sides_apply] at ht
      obtain ⟨u, hu, rfl⟩ := List.mem_map.1 ht
      exact h.solves.solved.free_of_mentions (h.posed.right.core u hu) hid
  have hadv : Advances p { p with supply := ⟨p.supply.count + 1⟩ } := ⟨Nat.le_succ _, id⟩
  have hrefute : Refutes [(.record fa (some rowA), .record fb (some rowB))] False →
      ∀ excused : Prop, Refutes (equations a b) excused := by
    intro href excused θ hr hu
    have := h.solves.refutes h.posed (hrest ▸ href)
    exact (this θ hr hu).elim
  unfold extendRow
  rw [bindVar_record]
  by_cases hA : (Ty.record fb (some w)).Mentions rowA.id
  · rw [if_pos (Ty.occurs_iff_mentions.2 hA)]
    exact Ends.bind (Ends.bind (ends_throw ⟨hadv, hrefute (hpair.refutes_first hA) _⟩))
  · rw [if_neg fun hocc => hA (Ty.occurs_iff_mentions.1 hocc)]
    refine Ends.bind (Ends.bind (ends_pure (ends_pure ?_)))
    have hapart₁ : (Subst.single rowA (.record fb (some w))).Apart s := fun id hid =>
      hfree (OpenPair.mentions_first hA hid)
    have hfirst := hpair.solves_first hA
    have hpick : a.pick ((Subst.single rowA (.record fb (some w))).after s)
        (Text.Names.diff a.names b.names) =
        fa.map fun f => (f.1, (Subst.single rowA (.record fb (some w))).apply f.2) := by
      rw [pick_diff (ascending_fields h.coreA), ← hfa, List.map_map]
      refine List.map_congr_left fun f hf => ?_
      have hcore : f.2.Core κ := by
        cases core_own (b := b) h.coreA with
        | record _ _ _ hfs => exact hfs f hf
      rw [Subst.apply_after h.solves.solved hfirst.solved hapart₁ hcore]
      rfl
    rw [hpick, bindVar_record]
    by_cases hB : (Ty.record (fa.map fun f =>
        (f.1, (Subst.single rowA (.record fb (some w))).apply f.2)) (some w)).Mentions rowB.id
    · rw [if_pos (Ty.occurs_iff_mentions.2 hB)]
      exact Ends.bind (ends_throw ⟨hadv, hrefute (hpair.refutes_second hA hfresh hB) _⟩)
    · rw [if_neg fun hocc => hB (Ty.occurs_iff_mentions.1 hocc)]
      refine Ends.bind (ends_pure (ends_pure ⟨hadv, ?_⟩))
      -- Composed from the left this is what solves the rest, after what solves the fields.
      have hsecond := hpair.solves_second hA hB
      have hapart₂ : (Subst.single rowB (.record (fa.map fun f =>
          (f.1, (Subst.single rowA (.record fb (some w))).apply f.2)) (some w))).Apart s :=
        fun id hid => hfree (hpair.mentions_second hA hB hid)
      have hall := h.solves.append h.posed h.le (Nat.le_succ _)
        (hrest ▸ hpair.solves hA hB hfresh)
      refine hall.congr ?_ fun id => (Subst.get?_after_assoc h.solves.solved hfirst.solved
        hsecond.solved hapart₁ (hfirst.apart (hpair.posed hfresh) (Nat.le_refl _) hsecond)
        hapart₂ id).symm
      exact hsecond.solved.ordered.after
        (hfirst.solved.ordered.after h.solves.solved.ordered)

/-- Unifying the rows answers what unifying the shared fields left. -/
theorem Halfway.answers_rows : Answers κ excuse n p (equations a b)
    (unifyRows ctx s a b (Text.Names.diff a.names b.names)
      (Text.Names.diff b.names a.names)) := by
  have hextraA : ¬ (Text.Names.diff a.names b.names).isEmpty = true →
      (∀ θ : Valuation, θ.Respects (.record (own a b) a.row) → ∀ name x,
        Table.get? name (own a b) = some x → (θ.rest b.row).formAt name = none) →
      Refutes (equations a b) False := fun hA hrest =>
    refutes_append (refutes_own h.coreA h.coreB hA hrest)
  have hextraB : ¬ (Text.Names.diff b.names a.names).isEmpty = true →
      (∀ θ : Valuation, θ.Respects (.record (own b a) b.row) → ∀ name x,
        Table.get? name (own b a) = some x → (θ.rest a.row).formAt name = none) →
      Refutes (equations a b) False := fun hB hrest =>
    refutes_append (refutes_swap (refutes_own h.coreB h.coreA hB hrest))
  unfold unifyRows
  rw [rowUnder_eq h.freeA, rowUnder_eq h.freeB]
  cases hra : a.row with
  | none =>
      cases hrb : b.row with
      | none =>
          dsimp only
          by_cases hA : (Text.Names.diff a.names b.names).isEmpty = true
          · by_cases hB : (Text.Names.diff b.names a.names).isEmpty = true
            · rw [if_pos (by rw [hA, hB]; rfl)]
              exact h.answers_settled (by rw [hra, hrb]) hA hB
            · rw [if_neg (by simp [hB])]
              exact answers_refuted (hextraB hB fun θ _ name x _ => by rw [hra]; rfl)
          · rw [if_neg (by simp [hA])]
            exact answers_refuted (hextraA hA fun θ _ name x _ => by rw [hrb]; rfl)
      | some row =>
          dsimp only
          by_cases hB : (Text.Names.diff b.names a.names).isEmpty = true
          · rw [if_pos hB]
            exact h.answers_closed_left ctx hra hrb hB
          · rw [if_neg hB]
            exact answers_refuted (hextraB hB fun θ _ name x _ => by rw [hra]; rfl)
  | some rowA =>
      cases hrb : b.row with
      | none =>
          dsimp only
          by_cases hA : (Text.Names.diff a.names b.names).isEmpty = true
          · rw [if_pos hA]
            exact h.answers_closed_right ctx hra hrb hA
          · rw [if_neg hA]
            exact answers_refuted (hextraA hA fun θ _ name x _ => by rw [hrb]; rfl)
      | some rowB =>
          dsimp only
          by_cases hid : rowA.id = rowB.id
          · -- One row on both sides stands for none of the fields that stand before it.
            rw [if_pos hid]
            have hnone : ∀ {fs : List (String × Ty)} {v w : TyVar} {θ : Valuation},
                v.id = w.id → θ.Respects (.record fs (some v)) → ∀ name x,
                Table.get? name fs = some x → (θ.rest (some w)).formAt name = none := by
              intro fs v w θ hvw hr name x hx
              show (θ.row w.id).formAt name = none
              rw [← hvw]
              exact Valuation.formAt_eq_none.2 (hr.field?_row hx)
            by_cases hA : (Text.Names.diff a.names b.names).isEmpty = true
            · by_cases hB : (Text.Names.diff b.names a.names).isEmpty = true
              · rw [if_pos (by rw [hA, hB]; rfl)]
                exact h.answers_settled (by rw [hra, hrb]; exact congrArg some hid) hA hB
              · rw [if_neg (by simp [hB])]
                refine answers_refuted (hextraB hB fun θ hr => ?_)
                rw [hrb] at hr
                rw [hra]
                exact hnone hid.symm hr
            · rw [if_neg (by simp [hA])]
              refine answers_refuted (hextraA hA fun θ hr => ?_)
              rw [hra] at hr
              rw [hrb]
              exact hnone hid hr
          · rw [if_neg hid]
            exact h.answers_open ctx hra hrb hid

end Answer

/-- Unifying two records answers that they are one. -/
theorem answers_unifyRecords {rel : Relation} (hrel : Decides κ excuse rel)
    (hE : Posed κ p.supply.count [(a.toTy, b.toTy)]) :
    Answers κ excuse p.supply.count p [(a.toTy, b.toTy)] (unifyRecords ctx rel a b) := by
  have ha : a.toTy.Core κ := hE.core _ (by simp [sides])
  have hb : b.toTy.Core κ := hE.core _ (by simp [sides])
  have hshared : ∀ t ∈ sides (a.sharedFields b), t.Core κ := by
    intro t ht
    obtain ⟨name, h | h⟩ := side_sharedFields ht
    · exact core_field ha h
    · exact core_field hb h
  have hagain := amounts_again p.supply.count ha hb
  have hequations := amounts_equations p.supply.count ha hb
  have hposedAgain := hE.of_amounts hagain fun t ht => by
    rw [sides_append] at ht
    exact (List.mem_append.1 ht).elim (hshared t) (hE.core t)
  have hposedEquations := hE.of_amounts hequations fun t ht => by
    rw [equations, sides_append] at ht
    refine (List.mem_append.1 ht).elim (hshared t) fun ht => ?_
    have hmem : t = .record (own a b) a.row ∨ t = .record (own b a) b.row := by
      simpa [sides] using ht
    rcases hmem with rfl | rfl
    · exact core_own ha
    · exact core_own hb
  unfold unifyRecords
  -- Two ways on from the shared fields: unifying anew where they gave a row fields, and
  -- unifying the rows where they did not.
  refine Ends.bind ((answers_pairs hrel hposedAgain.left).imp ?_ ?_)
  · rintro s q ⟨hadv, hs⟩
    have hle := hadv.count
    split
    · have hnext := hs.answers hposedAgain hle (hrel q _ _ (hs.posed hposedAgain hle))
      exact (hnext.of_amounts hagain (Nat.le_refl _) hle).since hadv
    · next hgrows =>
        have hhalf : Halfway κ p.supply.count q.supply.count a b s :=
          ⟨ha, hb, hposedEquations, hs, hle,
            rowFree_of_not_grows hs.solved.core ha fun h => hgrows (by simp [h]),
            rowFree_of_not_grows hs.solved.core hb fun h => hgrows (by simp [h])⟩
        exact ((hhalf.answers_rows ctx).of_amounts hequations (Nat.le_refl _) hle).since hadv
  · rintro e q ⟨hadv, href⟩
    refine ⟨hadv, fun θ hr hu => ?_⟩
    obtain ⟨hra, hrb⟩ := respectsAll_pair.1 hr
    exact href θ (respectsAll_sharedFields hra hrb)
      (unifies_sharedFields ha hb (unifies_pair.1 hu))

end Relate

end RowTypes
