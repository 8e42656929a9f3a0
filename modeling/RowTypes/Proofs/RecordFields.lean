import RowTypes.Proofs.MostGeneral

/-!
# The fields of records while substitutions grow

Width subtyping and spreading look at the fields of records one after the other, and what they
find for one field is used for the next.  What is said here is what they have in common.

A substitution may give the row of a record more fields, but it takes none away, and the types of
the fields that a record names are what the substitution makes of them.  Types that are equivalent
stay so under every later substitution.  So whatever holds between the fields of two records at
some point holds at the end, as long as later substitutions refine earlier ones: they do, because
what is found next mentions nothing that was bound before.
-/

namespace RowTypes

open Equations

/-- The type is a record that has a field of the name, with the type. -/
def Ty.HasField (t : Ty) (name : String) (u : Ty) : Prop :=
  ∃ r : RecordTy, t = r.toTy ∧ r.field? name = some u

/-- A substitution gives a type a field of the name, whose type is equivalent to another one. -/
def Subst.Gives (s : Subst) (record : Ty) (name : String) (t : Ty) : Prop :=
  ∃ u, (s.apply record).HasField name u ∧ u.equiv (s.apply t) = true

/-- A substitution refines an earlier one: it makes equivalent what that made equivalent, and it is
done to what that gave as to the type itself. -/
structure Subst.Refines (κ : Sorts) (s s' : Subst) : Prop where
  equiv : ∀ {a b : Ty}, a.Core κ → b.Core κ → (s.apply a).equiv (s.apply b) = true →
    (s'.apply a).equiv (s'.apply b) = true
  absorbs : ∀ {t : Ty}, t.Core κ → s'.apply (s.apply t) = s'.apply t

/-- A core type of unknowns that were asked about, or that were made between two counts. -/
structure Ty.Inside (κ : Sorts) (P : Int → Prop) (n m : Nat) (t : Ty) : Prop where
  core : t.Core κ
  inside : ∀ id, t.Mentions id → P id ∨ ((n : Int) < id ∧ id ≤ m)

/-- A substitution found on the way: it is solved, and is about unknowns that were asked about, or
that were made between two counts. -/
structure Subst.Gained (κ : Sorts) (P : Int → Prop) (n m : Nat) (s : Subst) : Prop where
  solved : s.Solved κ
  inside : ∀ id, s.Mentions id → P id ∨ ((n : Int) < id ∧ id ≤ m)

section Fields

variable {κ : Sorts} {s : Subst} {a b t u : Ty} {name : String}

theorem Ty.HasField.ne_var (h : t.HasField name u) (v : TyVar) : t ≠ .var v := by
  obtain ⟨r, rfl, -⟩ := h
  exact nofun

theorem Ty.hasField_record {fs : List (String × Ty)} {row : Option TyVar} :
    (Ty.record fs row).HasField name u ↔ Table.get? name fs = some u := by
  constructor
  · rintro ⟨⟨gs, row'⟩, hr, hu⟩
    cases hr
    exact hu
  · exact fun h => ⟨⟨fs, row⟩, rfl, h⟩

theorem Ty.HasField.core (h : t.HasField name u) (ht : t.Core κ) : u.Core κ := by
  obtain ⟨r, rfl, hu⟩ := h
  exact RecordTy.core_field ht hu

theorem Ty.HasField.mentions (h : t.HasField name u) {id : Int} (hid : u.Mentions id) :
    t.Mentions id := by
  obtain ⟨r, rfl, hu⟩ := h
  exact RecordTy.mentions_field hu hid

/-- A type that is equivalent to a record has its fields. -/
theorem Ty.HasField.of_equiv (ha : a.Tame) (hb : b.Tame) (hab : a.equiv b = true)
    (h : b.HasField name t) : ∃ u, a.HasField name u ∧ u.equiv t = true := by
  obtain ⟨⟨gs, row'⟩, rfl, ht⟩ := h
  cases ha with
  | record row hfs =>
      cases hb with
      | record _ hgs =>
          have hname := ((Ty.equiv_record hfs hgs).1 hab).2 name
          rw [show Table.get? name gs = some t from ht] at hname
          generalize hget : Table.get? name _ = x at hname
          cases hname with
          | some hut => exact ⟨_, Ty.hasField_record.2 hget, hut⟩
  | _ => simp [RecordTy.toTy, Ty.equiv, Ty.equivUnder] at hab

theorem Ty.HasField.unique (h : t.HasField name a) (h' : t.HasField name b) : a = b := by
  obtain ⟨r, rfl, ha⟩ := h
  obtain ⟨r', hr, hb⟩ := h'
  cases r
  cases r'
  cases hr
  exact Option.some.inj (ha.symm.trans hb)

/-- A type that is equivalent to a record is a record. -/
theorem Ty.exists_toTy_of_equiv {r : RecordTy} (h : a.equiv r.toTy = true) :
    ∃ r' : RecordTy, a = r'.toTy := by
  obtain ⟨gs, row, rfl⟩ := exists_record_of_equiv_record h
  exact ⟨⟨gs, row⟩, rfl⟩

theorem Subst.Core.exists_record (hs : s.Core κ) {r : RecordTy} (hr : r.toTy.Core κ) :
    ∃ r' : RecordTy, s.apply r.toTy = r'.toTy := by
  obtain ⟨fs, row⟩ := r
  cases hr with
  | record _ _ hrow _ =>
      cases row with
      | none => exact ⟨⟨_, none⟩, Subst.apply_closed s fs⟩
      | some v =>
          rcases hs.row_cases (hrow v rfl) with hfree | ⟨gs, rest, hbound⟩
          · exact ⟨⟨_, some v⟩, Subst.apply_open_unbound hfree⟩
          · exact ⟨⟨_, rest⟩, Subst.apply_open_bound hbound⟩

/-- A record keeps the fields that it names. -/
theorem Ty.HasField.apply (hs : s.Core κ) (ht : t.Core κ) (h : t.HasField name u) :
    (s.apply t).HasField name (s.apply u) := by
  obtain ⟨⟨fs, row⟩, rfl, hu⟩ := h
  have hmap : Table.get? name (fs.map fun f => (f.1, s.apply f.2)) = some (s.apply u) := by
    rw [Table.get?_map]
    exact congrArg _ hu
  cases ht with
  | record _ _ hrow _ =>
      cases row with
      | none => exact ⟨⟨_, none⟩, Subst.apply_closed s fs, hmap⟩
      | some v =>
          rcases hs.row_cases (hrow v rfl) with hfree | ⟨gs, rest, hbound⟩
          · exact ⟨⟨_, some v⟩, Subst.apply_open_unbound hfree, hmap⟩
          · refine ⟨⟨_, rest⟩, Subst.apply_open_bound hbound, ?_⟩
            show Table.get? name (Table.underlay _ gs) = _
            rw [Table.get?_underlay, hmap]
            rfl

/-- A record has the fields that its row stands for, unless it names them itself. -/
theorem hasField_of_row {r : RecordTy} {v : TyVar} {gs : List (String × Ty)} {rest : Option TyVar}
    (hrow : r.row = some v) (hbound : s.get? v.id = some (.record gs rest))
    (hnone : r.field? name = none) (hu : Table.get? name gs = some u) :
    (s.apply r.toTy).HasField name u := by
  obtain ⟨fs, row⟩ := r
  cases hrow
  have hmap : Table.get? name (fs.map fun f => (f.1, s.apply f.2)) = none := by
    rw [Table.get?_map]
    exact congrArg (Option.map s.apply) hnone
  refine ⟨⟨_, rest⟩, Subst.apply_open_bound hbound, ?_⟩
  show Table.get? name (Table.underlay _ gs) = _
  rw [Table.get?_underlay, hmap]
  exact hu

/-- A field of a record under a substitution is one that the record names, or one that its row
stands for. -/
theorem hasField_apply_cases (hs : s.Core κ) {r : RecordTy} (hr : r.toTy.Core κ)
    (h : (s.apply r.toTy).HasField name u) :
    (∃ t, r.field? name = some t ∧ s.apply t = u) ∨
      ∃ v gs rest, r.row = some v ∧ s.get? v.id = some (.record gs rest) ∧
        Table.get? name gs = some u := by
  obtain ⟨fs, row⟩ := r
  have hnamed : Table.get? name (fs.map fun f => (f.1, s.apply f.2)) = some u →
      ∃ t, Table.get? name fs = some t ∧ s.apply t = u := by
    rw [Table.get?_map]
    exact Option.map_eq_some_iff.1
  cases hr with
  | record _ _ hrow _ =>
      cases row with
      | none =>
          rw [RecordTy.toTy, Subst.apply_closed, Ty.hasField_record] at h
          exact .inl (hnamed h)
      | some v =>
          rcases hs.row_cases (hrow v rfl) with hfree | ⟨gs, rest, hbound⟩
          · rw [RecordTy.toTy, Subst.apply_open_unbound hfree, Ty.hasField_record] at h
            exact .inl (hnamed h)
          · rw [RecordTy.toTy, Subst.apply_open_bound hbound, Ty.hasField_record,
              Table.get?_underlay] at h
            cases hget : Table.get? name (fs.map fun f => (f.1, s.apply f.2)) with
            | none =>
                rw [hget] at h
                exact .inr ⟨v, gs, rest, rfl, hbound, h⟩
            | some t =>
                rw [hget] at h
                cases h
                exact .inl (hnamed hget)

/-- A record whose row is free has the fields that it names, and no others. -/
theorem hasField_of_free (hs : s.Core κ) {r : RecordTy} (hr : r.toTy.Core κ)
    (hfree : ∀ v, r.row = some v → s.get? v.id = none)
    (h : (s.apply r.toTy).HasField name u) : ∃ t, r.field? name = some t ∧ s.apply t = u := by
  rcases hasField_apply_cases hs hr h with hnamed | ⟨v, gs, rest, hv, hbound, -⟩
  · exact hnamed
  · rw [hfree v hv] at hbound
    cases hbound

/-- Equivalent types stay equivalent. -/
theorem Subst.Core.equiv_apply (hs : s.Core κ) (ha : a.Core κ) (hb : b.Core κ)
    (h : a.equiv b = true) : (s.apply a).equiv (s.apply b) = true := by
  have htame : ∀ {t : Ty}, ∀ id u, t.Mentions id → s.get? id = some u → u.Tame :=
    fun id u _ hu => (hs id u hu).1.tame
  have hform := Valuation.form_eq_of_equiv (θ := s.valuation) ha hb h
  rw [Subst.form_valuation ha htame, Subst.form_valuation hb htame] at hform
  exact (Ty.form_eq_iff (Subst.tame_apply ha htame) (Subst.tame_apply hb htame)).1 hform

end Fields

/-! ## Refining -/

namespace Subst

variable {κ : Sorts} {s s' s'' next : Subst}

theorem Solved.refines_self (hs : s.Solved κ) : Refines κ s s where
  equiv := fun _ _ h => h
  absorbs := fun ht => hs.apply_apply ht

theorem Refines.trans (hs : s.Core κ) (h : Refines κ s s')
    (h' : Refines κ s' s'') : Refines κ s s'' where
  equiv := fun ha hb hab => h'.equiv ha hb (h.equiv ha hb hab)
  absorbs := fun {t} ht => by
    rw [← h'.absorbs (hs.apply ht), h.absorbs ht, h'.absorbs ht]

/-- What is found next refines what was found. -/
theorem Solved.refines_after (hs : s.Solved κ) (hn : next.Solved κ) (hapart : next.Apart s) :
    Refines κ s (next.after s) where
  equiv := fun ha hb hab => by
    rw [apply_after hs hn hapart ha, apply_after hs hn hapart hb]
    exact hn.core.equiv_apply (hs.core.apply ha) (hs.core.apply hb) hab
  absorbs := fun ht => by
    rw [apply_after hs hn hapart (hs.core.apply ht), hs.apply_apply ht, apply_after hs hn hapart ht]

end Subst

/-! ## Growing -/

section Growing

variable {κ : Sorts} {P : Int → Prop} {n m m' : Nat} {s next : Subst} {a b t : Ty}

theorem Ty.Inside.later (h : t.Inside κ P n m) (hm : m ≤ m') : t.Inside κ P n m' :=
  ⟨h.core, fun id hid => (h.inside id hid).imp_right fun hid => ⟨hid.1, by omega⟩⟩

theorem Ty.Inside.older (hP : ∀ id, P id → id ≤ n) (hnm : n ≤ m) (h : t.Inside κ P n m) {id : Int}
    (hid : t.Mentions id) : id ≤ m := by
  rcases h.inside id hid with hid | hid
  · have := hP id hid
    omega
  · exact hid.2

namespace Subst

theorem gained_empty (κ : Sorts) (P : Int → Prop) (n m : Nat) : Gained κ P n m .empty :=
  ⟨solved_empty κ, fun _ hid => absurd hid not_mentions_empty⟩

theorem Gained.later (h : s.Gained κ P n m) (hm : m ≤ m') : s.Gained κ P n m' :=
  ⟨h.solved, fun id hid => (h.inside id hid).imp_right fun hid => ⟨hid.1, by omega⟩⟩

theorem Gained.older (hP : ∀ id, P id → id ≤ n) (hnm : n ≤ m) (h : s.Gained κ P n m) {id : Int}
    (hid : s.Mentions id) : id ≤ m := by
  rcases h.inside id hid with hid | hid
  · have := hP id hid
    omega
  · exact hid.2

theorem Gained.free (hP : ∀ id, P id → id ≤ n) (hnm : n ≤ m) (h : s.Gained κ P n m) {id : Int}
    (hid : m < id) : s.get? id = none := by
  cases hget : s.get? id with
  | none => rfl
  | some t =>
      have := h.older hP hnm (.inl ⟨t, hget⟩)
      omega

theorem Gained.apply (hs : s.Gained κ P n m) (ht : t.Inside κ P n m) :
    (s.apply t).Inside κ P n m :=
  ⟨hs.solved.core.apply ht.core, fun id hid =>
    (mentions_or_of_apply hs.solved.core ht.core hid).elim (ht.inside id) (hs.inside id)⟩

/-- What was given out before and not asked about stays free. -/
theorem Gained.get?_eq_none (hs : s.Gained κ P n m) {id : Int} (hid : ¬ P id) (hle : id ≤ n) :
    s.get? id = none := by
  cases hget : s.get? id with
  | none => rfl
  | some t =>
      rcases hs.inside id (.inl ⟨t, hget⟩) with hin | hnew
      · exact absurd hin hid
      · omega

/-- The fields of a record under what was found. -/
theorem Gained.field (hs : s.Gained κ P n m) {r : RecordTy} (hr : r.toTy.Core κ)
    (hfields : ∀ name t, r.field? name = some t → t.Inside κ P n m) {name : String} {u : Ty}
    (h : (s.apply r.toTy).HasField name u) : u.Inside κ P n m := by
  rcases hasField_apply_cases hs.solved.core hr h with ⟨t, ht, rfl⟩ | ⟨v, gs, rest, -, hbound, hu⟩
  · exact hs.apply (hfields name t ht)
  · have hrecord : (Ty.record gs rest).HasField name u := Ty.hasField_record.2 hu
    exact ⟨hrecord.core (hs.solved.core _ _ hbound).1,
      fun id hid => hs.inside id (.inr ⟨_, _, hbound, hrecord.mentions hid⟩)⟩

/-- What is found next is about unknowns that are free, or new ones. -/
structure Follows (P : Int → Prop) (n m m' : Nat) (s next : Subst) : Prop where
  free : ∀ id, next.Mentions id → s.get? id = none
  inside : ∀ id, next.Mentions id → P id ∨ ((n : Int) < id ∧ id ≤ m')

theorem Gained.after (hs : s.Gained κ P n m) (hm : m ≤ m') (hn : next.Solved κ)
    (h : Follows P n m m' s next) : (next.after s).Gained κ P n m' where
  solved := hs.solved.after hn h.free
  inside := fun id hid => (mentions_after hs.solved hn h.free hid).elim
    ((hs.later hm).inside id) (h.inside id)

theorem Gained.posed (hP : ∀ id, P id → id ≤ n) (hκ : ∀ id : Int, n < id → κ.isRow id)
    (hnm : n ≤ m) (hs : s.Gained κ P n m) (ha : a.Inside κ P n m) (hb : b.Inside κ P n m) :
    Posed κ m [(s.apply a, s.apply b)] := by
  have hsides : ∀ t ∈ sides [(s.apply a, s.apply b)], t.Inside κ P n m := by
    intro t ht
    rcases (by simpa [sides] using ht : t = s.apply a ∨ t = s.apply b) with rfl | rfl
    · exact hs.apply ha
    · exact hs.apply hb
  exact ⟨fun t ht => (hsides t ht).core, fun t ht _ hid => (hsides t ht).older hP hnm hid,
    fun _ id hid => hκ id (by omega)⟩

theorem Gained.follows (hP : ∀ id, P id → id ≤ n) (hnm : n ≤ m) (hm : m ≤ m')
    (hs : s.Gained κ P n m) (ha : a.Inside κ P n m) (hb : b.Inside κ P n m)
    (hnext : Solves κ m m' [(s.apply a, s.apply b)] next) : Follows P n m m' s next where
  free := fun id hid => by
    rcases hnext.inside id hid with hid | ⟨-, hid, -⟩
    · exact (mentioned_pair.1 hid).elim (hs.solved.free_of_mentions ha.core)
        (hs.solved.free_of_mentions hb.core)
    · exact hs.free hP hnm hid
  inside := fun id hid => by
    rcases hnext.inside id hid with hid | ⟨-, hid, hle⟩
    · exact ((mentioned_pair.1 hid).elim ((hs.apply ha).inside id)
        ((hs.apply hb).inside id)).imp_right fun hid => ⟨hid.1, by omega⟩
    · exact .inr ⟨by omega, hle⟩

/-- Unifying two types under what was found makes them equivalent, and refines it. -/
theorem Gained.unified (hP : ∀ id, P id → id ≤ n) (hκ : ∀ id : Int, n < id → κ.isRow id)
    (hnm : n ≤ m) (hm : m ≤ m') (hs : s.Gained κ P n m) (ha : a.Inside κ P n m)
    (hb : b.Inside κ P n m) (hnext : Solves κ m m' [(s.apply a, s.apply b)] next) :
    (next.after s).Gained κ P n m' ∧ s.Refines κ (next.after s) ∧
      ((next.after s).apply a).equiv ((next.after s).apply b) = true := by
  have hfollows := hs.follows hP hnm hm ha hb hnext
  refine ⟨hs.after hm hnext.solved hfollows,
    hs.solved.refines_after hnext.solved hfollows.free, ?_⟩
  rw [apply_after hs.solved hnext.solved hfollows.free ha.core,
    apply_after hs.solved hnext.solved hfollows.free hb.core]
  exact hnext.equiv (hs.posed hP hκ hnm ha hb) (List.mem_singleton_self _)

end Subst

end Growing

end RowTypes
