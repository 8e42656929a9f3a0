import RowTypes.Proofs.Fitting

/-!
# Records told apart

Records that share a field with two different literals are told apart by it.  A substitution drops
no field and changes no literal, so they stay told apart, and a union of such records is a union of
as many under every substitution.

Joining branches builds no other unions.  What it comes to are the joint types: those without
alternatives, unions of records told apart, and tuples of joint types.  A settled substitution
treats them like types without alternatives.  A branch fits a joint type if it fits it as it is, or
one of its alternatives, or does so element by element.
-/

namespace RowTypes

namespace Ty

/-- A record in which the field of a name is a literal. -/
def Tagged (name value : String) (t : Ty) : Prop :=
  ∃ fs row, t = .record fs row ∧ Table.get? name fs = some (.lit value)

/-- Records that share a field with two different literals. -/
def ToldApart (a b : Ty) : Prop := ∃ name v w, a.Tagged name v ∧ b.Tagged name w ∧ v ≠ w

/-- At least two records, each told apart from every other. -/
structure Divided (ts : List Ty) : Prop where
  two : 2 ≤ ts.length
  record : ∀ t ∈ ts, ∃ fs row, t = .record fs row
  apart : ts.Pairwise ToldApart

theorem ToldApart.not_equiv {a b : Ty} (h : a.ToldApart b) : a.equiv b = false := by
  obtain ⟨name, v, w, ⟨fs, row, rfl, hv⟩, ⟨gs, row', rfl, hw⟩, hne⟩ := h
  rw [Bool.eq_false_iff]
  intro heq
  rw [equiv, equivUnder, Bool.and_eq_true] at heq
  obtain ⟨t, ht, hequiv⟩ := equivFields_iff.1 heq.2 _ (Table.mem_of_get? hv)
  rw [hw, Option.some.injEq] at ht
  subst ht
  simp [equivUnder, hne] at hequiv

theorem toldApart_of_toldApart {a b : RecordTy} (ha : Table.Ascending a.fields)
    (h : a.toldApart b = true) : a.toTy.ToldApart b.toTy := by
  obtain ⟨⟨name, t⟩, hmem, htag⟩ := List.any_eq_true.1 h
  dsimp only at htag
  split at htag
  · next v w hw =>
      refine ⟨name, v, w, ⟨_, _, rfl, Table.get?_of_mem ha hmem⟩, ⟨_, _, rfl, hw⟩, ?_⟩
      simpa using htag
  · cases htag

/-- Records told apart make a union of as many alternatives. -/
theorem Divided.unionOf_eq {ts : List Ty} (h : Divided ts) : unionOf ts = .union ts := by
  have hflat : alternativesAll ts = ts := alternativesAll_eq_self fun t ht us => by
    obtain ⟨fs, row, rfl⟩ := h.record t ht
    exact Ty.noConfusion
  have hdistinct : distinct ts = ts := distinct_eq_self (h.apart.imp ToldApart.not_equiv)
  have htwo := h.two
  rw [unionOf, unionOf?, hflat, hdistinct]
  match ts, htwo with
  | _ :: _ :: _, _ => rfl

/-- One more record that is told apart from all. -/
theorem Divided.append {κ : Sorts} {ts : List Ty} {fs : List (String × Ty)} {row : Option TyVar}
    (h : Divided ts) (hts : ∀ t ∈ ts, t.Unmixed κ)
    (hapart : (ts.all fun t => (t.record?).any fun r => r.toldApart ⟨fs, row⟩) = true) :
    Divided (ts ++ [.record fs row]) where
  two := by
    have := h.two
    rw [List.length_append]
    omega
  record := List.forall_mem_append.2 ⟨h.record, List.forall_mem_singleton.2 ⟨fs, row, rfl⟩⟩
  apart := by
    refine List.pairwise_append.2 ⟨h.apart, List.pairwise_singleton _ _, fun t ht u hu => ?_⟩
    obtain ⟨gs, row', rfl⟩ := h.record t ht
    rw [List.mem_singleton.1 hu]
    refine toldApart_of_toldApart (a := ⟨gs, row'⟩) (b := ⟨fs, row⟩) ?_ ?_
    · cases hts _ ht with
      | record _ hasc _ _ => exact hasc
    · simpa [record?] using List.all_eq_true.1 hapart _ ht

/-- Types in which alternatives show at the top or inside tuples. -/
inductive Split : Ty → Prop where
  | union {ts : List Ty} : Divided ts → Split (.union ts)
  | tuple {t : Ty} {ts : List Ty} : t ∈ ts → Split t → Split (.tuple ts)

/-- What joins come to: types without alternatives, unions of records told apart, and tuples. -/
inductive Joint (κ : Sorts) : Ty → Prop where
  | unmixed {t : Ty} : t.Unmixed κ → Joint κ t
  | union {ts : List Ty} : Divided ts → (∀ t ∈ ts, t.Unmixed κ) → Joint κ (.union ts)
  | tuple {ts : List Ty} : (∀ t ∈ ts, Joint κ t) → Joint κ (.tuple ts)

theorem Joint.stable {κ : Sorts} {t : Ty} (h : t.Joint κ) : t.Stable := by
  induction h with
  | unmixed h => exact h.stable
  | union h hts => exact .union h.unionOf_eq fun t ht => (hts t ht).stable
  | tuple _ ih => exact .tuple ih

theorem Joint.unmixed_or_split {κ : Sorts} {t : Ty} (h : t.Joint κ) : t.Unmixed κ ∨ t.Split := by
  induction h with
  | unmixed h => exact .inl h
  | union h _ => exact .inr (.union h)
  | @tuple ts _ ih =>
      by_cases hall : ∀ t ∈ ts, t.Unmixed κ
      · exact .inl (.tuple hall)
      · simp only [not_forall] at hall
        obtain ⟨t, ht, hmixed⟩ := hall
        exact .inr (.tuple ht ((ih t ht).resolve_left hmixed))

end Ty

/-! ## Substitutions -/

namespace Subst

variable {κ : Sorts} {s next : Subst} {t : Ty} {ts : List Ty} {id : Int}

/-- A record stays one, with all its fields. -/
theorem exists_apply_record (s : Subst) (fs : List (String × Ty)) (row : Option TyVar) :
    ∃ gs row', s.apply (.record fs row) = .record gs row' ∧
      ∀ name t, Table.get? name fs = some t → Table.get? name gs = some (s.apply t) := by
  have hmap : ∀ name t, Table.get? name fs = some t →
      Table.get? name (fs.map fun f => (f.1, s.apply f.2)) = some (s.apply t) := by
    intro name t ht
    rw [Table.get?_map, ht]
    rfl
  cases row with
  | none => exact ⟨_, _, apply_closed s fs, hmap⟩
  | some row =>
      rw [apply_open]
      unfold RecordTy.splice
      split
      · exact ⟨_, _, rfl, hmap⟩
      · exact ⟨_, _, rfl, hmap⟩
      · refine ⟨_, _, rfl, fun name t ht => ?_⟩
        rw [Table.get?_underlay, hmap name t ht]
        rfl
      · exact ⟨_, _, rfl, hmap⟩

theorem toldApart_apply {a b : Ty} (s : Subst) (h : a.ToldApart b) :
    (s.apply a).ToldApart (s.apply b) := by
  have htag : ∀ {name value : String} {t : Ty}, t.Tagged name value →
      (s.apply t).Tagged name value := by
    rintro name value _ ⟨fs, row, rfl, hget⟩
    obtain ⟨gs, row', happly, hfields⟩ := exists_apply_record s fs row
    refine ⟨gs, row', happly, ?_⟩
    rw [hfields name _ hget, apply_lit]
  obtain ⟨name, v, w, ha, hb, hne⟩ := h
  exact ⟨name, v, w, htag ha, htag hb, hne⟩

theorem divided_apply (s : Subst) (h : Ty.Divided ts) : Ty.Divided (ts.map s.apply) where
  two := by
    rw [List.length_map]
    exact h.two
  record := by
    intro u hu
    obtain ⟨t, ht, rfl⟩ := List.mem_map.1 hu
    obtain ⟨fs, row, rfl⟩ := h.record t ht
    obtain ⟨gs, row', happly, -⟩ := exists_apply_record s fs row
    exact ⟨gs, row', happly⟩
  apart := List.pairwise_map.2 (h.apart.imp (toldApart_apply s))

/-- A union of records told apart keeps its alternatives. -/
theorem apply_divided (s : Subst) (h : Ty.Divided ts) :
    s.apply (.union ts) = .union (ts.map s.apply) := by
  by_cases hempty : s.isEmpty = true
  · rw [apply_of_isEmpty hempty, map_apply_of_isEmpty hempty]
  · rw [apply_union (by simpa using hempty), (divided_apply s h).unionOf_eq]

theorem split_apply (s : Subst) (h : t.Split) : (s.apply t).Split := by
  induction h with
  | union h =>
      rw [apply_divided s h]
      exact .union (divided_apply s h)
  | tuple ht _ ih =>
      rw [apply_tuple]
      exact .tuple (List.mem_map_of_mem ht) ih

section Settled

variable (hs : s.Settled κ)
include hs

theorem Settled.joint (ht : t.Joint κ) : (s.apply t).Joint κ := by
  induction ht with
  | unmixed ht => exact .unmixed (hs.apply ht)
  | union h hts =>
      rw [apply_divided s h]
      exact .union (divided_apply s h) (List.forall_mem_map.2 fun t ht => hs.apply (hts t ht))
  | tuple _ ih =>
      rw [apply_tuple]
      exact .tuple (List.forall_mem_map.2 ih)

theorem Settled.free_of_joint (ht : t.Joint κ) (h : (s.apply t).Mentions id) :
    s.get? id = none := by
  induction ht with
  | unmixed ht => exact hs.free_of_mentions ht h
  | union hdivided hts =>
      rw [apply_divided s hdivided, Ty.mentions_union] at h
      obtain ⟨u, hu, hid⟩ := h
      obtain ⟨t, ht, rfl⟩ := List.mem_map.1 hu
      exact hs.free_of_mentions (hts t ht) hid
  | tuple _ ih =>
      rw [apply_tuple, Ty.mentions_tuple] at h
      obtain ⟨u, hu, hid⟩ := h
      obtain ⟨t, ht, rfl⟩ := List.mem_map.1 hu
      exact ih t ht hid

theorem Settled.mentions_or_of_joint (ht : t.Joint κ) (h : (s.apply t).Mentions id) :
    t.Mentions id ∨ s.Mentions id := by
  induction ht with
  | unmixed ht => exact hs.mentions_or_of_apply ht h
  | union hdivided hts =>
      rw [apply_divided s hdivided, Ty.mentions_union] at h
      obtain ⟨u, hu, hid⟩ := h
      obtain ⟨t, ht, rfl⟩ := List.mem_map.1 hu
      exact (hs.mentions_or_of_apply (hts t ht) hid).imp_left fun h =>
        Ty.mentions_union.2 ⟨t, ht, h⟩
  | tuple _ ih =>
      rw [apply_tuple, Ty.mentions_tuple] at h
      obtain ⟨u, hu, hid⟩ := h
      obtain ⟨t, ht, rfl⟩ := List.mem_map.1 hu
      exact (ih t ht hid).imp_left fun h => Ty.mentions_tuple.2 ⟨t, ht, h⟩

theorem Settled.joint_after (hn : next.Settled κ) (hapart : next.Apart s) (ht : t.Joint κ) :
    (next.after s).apply t = next.apply (s.apply t) := by
  induction ht with
  | unmixed ht => exact hs.apply_after hn hapart ht
  | union h hts =>
      rw [apply_divided _ h, apply_divided s h, apply_divided next (divided_apply s h),
        List.map_map]
      exact congrArg _ (List.map_congr_left fun t ht => hs.apply_after hn hapart (hts t ht))
  | tuple _ ih =>
      rw [apply_tuple, apply_tuple, apply_tuple, List.map_map]
      exact congrArg _ (List.map_congr_left ih)

end Settled

end Subst

/-! ## Fitting a joint type -/

namespace Ty

/-- A type fits another one, or one of its alternatives, or does so element by element. -/
inductive Under : Ty → Ty → Prop where
  | fits {a t : Ty} : a.Fits t → Under a t
  | alternative {a t : Ty} {ts : List Ty} : t ∈ ts → a.Fits t → Under a (.union ts)
  | tuple {as ts : List Ty} : as.length = ts.length → (∀ e ∈ as.zip ts, Under e.1 e.2) →
      Under (.tuple as) (.tuple ts)

/-- A type as a join may widen it: strings for a literal, and more alternatives. -/
inductive Widens : Ty → Ty → Prop where
  | refl (t : Ty) : Widens t t
  | string (value : String) : Widens (.lit value) .string
  | alternative {fs : List (String × Ty)} {row : Option TyVar} {ts : List Ty} :
      .record fs row ∈ ts → Widens (.record fs row) (.union ts)
  | union {ts us : List Ty} : (∀ t ∈ ts, t ∈ us) → Widens (.union ts) (.union us)
  | tuple {as ts : List Ty} : as.length = ts.length → (∀ e ∈ as.zip ts, Widens e.1 e.2) →
      Widens (.tuple as) (.tuple ts)

variable {κ : Sorts} {a b t : Ty}

theorem exists_between {bs as ts : List Ty} (hlen : bs.length = as.length) {e : Ty × Ty}
    (he : e ∈ bs.zip ts) : ∃ a, (e.1, a) ∈ bs.zip as ∧ (a, e.2) ∈ as.zip ts := by
  obtain ⟨i, hi⟩ := List.mem_iff_getElem?.1 he
  obtain ⟨hb, ht⟩ := List.getElem?_zip_eq_some.1 hi
  obtain ⟨hib, -⟩ := List.getElem?_eq_some_iff.1 hb
  have hia : i < as.length := hlen ▸ hib
  have ha := List.getElem?_eq_getElem hia
  refine ⟨as[i], List.mem_of_getElem? (i := i) ?_, List.mem_of_getElem? (i := i) ?_⟩
  · exact List.getElem?_zip_eq_some.2 ⟨hb, ha⟩
  · exact List.getElem?_zip_eq_some.2 ⟨ha, ht⟩

theorem exists_mem_zip {as ts : List Ty} (hlen : as.length = ts.length) (ht : t ∈ ts) :
    ∃ a, (a, t) ∈ as.zip ts := by
  rw [← List.map_snd_zip (Nat.le_of_eq hlen.symm)] at ht
  obtain ⟨e, he, rfl⟩ := List.mem_map.1 ht
  exact ⟨e.1, he⟩

/-- What fits a type fits what the type was widened to. -/
theorem Under.widen (h : b.Under a) (hw : a.Widens t) : b.Under t := by
  induction hw generalizing b with
  | refl t => exact h
  | string value =>
      cases h with
      | fits h =>
          cases h with
          | lit _ => exact .fits (.asString value)
          | asLit _ => exact .fits (.prim "String")
  | alternative hmem =>
      cases h with
      | fits h => exact .alternative hmem h
  | union hsub =>
      cases h with
      | fits h => cases h
      | alternative ht h => exact .alternative (hsub _ ht) h
  | tuple hlen _ ih =>
      cases h with
      | fits h =>
          cases h with
          | tuple hlen' hall =>
              refine .tuple (hlen'.trans hlen) fun e he => ?_
              obtain ⟨a, hb, ha⟩ := exists_between hlen' he
              exact ih _ ha (.fits (hall _ hb))
      | tuple hlen' hall =>
          refine .tuple (hlen'.trans hlen) fun e he => ?_
          obtain ⟨a, hb, ha⟩ := exists_between hlen' he
          exact ih _ ha (hall _ hb)

theorem Joint.unmixed_of_fits (ht : t.Joint κ) (h : a.Fits t) : t.Unmixed κ := by
  induction ht generalizing a with
  | unmixed ht => exact ht
  | union _ _ => cases h
  | tuple _ ih =>
      cases h with
      | tuple hlen hall =>
          refine .tuple fun t ht => ?_
          obtain ⟨a, ha⟩ := exists_mem_zip hlen ht
          exact ih t ht (hall _ ha)

theorem Joint.of_mem_union {ts : List Ty} (h : (Ty.union ts).Joint κ) :
    Divided ts ∧ ∀ t ∈ ts, t.Unmixed κ := by
  cases h with
  | unmixed h => cases h
  | union hdivided hts => exact ⟨hdivided, hts⟩

theorem Joint.of_mem_tuple {ts : List Ty} (h : (Ty.tuple ts).Joint κ) : ∀ t ∈ ts, t.Joint κ := by
  cases h with
  | unmixed h =>
      cases h with
      | tuple hts => exact fun t ht => .unmixed (hts t ht)
  | tuple hts => exact hts

end Ty

namespace Subst

variable {κ : Sorts} {s : Subst} {a t : Ty}

theorem Settled.under (hs : s.Settled κ) (ha : a.Unmixed κ) (ht : t.Joint κ) (h : a.Under t) :
    (s.apply a).Under (s.apply t) := by
  induction h with
  | fits h => exact .fits (hs.fits ha (ht.unmixed_of_fits h) h)
  | alternative hmem h =>
      obtain ⟨hdivided, hts⟩ := ht.of_mem_union
      rw [apply_divided s hdivided]
      exact .alternative (List.mem_map_of_mem hmem) (hs.fits ha (hts _ hmem) h)
  | tuple hlen _ ih =>
      cases ha with
      | tuple has =>
          rw [apply_tuple, apply_tuple]
          refine .tuple (by simpa using hlen) fun e he => ?_
          rw [List.zip_map, List.mem_map] at he
          obtain ⟨e, he, rfl⟩ := he
          obtain ⟨hea, het⟩ := List.of_mem_zip he
          exact ih e he (has _ hea) (ht.of_mem_tuple _ het)

theorem widens_apply (s : Subst) (ha : a.Joint κ) (ht : t.Joint κ) (h : a.Widens t) :
    (s.apply a).Widens (s.apply t) := by
  induction h with
  | refl t => exact .refl _
  | string value => rw [apply_lit, Ty.string, apply_prim]; exact .string value
  | @alternative fs row ts hmem =>
      have hmem' := List.mem_map_of_mem (f := s.apply) hmem
      obtain ⟨gs, row', happly, -⟩ := exists_apply_record s fs row
      rw [apply_divided s ht.of_mem_union.1, happly]
      exact .alternative (happly ▸ hmem')
  | union hsub =>
      rw [apply_divided s ha.of_mem_union.1, apply_divided s ht.of_mem_union.1]
      exact .union (List.forall_mem_map.2 fun t ht => List.mem_map_of_mem (hsub t ht))
  | tuple hlen _ ih =>
      rw [apply_tuple, apply_tuple]
      refine .tuple (by simpa using hlen) fun e he => ?_
      rw [List.zip_map, List.mem_map] at he
      obtain ⟨e, he, rfl⟩ := he
      obtain ⟨hea, het⟩ := List.of_mem_zip he
      exact ih e he (ha.of_mem_tuple _ hea) (ht.of_mem_tuple _ het)

end Subst

end RowTypes
