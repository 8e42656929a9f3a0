import RowTypes.Proofs.Coinduction
import RowTypes.Proofs.SolvedForms

/-!
# Types in which rows and other unknowns are kept apart

No unknown stands for a row in one place and for a type in another.  Substitutions that send rows
to records keep it that way, and so do references, if the definitions are of closed records and have
no other free unknowns than their parameters.  So these types are a grammar: solving does not leave
them.

The binders of recursive types count as unknowns for types, those of definitions included.  The
parameters of definitions may have any numbers, as they are replaced wherever they occur.
-/

namespace RowTypes

/-! ## Rows and other unknowns -/

namespace Ty

variable {plain row P : Int → Prop}

mutual

theorem Kinded.and_over : ∀ {t : Ty}, t.Kinded plain row → t.Over P →
    t.Kinded (fun id => plain id ∧ P id) (fun id => row id ∧ P id)
  | .var _, h, ho => ⟨h, over_var.1 ho⟩
  | .prim _, _, _ | .lit _, _, _ => trivial
  | .fn _ _, h, ho => ⟨h.1.and_over (over_fn.1 ho).1, h.2.and_over (over_fn.1 ho).2⟩
  | .record _ _, h, ho => ⟨h.1.and_over (over_record.1 ho).1,
      fun v hv => ⟨h.2 v hv, (over_record.1 ho).2 v hv⟩⟩
  | .tuple _, h, ho => KindedAll.and_over h (over_tuple.1 ho)
  | .union _, h, ho => KindedAll.and_over h (over_union.1 ho)
  | .inter _, h, ho => KindedAll.and_over h (over_inter.1 ho)
  | .named _ _, h, ho => KindedAll.and_over h (over_named.1 ho)
  | .mu _ _, h, ho => ⟨⟨h.1, (over_mu.1 ho).1⟩, h.2.and_over (over_mu.1 ho).2⟩

theorem KindedAll.and_over : ∀ {ts : List Ty}, KindedAll plain row ts → (∀ t ∈ ts, t.Over P) →
    KindedAll (fun id => plain id ∧ P id) (fun id => row id ∧ P id) ts
  | [], _, _ => trivial
  | _ :: _, h, ho => ⟨h.1.and_over (List.forall_mem_cons.1 ho).1,
      KindedAll.and_over h.2 (List.forall_mem_cons.1 ho).2⟩

theorem KindedFields.and_over : ∀ {fs : List (String × Ty)}, KindedFields plain row fs →
    (∀ f ∈ fs, f.2.Over P) →
    KindedFields (fun id => plain id ∧ P id) (fun id => row id ∧ P id) fs
  | [], _, _ => trivial
  | (_, _) :: _, h, ho => ⟨h.1.and_over (List.forall_mem_cons.1 ho).1,
      KindedFields.and_over h.2 (List.forall_mem_cons.1 ho).2⟩

end

mutual

/-- Substituting keeps rows and other unknowns apart, where rows are bound to records. -/
theorem Kinded.apply : ∀ {s : Subst} {t : Ty}, (∀ id u, s.get? id = some u → u.Kinded plain row) →
    s.RowsToRecords row → t.Kinded plain row → (s.apply t).Kinded plain row
  | s, .var v, hs, _, ht => by
      rw [Subst.apply_var]
      cases hv : s.get? v.id with
      | none => exact ht
      | some u => exact hs v.id u hv
  | s, .prim name, _, _, _ => by
      rw [Subst.apply_prim]
      trivial
  | s, .lit value, _, _, _ => by
      rw [Subst.apply.eq_def]
      split <;> trivial
  | s, .fn p r, hs, hrows, ht => by
      rw [Subst.apply_fn]
      exact ⟨ht.1.apply hs hrows, ht.2.apply hs hrows⟩
  | s, .record fs none, hs, hrows, ht => by
      rw [Subst.apply_closed, ← Subst.applyFields_eq_map]
      exact ⟨ht.1.apply hs hrows, by rintro v ⟨⟩⟩
  | s, .record fs (some v), hs, hrows, ht => by
      have hfs := ht.1.apply hs hrows
      rw [Subst.apply_open, ← Subst.applyFields_eq_map]
      cases hv : s.get? v.id with
      | none => exact ⟨hfs, ht.2⟩
      | some u =>
          obtain ⟨gs, rest, rfl⟩ := hrows v.id u (ht.2 v rfl) hv
          obtain ⟨hgs, hrest⟩ := kinded_record.1 (hs v.id _ hv)
          refine kinded_record.2 ⟨fun f hf => ?_, hrest⟩
          rcases Table.mem_underlay hf with hf | hf
          · exact kindedFields_iff.1 hfs f hf
          · exact hgs f hf
  | s, .tuple ts, hs, hrows, ht => by
      rw [Subst.apply_tuple, ← Subst.applyAll_eq_map]
      exact KindedAll.apply hs hrows ht
  | s, .union ts, hs, hrows, ht => by
      rw [Subst.apply]
      split
      · exact ht
      · exact of_unionOf (fun _ => kinded_union) (kindedAll_iff.1 (KindedAll.apply hs hrows ht))
  | s, .inter ts, hs, hrows, ht => by
      rw [Subst.apply]
      split
      · exact ht
      · exact of_interOf (fun _ => kinded_inter) (kindedAll_iff.1 (KindedAll.apply hs hrows ht))
  | s, .named name ts, hs, hrows, ht => by
      rw [Subst.apply_named, ← Subst.applyAll_eq_map]
      exact KindedAll.apply hs hrows ht
  | s, .mu v t, hs, hrows, ht => by
      rw [Subst.apply_mu]
      refine ⟨ht.1, ht.2.apply (fun id u hu => ?_) (hrows.erase v)⟩
      rw [Subst.get?_erase] at hu
      split at hu
      · cases hu
      · exact hs id u hu

theorem KindedAll.apply : ∀ {s : Subst} {ts : List Ty},
    (∀ id u, s.get? id = some u → u.Kinded plain row) → s.RowsToRecords row →
    KindedAll plain row ts → KindedAll plain row (s.applyAll ts)
  | _, [], _, _, _ => by
      rw [Subst.applyAll]
      trivial
  | _, _ :: _, hs, hrows, h => by
      rw [Subst.applyAll]
      exact ⟨h.1.apply hs hrows, KindedAll.apply hs hrows h.2⟩

theorem KindedFields.apply : ∀ {s : Subst} {fs : List (String × Ty)},
    (∀ id u, s.get? id = some u → u.Kinded plain row) → s.RowsToRecords row →
    KindedFields plain row fs → KindedFields plain row (s.applyFields fs)
  | _, [], _, _, _ => by
      rw [Subst.applyFields]
      trivial
  | _, (_, _) :: _, hs, hrows, h => by
      rw [Subst.applyFields]
      exact ⟨h.1.apply hs hrows, KindedFields.apply hs hrows h.2⟩

end

/-- A binder that is not a row may be replaced. -/
theorem Kinded.unfold {v : TyVar} {t : Ty} (h : (Ty.mu v t).Kinded (fun id => ¬ row id) row) :
    (Ty.unfold v t).Kinded (fun id => ¬ row id) row := by
  refine h.2.apply (fun id u hu => (Subst.eq_of_get?_single hu).2 ▸ h) fun id u hrow hu => ?_
  obtain ⟨rfl, -⟩ := Subst.eq_of_get?_single hu
  exact absurd hrow h.1

end Ty

/-- All types in which rows and other unknowns are kept apart. -/
def kindedTypes (isRow : Int → Prop) : Grammar where
  isRow := isRow
  Ok t := t.Kinded (fun id => ¬ isRow id) isRow
  kinded h := h
  prim _ := trivial
  fn h := h
  field h := (Ty.kinded_record.1 h).1
  record _ hfs hrow := Ty.kinded_record.2 ⟨hfs, hrow⟩
  tuple := Ty.kinded_tuple
  union h := Ty.kinded_union.1 h
  inter h := Ty.kinded_inter.1 h
  named h := Ty.kinded_named.1 h
  unionOf _ h := Ty.of_unionOf (fun _ => Ty.kinded_union) h
  unfold h := h.unfold
  apply hs hrows ht := ht.apply hs hrows

/-! ## Definitions -/

namespace Subst

/-- Of several types for one unknown, the last one counts; it may be the unknown itself. -/
theorem exists_self_of_get?_ofList {bindings : List (TyVar × Ty)} {id : Int} {b : TyVar × Ty}
    (h : (ofList bindings).get? id = none) (hb : b ∈ bindings) (hid : b.1.id = id) :
    ∃ b' ∈ bindings, ∃ w, b'.2 = .var w ∧ w.id = id := by
  have general : ∀ (bindings : List (TyVar × Ty)) (s : Subst),
      (bindings.foldl (fun s b => s.bind b.1 b.2) s).get? id = none →
      (∃ b ∈ bindings, ∃ w, b.2 = .var w ∧ w.id = id) ∨
        (∀ b ∈ bindings, b.1.id ≠ id) ∧ s.get? id = none := by
    intro bindings
    induction bindings with
    | nil => exact fun s h => .inr ⟨by simp, h⟩
    | cons b bindings ih =>
        intro s h
        rcases ih _ h with ⟨b', hb', hself⟩ | ⟨hrest, hnone⟩
        · exact .inl ⟨b', List.mem_cons_of_mem _ hb', hself⟩
        · rw [get?_bind] at hnone
          split at hnone
          · next heq =>
              refine .inl ⟨b, List.mem_cons_self, ?_⟩
              by_contra hother
              rw [held_of_ne fun w hw hid' => hother ⟨w, hw, hid'.trans heq.symm⟩] at hnone
              cases hnone
          · next heq =>
              exact .inr ⟨List.forall_mem_cons.2 ⟨Ne.symm heq, hrest⟩, hnone⟩
  exact (general bindings empty h).resolve_right fun hnone => hnone.1 b hb hid

end Subst

namespace Ty

variable {plain row V : Int → Prop} {t : Ty}

theorem mem_bindersAll {id : Int} {ts : List Ty} :
    id ∈ bindersAll ts ↔ ∃ t ∈ ts, id ∈ t.binders := by
  induction ts with
  | nil => simp [bindersAll]
  | cons t ts ih => rw [bindersAll, List.mem_append, ih, List.exists_mem_cons_iff]

theorem mem_bindersFields {id : Int} {fs : List (String × Ty)} :
    id ∈ bindersFields fs ↔ ∃ f ∈ fs, id ∈ f.2.binders := by
  induction fs with
  | nil => simp [bindersFields]
  | cons f fs ih => rw [bindersFields, List.mem_append, ih, List.exists_mem_cons_iff]

/-- A type of closed records has no rows at all. -/
theorem Rooted.kinded (h : t.Rooted (fun _ => False) V) (hV : ∀ id, V id → plain id)
    (hB : ∀ id ∈ t.binders, plain id) : t.Kinded plain row := by
  induction h with
  | var hv => exact hV _ hv
  | prim name => trivial
  | lit value => trivial
  | fn _ _ ihp ihr =>
      rw [binders, List.forall_mem_append] at hB
      exact ⟨ihp hV hB.1, ihr hV hB.2⟩
  | record _ hrow ih =>
      refine kinded_record.2 ⟨fun f hf => ih f hf hV fun id hid => hB id ?_, fun v hv => ?_⟩
      · rw [binders]
        exact mem_bindersFields.2 ⟨f, hf, hid⟩
      · exact (hrow v hv).elim
  | tuple _ ih =>
      refine kinded_tuple.2 fun t ht => ih t ht hV fun id hid => hB id ?_
      rw [binders]
      exact mem_bindersAll.2 ⟨t, ht, hid⟩
  | union _ ih =>
      refine kinded_union.2 fun t ht => ih t ht hV fun id hid => hB id ?_
      rw [binders]
      exact mem_bindersAll.2 ⟨t, ht, hid⟩
  | inter _ ih =>
      refine kinded_inter.2 fun t ht => ih t ht hV fun id hid => hB id ?_
      rw [binders]
      exact mem_bindersAll.2 ⟨t, ht, hid⟩
  | named _ ih =>
      refine kinded_named.2 fun t ht => ih t ht hV fun id hid => hB id ?_
      rw [binders]
      exact mem_bindersAll.2 ⟨t, ht, hid⟩
  | mu _ ih =>
      rw [binders, List.forall_mem_cons] at hB
      exact ⟨hB.1, ih (by rintro id (rfl | hid); exacts [hB.1, hV id hid]) hB.2⟩

/-- The parameters of a type of closed records may have any numbers, since they are replaced. -/
theorem Rooted.kinded_apply {s : Subst} (h : t.Rooted (fun _ => False) V)
    (hV : ∀ id, V id → s.get? id = none → plain id) (hB : ∀ id ∈ t.binders, plain id)
    (hs : ∀ id u, s.get? id = some u → u.Kinded plain row) : (s.apply t).Kinded plain row := by
  induction h generalizing s with
  | @var V v hv =>
      rw [Subst.apply_var]
      cases hget : s.get? v.id with
      | none => exact hV _ hv hget
      | some u => exact hs _ u hget
  | prim name =>
      rw [Subst.apply_prim]
      trivial
  | lit value =>
      rw [Subst.apply.eq_def]
      split <;> trivial
  | fn _ _ ihp ihr =>
      rw [binders, List.forall_mem_append] at hB
      rw [Subst.apply_fn]
      exact ⟨ihp hV hB.1 hs, ihr hV hB.2 hs⟩
  | @record V fs row _ hrow ih =>
      obtain rfl : row = none := Option.eq_none_iff_forall_ne_some.2 fun v hv => hrow v hv
      rw [binders] at hB
      rw [Subst.apply_closed]
      exact kinded_record.2 ⟨List.forall_mem_map.2 fun f hf => ih f hf hV
        (fun id hid => hB id (mem_bindersFields.2 ⟨f, hf, hid⟩)) hs, by rintro v ⟨⟩⟩
  | tuple _ ih =>
      rw [binders] at hB
      rw [Subst.apply_tuple]
      exact kinded_tuple.2 (List.forall_mem_map.2 fun t ht => ih t ht hV
        (fun id hid => hB id (mem_bindersAll.2 ⟨t, ht, hid⟩)) hs)
  | named _ ih =>
      rw [binders] at hB
      rw [Subst.apply_named]
      exact kinded_named.2 (List.forall_mem_map.2 fun t ht => ih t ht hV
        (fun id hid => hB id (mem_bindersAll.2 ⟨t, ht, hid⟩)) hs)
  | union hts ih =>
      rw [Subst.apply]
      split
      · next he => exact (Rooted.union hts).kinded (fun id hid => hV id hid
          (Subst.get?_of_isEmpty he id)) hB
      · rw [binders] at hB
        rw [Subst.applyAll_eq_map]
        exact of_unionOf (fun _ => kinded_union) (List.forall_mem_map.2 fun t ht => ih t ht hV
          (fun id hid => hB id (mem_bindersAll.2 ⟨t, ht, hid⟩)) hs)
  | inter hts ih =>
      rw [Subst.apply]
      split
      · next he => exact (Rooted.inter hts).kinded (fun id hid => hV id hid
          (Subst.get?_of_isEmpty he id)) hB
      · rw [binders] at hB
        rw [Subst.applyAll_eq_map]
        exact of_interOf (fun _ => kinded_inter) (List.forall_mem_map.2 fun t ht => ih t ht hV
          (fun id hid => hB id (mem_bindersAll.2 ⟨t, ht, hid⟩)) hs)
  | @mu V v t _ ih =>
      rw [binders, List.forall_mem_cons] at hB
      rw [Subst.apply_mu]
      refine ⟨hB.1, ih (fun id hid hget => ?_) hB.2 fun id u hu => ?_⟩
      · by_cases heq : id = v.id
        · exact heq ▸ hB.1
        · rw [Subst.get?_erase, if_neg heq] at hget
          exact hV id (hid.resolve_left heq) hget
      · rw [Subst.get?_erase] at hu
        split at hu
        · cases hu
        · exact hs id u hu

end Ty

namespace Definition

variable {plain row : Int → Prop} {d : Definition} {args : List Ty} {t : Ty} {id : Int}

/-- A parameter that is not replaced by anything else is among the arguments itself. -/
theorem exists_arg_of_get? (hlen : args.length = d.params.length)
    (hid : ∃ v ∈ d.params, v.id = id)
    (hget : (Subst.ofList (d.params.zip args)).get? id = none) :
    ∃ u ∈ args, ∃ w, u = .var w ∧ w.id = id := by
  obtain ⟨v, hv, rfl⟩ := hid
  obtain ⟨i, hi, rfl⟩ := List.getElem_of_mem hv
  have hmem : (d.params[i], args[i]) ∈ d.params.zip args :=
    List.mem_iff_getElem.2 ⟨i, by simp [hlen, hi], by simp⟩
  obtain ⟨b, hb, w, hw, hid⟩ := Subst.exists_self_of_get?_ofList hget hmem rfl
  exact ⟨b.2, (List.of_mem_zip hb).2, w, hw, hid⟩

theorem Closed.kinded_expand? (hd : d.Closed) (hB : ∀ id ∈ d.body.binders, plain id)
    (hargs : ∀ u ∈ args, u.Kinded plain row) (ht : d.expand? args = some t) :
    t.Kinded plain row := by
  unfold expand? at ht
  split at ht
  · next hlen =>
      cases ht
      refine hd.kinded_apply (fun id hid hget => ?_) hB fun id u hu => ?_
      · obtain ⟨u, hu, w, rfl, rfl⟩ := exists_arg_of_get? hlen hid hget
        exact hargs _ hu
      · obtain ⟨b, hb, -, rfl⟩ := Subst.mem_of_get?_ofList hu
        exact hargs b.2 (List.of_mem_zip hb).2
  · cases ht

/-- What a reference stands for has no other free unknowns than its arguments. -/
theorem Closed.mentions_expand? (hd : d.Closed) (ht : d.expand? args = some t)
    (hid : t.Mentions id) : ∃ u ∈ args, u.Mentions id := by
  unfold expand? at ht
  split at ht
  · next hlen =>
      cases ht
      have hkinded : d.body.Kinded (fun _ => True) (fun _ => False) :=
        Ty.Rooted.kinded hd (fun _ _ => trivial) fun _ _ => trivial
      rcases Subst.leaves_of_mentions_apply (fun _ _ h => h.elim) hkinded hid with
        ⟨hid, hget⟩ | ⟨j, u, -, hu, hid⟩
      · have hparam := (Ty.Rooted.of_mentions hd hid).resolve_right not_false
        obtain ⟨u, hu, w, rfl, hw⟩ := exists_arg_of_get? hlen hparam hget
        exact ⟨_, hu, Ty.mentions_var.2 hw⟩
      · obtain ⟨b, hb, -, rfl⟩ := Subst.mem_of_get?_ofList hu
        exact ⟨b.2, (List.of_mem_zip hb).2, hid⟩
  · cases ht

end Definition

/-- Closed definitions keep rows and other unknowns apart, if their binders are not rows. -/
theorem Registry.Closed.expands {r : Registry} {isRow : Int → Prop} (hr : r.Closed)
    (hB : ∀ entry ∈ r.definitions, ∀ id ∈ entry.2.body.binders, ¬ isRow id) :
    (kindedTypes isRow).Expands r := by
  intro name args t ht hok
  obtain ⟨d, hd, ht⟩ := Option.bind_eq_some_iff.1 ht
  have hmem := Table.mem_of_get? hd
  exact ⟨(hr _ hmem).kinded_expand? (hB _ hmem) ((kindedTypes isRow).named hok) ht,
    fun id hid => (hr _ hmem).mentions_expand? ht hid⟩

end RowTypes
