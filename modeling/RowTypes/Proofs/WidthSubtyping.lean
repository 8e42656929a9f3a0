import RowTypes.Proofs.BranchResults
import RowTypes.Proofs.RecordFields

/-!
# Width subtyping

A record is a subtype of another one if it has the fields of that, with types that unify.  The
fields that both name are unified first, and then an open record takes in the fields it lacks,
through its row.

What it lacks is decided before anything is unified.  If the row also stands in a field, unifying
the fields may give it the very field that is missing, with a type that has nothing to do with the
one that is wanted, and then taking in the wanted one has no effect: what a row holds already goes
before what is put behind it.  Records that are unified start anew in this case; subtyping does
not.  So a field is there with the right type if the record names it, or if unifying the fields
that both name does not put one of its name into the row.
-/

namespace RowTypes

open Equations

namespace RecordTy

/-- The types that width subtyping unifies: of the fields of a record, and of those listed. -/
def widthPairs (sub : RecordTy) (fs : List (String × Ty)) : Equations :=
  fs.filterMap fun f => (sub.field? f.1).map fun u => (u, f.2)

theorem widthPairs_of_none {sub : RecordTy} {name : String} {t : Ty} {fs : List (String × Ty)}
    (h : sub.field? name = none) : sub.widthPairs ((name, t) :: fs) = sub.widthPairs fs := by
  rw [widthPairs, List.filterMap_cons, h]
  rfl

theorem widthPairs_of_some {sub : RecordTy} {name : String} {t u : Ty} {fs : List (String × Ty)}
    (h : sub.field? name = some u) :
    sub.widthPairs ((name, t) :: fs) = (u, t) :: sub.widthPairs fs := by
  rw [widthPairs, List.filterMap_cons, h]
  rfl

theorem mem_widthPairs {sub super : RecordTy} {e : Ty × Ty} (hasc : Table.Ascending super.fields) :
    e ∈ sub.widthPairs super.fields ↔
      ∃ name, sub.field? name = some e.1 ∧ super.field? name = some e.2 := by
  rw [widthPairs, List.mem_filterMap]
  constructor
  · rintro ⟨f, hf, h⟩
    obtain ⟨u, hu, rfl⟩ := Option.map_eq_some_iff.1 h
    exact ⟨f.1, hu, Table.get?_of_mem hasc hf⟩
  · rintro ⟨name, hu, ht⟩
    exact ⟨(name, e.2), Table.mem_of_get? ht, by rw [hu]; rfl⟩

/-- What is picked from a record are its fields of the names, under the substitution. -/
theorem get?_pick (s : Subst) (r : RecordTy) (names : List String) (name : String) :
    Table.get? name (r.pick s names) =
      if name ∈ names then (r.field? name).map s.apply else none := by
  have hlookup := Table.get?_ofList_filterMap (fun name => (r.field? name).map s.apply) names name
  simp only [Option.map_map, Function.comp_def] at hlookup
  rw [pick, hlookup]

/-- The row of a record under a substitution: its own, or the one behind what it stands for. -/
theorem rowUnder_cases {r : RecordTy} {κ : Sorts} {s : Subst} (hs : s.Core κ)
    (hr : r.toTy.Core κ) {row : TyVar} (h : r.rowUnder s = some row) :
    ∃ v, r.row = some v ∧ ((s.get? v.id = none ∧ row = v) ∨
      ∃ gs, s.get? v.id = some (.record gs (some row))) := by
  cases hrow : r.row with
  | none => simp [rowUnder, hrow] at h
  | some v =>
      have hv : κ.isRow v.id := by
        cases hr with
        | record _ _ hisRow _ => exact hisRow v hrow
      refine ⟨v, rfl, ?_⟩
      rw [rowUnder, hrow] at h
      dsimp only at h
      rcases hs.row_cases hv with hfree | ⟨gs, rest, hbound⟩
      · rw [Subst.apply_var, hfree] at h
        exact .inl ⟨hfree, (Option.some.inj h).symm⟩
      · rw [Subst.apply_var, hbound] at h
        have hrest : rest = some row := h
        exact .inr ⟨gs, hrest ▸ hbound⟩

end RecordTy

namespace Relate

variable {κ : Sorts} {excuse : Diagnostic → Prop} {rel : Relation} {P : Int → Prop} {n : Nat}
  {sub super : RecordTy} {ctx : Context}

/-- Unifying the fields that two records name makes their types equivalent. -/
theorem gained_unifyWidth (hrel : Decides κ excuse rel) (hP : ∀ id, P id → id ≤ n)
    (hκ : ∀ id : Int, n < id → κ.isRow id) : ∀ {fs : List (String × Ty)} {s : Subst} {p : Progress},
    n ≤ p.supply.count → s.Gained κ P n p.supply.count →
    (∀ e ∈ sub.widthPairs fs, e.1.Inside κ P n n ∧ e.2.Inside κ P n n) →
    Ends (unifyWidth ctx rel sub super fs s) p
      (fun s' q => n ≤ q.supply.count ∧ s'.Gained κ P n q.supply.count ∧ s.Refines κ s' ∧
        ∀ e ∈ sub.widthPairs fs, (s'.apply e.1).equiv (s'.apply e.2) = true)
      fun _ _ => True
  | [], s, p, hn, hs, _ => ends_pure ⟨hn, hs, hs.solved.refines_self, nofun⟩
  | (name, t) :: fs, s, p, hn, hs, hpairs => by
      rw [unifyWidth]
      cases hfield : sub.field? name with
      | none =>
          rw [RecordTy.widthPairs_of_none hfield] at hpairs ⊢
          exact gained_unifyWidth hrel hP hκ hn hs hpairs
      | some u =>
          rw [RecordTy.widthPairs_of_some hfield] at hpairs ⊢
          obtain ⟨⟨hu, ht⟩, hrest⟩ := List.forall_mem_cons.1 hpairs
          replace hu := hu.later hn
          replace ht := ht.later hn
          refine Ends.bind (ends_orElseThrow ((hrel p _ _ (hs.posed hP hκ hn hu ht)).imp ?_
            fun _ _ _ => trivial))
          rintro next q ⟨hadv, hnext⟩
          obtain ⟨hgained, hrefines, hequiv⟩ := hs.unified hP hκ hn hadv.count hu ht hnext
          refine (gained_unifyWidth hrel hP hκ (Nat.le_trans hn hadv.count) hgained hrest).imp ?_
            fun _ _ h => h
          rintro s' q' ⟨hn', hs', hrefines', hequivs⟩
          exact ⟨hn', hs', hrefines.trans hs.solved.core hrefines',
            List.forall_mem_cons.2 ⟨hrefines'.equiv hu.core ht.core hequiv, hequivs⟩⟩

/-! ## Taking in what is missing -/

/-- A row that is free is bound to a record of fields over a new row, in which it does not occur. -/
structure TakesMissing (κ : Sorts) (P : Int → Prop) (n m : Nat) (s : Subst) (row : TyVar)
    (fields : List (String × Ty)) (behind : TyVar) : Prop where
  gained : s.Gained κ P n m
  isRow : κ.isRow row.id
  free : s.get? row.id = none
  rowInside : P row.id ∨ ((n : Int) < row.id ∧ row.id ≤ m)
  core : (Ty.record fields (some behind)).Core κ
  inside : ∀ f ∈ fields, ∀ id, f.2.Mentions id → P id ∨ ((n : Int) < id ∧ id ≤ m)
  unbound : ∀ f ∈ fields, ∀ id, f.2.Mentions id → s.get? id = none
  new : behind.id = m + 1
  off : ¬ (Ty.record fields (some behind)).Mentions row.id

namespace TakesMissing

variable {m : Nat} {s : Subst} {row behind : TyVar} {fields : List (String × Ty)} {t u : Ty}
  {name : String}

theorem solved (h : TakesMissing κ P n m s row fields behind) :
    (Subst.single row (.record fields (some behind))).Solved κ :=
  solved_single h.core (fun _ => ⟨_, _, rfl⟩) h.off

theorem follows (h : TakesMissing κ P n m s row fields behind) (hP : ∀ id, P id → id ≤ n)
    (hnm : n ≤ m) :
    Subst.Follows P n m (m + 1) s (.single row (.record fields (some behind))) := by
  have hcases : ∀ id, (Subst.single row (.record fields (some behind))).Mentions id →
      id = row.id ∨ (∃ f ∈ fields, f.2.Mentions id) ∨ id = m + 1 := by
    intro id hid
    refine (mentions_single h.off hid).imp_right fun hid => ?_
    refine (Ty.mentions_record.1 hid).imp_right ?_
    rintro ⟨v, hv, rfl⟩
    cases hv
    exact h.new
  constructor
  · intro id hid
    rcases hcases id hid with rfl | ⟨f, hf, hid⟩ | rfl
    · exact h.free
    · exact h.unbound f hf id hid
    · exact h.gained.free hP hnm (by omega)
  · intro id hid
    rcases hcases id hid with rfl | ⟨f, hf, hid⟩ | rfl
    · exact h.rowInside.imp_right fun hid => ⟨hid.1, by omega⟩
    · exact (h.inside f hf id hid).imp_right fun hid => ⟨hid.1, by omega⟩
    · exact .inr ⟨by omega, by omega⟩

theorem get?_bound (h : TakesMissing κ P n m s row fields behind) {id : Int} (hid : id ≠ row.id) :
    (Subst.single row (.record fields (some behind))).get? id = none := by
  rw [get?_single_of_free h.off, if_neg hid]

/-- The fields that are taken in stay as they are. -/
theorem apply_field (h : TakesMissing κ P n m s row fields behind)
    (hu : Table.get? name fields = some u) :
    (Subst.single row (.record fields (some behind))).apply u = u := by
  have hmem := Table.mem_of_get? hu
  have hcore : u.Core κ := by
    cases h.core with
    | record _ _ _ hfs => exact hfs _ hmem
  refine hcore.stable.apply_eq_self fun id hid => h.get?_bound ?_
  rintro rfl
  exact h.off (Ty.mentions_record.2 (.inl ⟨_, hmem, hid⟩))

/-- A record has the fields that its row has taken in, unless it had one of the name. -/
theorem hasField (h : TakesMissing κ P n m s row fields behind) (hP : ∀ id, P id → id ≤ n)
    (hnm : n ≤ m) {r : RecordTy} (hr : r.toTy.Core κ) (hunder : r.rowUnder s = some row)
    (hnone : ∀ u, ¬ (s.apply r.toTy).HasField name u) (hu : Table.get? name fields = some u) :
    (((Subst.single row (.record fields (some behind))).after s).apply r.toTy).HasField name u := by
  have hs := h.gained.solved
  have hapart := (h.follows hP hnm).free
  have hsingle : (Subst.single row (.record fields (some behind))).get? row.id =
      some (.record fields (some behind)) := by rw [get?_single_of_free h.off, if_pos rfl]
  have hget := Subst.get?_after_apart hs h.solved hapart
  have hname : r.field? name = none := by
    cases hfield : r.field? name with
    | none => rfl
    | some t => exact absurd (Ty.HasField.apply hs.core hr ⟨r, rfl, hfield⟩) (hnone _)
  obtain ⟨v, hrow, ⟨hfree, rfl⟩ | ⟨gs, hbound⟩⟩ := RecordTy.rowUnder_cases hs.core hr hunder
  · exact hasField_of_row hrow ((hget _).trans (by rw [hfree]; exact hsingle)) hname hu
  · -- The row that is bound stands behind fields that the row of the record was given before.
    have hgs : Table.get? name gs = none := by
      cases hx : Table.get? name gs with
      | none => rfl
      | some x => exact absurd (hasField_of_row hrow hbound hname hx) (hnone x)
    refine hasField_of_row hrow
      ((hget v.id).trans (by rw [hbound]; exact congrArg some (Subst.apply_open_bound hsingle)))
      hname ?_
    rw [Table.get?_underlay, Table.get?_map, hgs]
    exact hu

/-- A missing field is taken in with the type that it has in the wider record by then, in which the
row does not occur. -/
theorem gives {missing : List String}
    (h : TakesMissing κ P n m s row (super.pick s missing) behind) (hP : ∀ id, P id → id ≤ n)
    (hnm : n ≤ m) (hsub : sub.toTy.Core κ) (hsuper : super.toTy.Core κ)
    (hunder : sub.rowUnder s = some row) (hnone : ∀ u, ¬ (s.apply sub.toTy).HasField name u)
    (ht : super.field? name = some t) (hmem : name ∈ missing) :
    ((Subst.single row (.record (super.pick s missing) (some behind))).after s).Gives sub.toTy name
      t := by
  have hpick : Table.get? name (super.pick s missing) = some (s.apply t) := by
    rw [RecordTy.get?_pick, ht, if_pos hmem]
    rfl
  refine ⟨s.apply t, h.hasField hP hnm hsub hunder hnone hpick, ?_⟩
  have htcore := RecordTy.core_field hsuper ht
  have hs := h.gained.solved
  rw [Subst.apply_after hs h.solved (h.follows hP hnm).free htcore, h.apply_field hpick]
  exact Ty.equiv_refl (hs.core.apply htcore).tame

end TakesMissing

/-- What the records have in common is of their unknowns. -/
theorem inside_widthPairs {m : Nat} (hsub : sub.toTy.Inside κ P n m)
    (hsuper : super.toTy.Inside κ P n m) : ∀ e ∈ sub.widthPairs super.fields,
      e.1.Inside κ P n m ∧ e.2.Inside κ P n m := by
  intro e he
  obtain ⟨name, hu, ht⟩ := (RecordTy.mem_widthPairs (RecordTy.ascending_fields hsuper.core)).1 he
  exact ⟨⟨RecordTy.core_field hsub.core hu,
      fun id hid => hsub.inside id (RecordTy.mentions_field hu hid)⟩,
    ⟨RecordTy.core_field hsuper.core ht,
      fun id hid => hsuper.inside id (RecordTy.mentions_field ht hid)⟩⟩

theorem gives_of_shared {s : Subst} (hs : s.Core κ) (hsub : sub.toTy.Core κ)
    (hasc : Table.Ascending super.fields)
    (hequivs : ∀ e ∈ sub.widthPairs super.fields, (s.apply e.1).equiv (s.apply e.2) = true)
    {name : String} {t : Ty} (ht : super.field? name = some t) (hname : (sub.field? name).isSome) :
    s.Gives sub.toTy name t := by
  obtain ⟨u, hu⟩ := Option.isSome_iff_exists.1 hname
  exact ⟨s.apply u, Ty.HasField.apply hs hsub ⟨sub, rfl, hu⟩,
    hequivs (u, t) ((RecordTy.mem_widthPairs hasc).2 ⟨name, hu, ht⟩)⟩

section Subtyping

variable {p : Progress}

/-- The fields that are missing, picked from the wider record, can be taken in by the row. -/
theorem takesMissing_pick {m : Nat} {s : Subst} {row behind : TyVar} (hs : s.Gained κ P n m)
    (hκ : ∀ id : Int, n < id → κ.isRow id) (hnm : n ≤ m)
    (hsub : sub.toTy.Inside κ P n m) (hsuper : super.toTy.Inside κ P n m)
    (hunder : sub.rowUnder s = some row) (hnew : behind.id = m + 1) (missing : List String)
    (hoff : ¬ (Ty.record (super.pick s missing) (some behind)).Mentions row.id) :
    TakesMissing κ P n m s row (super.pick s missing) behind := by
  have hpicked : ∀ f ∈ super.pick s missing, ∃ t, super.field? f.1 = some t ∧ f.2 = s.apply t := by
    intro f hf
    have hget : Table.get? f.1 (super.pick s missing) = some f.2 :=
      Table.get?_of_mem (Table.ascending_ofList _) hf
    rw [RecordTy.get?_pick] at hget
    split at hget
    · obtain ⟨t, ht, hf⟩ := Option.map_eq_some_iff.1 hget
      exact ⟨t, ht, hf.symm⟩
    · cases hget
  have hfield : ∀ {name : String} {t : Ty}, super.field? name = some t → t.Inside κ P n m :=
    fun ht => ⟨RecordTy.core_field hsuper.core ht,
      fun id hid => hsuper.inside id (RecordTy.mentions_field ht hid)⟩
  have hrow : s.get? row.id = none ∧ κ.isRow row.id ∧
      (P row.id ∨ ((n : Int) < row.id ∧ row.id ≤ m)) := by
    obtain ⟨v, hv, ⟨hfree, rfl⟩ | ⟨gs, hbound⟩⟩ :=
      RecordTy.rowUnder_cases hs.solved.core hsub.core hunder
    · refine ⟨hfree, ?_, hsub.inside _ (Ty.mentions_record.2 (.inr ⟨_, hv, rfl⟩))⟩
      cases hsub.core with
      | record _ _ hisRow _ => exact hisRow _ hv
    · have hmention : (Ty.record gs (some row)).Mentions row.id :=
        Ty.mentions_record.2 (.inr ⟨row, rfl, rfl⟩)
      refine ⟨hs.solved.fixed hbound _ hmention, ?_, hs.inside _ (.inr ⟨_, _, hbound, hmention⟩)⟩
      cases (hs.solved.core _ _ hbound).1 with
      | record _ _ hisRow _ => exact hisRow _ rfl
  refine ⟨hs, hrow.2.1, hrow.1, hrow.2.2, ?_, ?_, ?_, hnew, hoff⟩
  · refine .record (RecordTy.records_of_core hsub.core) (Table.ascending_ofList _) ?_ ?_
    · rintro v ⟨⟩
      exact hκ _ (by omega)
    · intro f hf
      obtain ⟨t, ht, hft⟩ := hpicked f hf
      rw [hft]
      exact hs.solved.core.apply (hfield ht).core
  · intro f hf id hid
    obtain ⟨t, ht, hft⟩ := hpicked f hf
    rw [hft] at hid
    exact (hs.apply (hfield ht)).inside id hid
  · intro f hf id hid
    obtain ⟨t, ht, hft⟩ := hpicked f hf
    rw [hft] at hid
    exact hs.solved.free_of_mentions (hfield ht).core hid

theorem gives_subtypeRecords (hrel : Decides κ excuse rel) (hP : ∀ id, P id → id ≤ p.supply.count)
    (hκ : ∀ id : Int, p.supply.count < id → κ.isRow id)
    (hsub : sub.toTy.Inside κ P p.supply.count p.supply.count)
    (hsuper : super.toTy.Inside κ P p.supply.count p.supply.count) :
    Ends (subtypeRecords ctx rel sub super) p
      (fun s _ => s.Core κ ∧ ∀ name t, super.field? name = some t →
        ((sub.field? name).isSome ∨ ∀ s₀ q₀,
          (unifyWidth ctx rel sub super super.fields .empty).run p = (.ok s₀, q₀) →
          ∀ u, ¬ (s₀.apply sub.toTy).HasField name u) →
        s.Gives sub.toTy name t)
      fun _ _ => True := by
  have hasc := RecordTy.ascending_fields hsuper.core
  have hpairs := inside_widthPairs hsub hsuper
  unfold subtypeRecords
  refine Ends.bind ((gained_unifyWidth hrel hP hκ (Nat.le_refl _)
    (Subst.gained_empty κ P _ _) hpairs).with_run.imp ?_ fun _ _ h => h)
  rintro s₀ q ⟨⟨hn, hs, -, hequivs⟩, hrun⟩
  have hshared : ∀ {s : Subst}, s₀.Refines κ s → s.Core κ → ∀ {name : String} {t : Ty},
      super.field? name = some t → (sub.field? name).isSome → s.Gives sub.toTy name t := by
    intro s hrefines hcore name t ht hname
    refine gives_of_shared hcore hsub.core hasc (fun e he => ?_) ht hname
    exact hrefines.equiv (hpairs e he).1.core (hpairs e he).2.core (hequivs e he)
  dsimp only
  split
  · next hmissing =>
      -- Nothing is missing, so every field is shared.
      refine ends_pure ⟨hs.solved.core, fun name t ht _ => ?_⟩
      refine hshared hs.solved.refines_self hs.solved.core ht ?_
      have hmem : name ∈ super.names := RecordTy.mem_names.2 (by rw [ht]; rfl)
      rw [List.isEmpty_iff, List.filter_eq_nil_iff] at hmissing
      simpa [Option.isSome_iff_ne_none] using hmissing name hmem
  · split
    · exact ends_throw trivial
    · next row hunder =>
        refine Ends.bind (ends_fresh ?_)
        unfold extendRow
        rw [bindVar]
        · split
          · exact Ends.bind (ends_throw trivial)
          · next hocc =>
              have htakes := takesMissing_pick hs hκ hn (hsub.later hn) (hsuper.later hn) hunder
                rfl _ fun hid => hocc (Ty.occurs_iff_mentions.2 hid)
              have hfollows := htakes.follows hP hn
              have hrefines := hs.solved.refines_after htakes.solved hfollows.free
              have hgained := hs.after (Nat.le_succ _) htakes.solved hfollows
              refine Ends.bind (ends_pure (ends_pure ⟨hgained.solved.core, fun name t ht h => ?_⟩))
              cases hname : sub.field? name with
              | some u =>
                  exact hshared hrefines hgained.solved.core ht (by rw [hname]; rfl)
              | none =>
                  have hnone := (h.resolve_left (by rw [hname]; simp)) s₀ q hrun
                  exact htakes.gives hP hn hsub.core hsuper.core hunder hnone ht (List.mem_filter.2
                    ⟨RecordTy.mem_names.2 (by rw [ht]; rfl), by simp [hname]⟩)
        · intro w hw
          cases hw

end Subtyping

theorem ends_subtype_records {limit : Nat} {κ : Sorts}
    (hP : ∀ id, P id → id ≤ p.supply.count)
    (hκ : ∀ id : Int, p.supply.count < id → κ.isRow id)
    (hsub : sub.toTy.Inside κ P p.supply.count p.supply.count)
    (hsuper : super.toTy.Inside κ P p.supply.count p.supply.count) :
    Ends (subtype ctx limit sub.toTy super.toTy) p
      (fun s _ => s.Core κ ∧ ∀ name t, super.field? name = some t →
        ((sub.field? name).isSome ∨ ∀ s₀ q₀,
          (unifyWidth ctx (unify ctx (limit - 1)) sub super super.fields .empty).run p =
            (.ok s₀, q₀) → ∀ u, ¬ (s₀.apply sub.toTy).HasField name u) →
        s.Gives sub.toTy name t)
      fun _ _ => True := by
  cases limit with
  | zero => exact ends_exceed trivial
  | succ limit =>
      rw [subtype]
      unfold subtypeStep
      split
      · next heq =>
          -- Equivalent records have the same fields to begin with.
          refine ends_pure ⟨(Subst.solved_empty κ).core, fun name t ht _ => ?_⟩
          unfold Subst.Gives
          rw [Subst.apply_empty, Subst.apply_empty]
          exact Ty.HasField.of_equiv hsub.core.tame hsuper.core.tame heq ⟨super, rfl, ht⟩
      · exact gives_subtypeRecords (decides_unify ctx κ limit) hP hκ hsub hsuper

end Relate

namespace Session

variable {isRow : Int → Prop} {limit : Nat} {span : Span} {σ τ : Session} {sub super : RecordTy}
  {s : Subst}

/-- Unifies the fields that two records name. -/
def width (limit : Nat) (span : Span) (sub super : RecordTy) : SessionM Subst :=
  relating span fun ctx =>
    Relate.unifyWidth ctx (Relate.unify ctx limit) sub super super.fields .empty

/-- Two records that can be related: core types, with rows and other unknowns told apart by their
numbers, and of unknowns that have been given out. -/
structure Records (isRow : Int → Prop) (n : Nat) (sub super : RecordTy) : Prop where
  coreSub : sub.toTy.Core ⟨isRow, True⟩
  coreSuper : super.toTy.Core ⟨isRow, True⟩
  olderSub : ∀ id, sub.toTy.Mentions id → id ≤ n
  olderSuper : ∀ id, super.toTy.Mentions id → id ≤ n

/-- A record that is found to be a subtype of another one has every field that the other one
names, with an equivalent type, if it names the field itself, or if unifying the fields that both
name gives its row no field of that name. -/
theorem field_of_subtype (h : Records isRow σ.supply.count sub super)
    (hrun : (subtype limit span sub.toTy super.toTy).run σ = (.ok s, τ)) :
    (∃ r : RecordTy, s.apply sub.toTy = r.toTy) ∧
      ∀ name t, super.field? name = some t →
        ((sub.field? name).isSome ∨ ∀ s₀ υ, (width (limit - 1) span sub super).run σ = (.ok s₀, υ) →
          ∀ u, ¬ (s₀.apply sub.toTy).HasField name u) →
        (s.apply super.toTy).HasField name (s.apply t) ∧
          ∃ u, (s.apply sub.toTy).HasField name u ∧ u.equiv (s.apply t) = true := by
  let P : Int → Prop := fun id => sub.toTy.Mentions id ∨ super.toTy.Mentions id
  have hP : ∀ id, P id → id ≤ σ.supply.count := fun id hid =>
    hid.elim (h.olderSub id) (h.olderSuper id)
  have hsub : sub.toTy.Inside (ConstraintSet.sortsFrom isRow σ.supply.count) P σ.supply.count
      σ.supply.count := ⟨h.coreSub.sortsFrom h.olderSub, fun id hid => .inl (.inl hid)⟩
  have hsuper : super.toTy.Inside (ConstraintSet.sortsFrom isRow σ.supply.count) P σ.supply.count
      σ.supply.count := ⟨h.coreSuper.sortsFrom h.olderSuper, fun id hid => .inl (.inr hid)⟩
  have hends : Ends (Relate.subtype { registry := σ.registry, span } limit sub.toTy super.toTy)
      { supply := σ.supply } _ _ :=
    Relate.ends_subtype_records hP (ConstraintSet.isRow_sortsFrom isRow _) hsub hsuper
  obtain ⟨q, hq, -⟩ := exists_of_relating hrun
  obtain ⟨hs, hfields⟩ := hends.of_run hq
  refine ⟨hs.exists_record hsub.core, fun name t ht hname => ⟨?_, ?_⟩⟩
  · exact Ty.HasField.apply hs hsuper.core ⟨super, rfl, ht⟩
  · refine hfields name t ht (hname.imp_right fun hname s₀ q₀ hwidth => ?_)
    exact hname s₀ _ (run_relating (fun ctx => Relate.unifyWidth ctx
      (Relate.unify ctx (limit - 1)) sub super super.fields .empty) _ hwidth)

/-- Unifying the fields that both records name gives the row of a record no field if it does not
occur in them. -/
theorem width_adds_nothing {s₀ : Subst} {name : String} {u : Ty}
    (h : Records isRow σ.supply.count sub super)
    (hrow : ∀ v, sub.row = some v → ∀ e ∈ sub.widthPairs super.fields,
      ¬ e.1.Mentions v.id ∧ ¬ e.2.Mentions v.id)
    (hrun : (width limit span sub super).run σ = (.ok s₀, τ))
    (hu : (s₀.apply sub.toTy).HasField name u) : (sub.field? name).isSome := by
  let P : Int → Prop := fun id =>
    ∃ e ∈ sub.widthPairs super.fields, e.1.Mentions id ∨ e.2.Mentions id
  have hasc := RecordTy.ascending_fields h.coreSuper
  have hP : ∀ id, P id → id ≤ σ.supply.count := by
    rintro id ⟨e, he, hid⟩
    obtain ⟨name, hu, ht⟩ := (RecordTy.mem_widthPairs hasc).1 he
    exact hid.elim (fun hid => h.olderSub id (RecordTy.mentions_field hu hid))
      fun hid => h.olderSuper id (RecordTy.mentions_field ht hid)
  have hsub := h.coreSub.sortsFrom h.olderSub
  have hsuper := h.coreSuper.sortsFrom h.olderSuper
  have hpairs : ∀ e ∈ sub.widthPairs super.fields,
      e.1.Inside (ConstraintSet.sortsFrom isRow σ.supply.count) P σ.supply.count σ.supply.count ∧
        e.2.Inside (ConstraintSet.sortsFrom isRow σ.supply.count) P σ.supply.count
          σ.supply.count := by
    intro e he
    obtain ⟨name, hu, ht⟩ := (RecordTy.mem_widthPairs hasc).1 he
    exact ⟨⟨RecordTy.core_field hsub hu, fun id hid => .inl ⟨e, he, .inl hid⟩⟩,
      ⟨RecordTy.core_field hsuper ht, fun id hid => .inl ⟨e, he, .inr hid⟩⟩⟩
  have hends : Ends (Relate.unifyWidth { registry := σ.registry, span }
      (Relate.unify { registry := σ.registry, span } limit) sub super super.fields .empty)
      { supply := σ.supply } _ _ :=
    Relate.gained_unifyWidth (Relate.decides_unify _ _ limit) hP
      (ConstraintSet.isRow_sortsFrom isRow _) (Nat.le_refl _) (Subst.gained_empty _ _ _ _) hpairs
  obtain ⟨q, hq, -⟩ := exists_of_relating hrun
  obtain ⟨-, hs, -⟩ := hends.of_run hq
  have hfree : ∀ v, sub.row = some v → s₀.get? v.id = none := fun v hv =>
    hs.get?_eq_none (fun ⟨e, he, hid⟩ => not_or.2 (hrow v hv e he) hid)
      (h.olderSub v.id (Ty.mentions_record.2 (.inr ⟨v, hv, rfl⟩)))
  obtain ⟨t, ht, -⟩ := hasField_of_free hs.solved.core hsub hfree hu
  exact Option.isSome_iff_exists.2 ⟨t, ht⟩

/-- A point whose first coordinate is not known yet, and that may have more fields. -/
def unnamedPoint : RecordTy := ⟨[("x", .var ⟨1, 0⟩)], some ⟨2, 0⟩⟩

/-- A point with a name. -/
def namedPoint : RecordTy := ⟨[("name", .string), ("x", .int)], none⟩

/-- What makes the open point one with a name. -/
def naming : Subst :=
  (Subst.single ⟨2, 0⟩ (.record [("name", .string)] (some ⟨3, 0⟩))).after (.single ⟨1, 0⟩ .int)

theorem records_unnamedPoint :
    Records (· = 2) (sessionOf 2).supply.count unnamedPoint namedPoint where
  coreSub := by
    refine .record trivial (List.pairwise_singleton _ _) (by rintro v ⟨⟩; rfl) fun f hf => ?_
    rw [List.mem_singleton.1 hf]
    exact .var (by simp)
  coreSuper := by
    refine .record trivial (by unfold Table.Ascending; decide +kernel) nofun fun f hf => ?_
    rcases (by simpa [namedPoint] using hf : f = _ ∨ f = _) with rfl | rfl <;> exact .prim _
  olderSub := by
    intro id hid
    rcases Ty.mentions_record.1 hid with ⟨f, hf, hid⟩ | ⟨v, hv, rfl⟩
    · rw [List.mem_singleton.1 hf] at hid
      exact (Ty.mentions_var.1 hid).symm ▸ (by decide)
    · cases hv
      decide
  olderSuper := by
    intro id hid
    rcases Ty.mentions_record.1 hid with ⟨f, hf, hid⟩ | ⟨v, hv, rfl⟩
    · rcases (by simpa [namedPoint] using hf : f = _ ∨ f = _) with rfl | rfl <;> cases hid
    · cases hv

/-- The row of the open point takes in the name that it lacks. -/
theorem field_of_subtype_unnamedPoint :
    (subtype 250 {} unnamedPoint.toTy namedPoint.toTy).run (sessionOf 2) =
        (.ok naming, sessionOf 3) ∧
      ∃ u, (naming.apply unnamedPoint.toTy).HasField "name" u ∧
        u.equiv (naming.apply .string) = true := by
  have hrun : (subtype 250 {} unnamedPoint.toTy namedPoint.toTy).run (sessionOf 2) =
      (.ok naming, sessionOf 3) := by
    have hrun : (subtype 250 {} unnamedPoint.toTy namedPoint.toTy).run (sessionOf 2) =
        (.ok naming, { sessionOf 3 with ends := True ∧ True }) := by with_unfolding_all rfl
    rw [hrun, with_ends trivial ⟨trivial, trivial⟩]
  have hfields := (field_of_subtype records_unnamedPoint hrun).2 "name" .string rfl
  refine ⟨hrun, (hfields (.inr fun s₀ υ hwidth u hu => ?_)).2⟩
  have hname := width_adds_nothing records_unnamedPoint (fun v hv e he => ?_) hwidth hu
  · exact absurd hname (by decide)
  · cases hv
    have hpairs : unnamedPoint.widthPairs namedPoint.fields = [(.var ⟨1, 0⟩, .int)] := by rfl
    rw [hpairs] at he
    rw [List.mem_singleton.1 he]
    exact ⟨fun hid => absurd (Ty.mentions_var.1 hid) (by decide), nofun⟩

end Session

end RowTypes
