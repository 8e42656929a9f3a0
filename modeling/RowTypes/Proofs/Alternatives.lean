import RowTypes.Proofs.Occurrences

/-!
# Unions and intersections as they are built

Building a union takes nested unions apart and then drops every alternative that is equivalent to
one kept before it; building an intersection does the same with members.  Nothing is dropped
without a substitute: whatever went in is kept, or an equivalent type is kept that stood to its
left.  What the substitute is good for depends on what `equiv` is used for, so it stays an
equivalence here.

A substitution builds unions and intersections anew, unless it is empty.  So the types whose
unions are as they are built, the normal forms, are closed under it, and under the unfolding of
recursive types.
-/

namespace RowTypes

namespace Ty

/-- One type stands for another in a list without repetitions: it is the same, or is equivalent to
it and came first. -/
def StandsFor (a b : Ty) : Prop := a = b ∨ equiv a b = true

theorem exists_mem_distinct {t : Ty} {ts : List Ty} (h : t ∈ ts) :
    ∃ a ∈ distinct ts, StandsFor a t := by
  -- What is found among the types seen so far is still there at the end.
  have kept : ∀ (ts seen : List Ty) {a : Ty}, a ∈ seen → a ∈ ts.foldl addDistinct seen := by
    intro ts
    induction ts with
    | nil => exact fun seen a ha => ha
    | cons u ts ih =>
        intro seen a ha
        refine ih _ ?_
        unfold addDistinct
        split
        · exact ha
        · exact List.mem_append_left _ ha
  have general : ∀ (ts seen : List Ty), t ∈ ts → ∃ a ∈ ts.foldl addDistinct seen, StandsFor a t := by
    intro ts
    induction ts with
    | nil => intro seen h; cases h
    | cons u ts ih =>
        intro seen h
        rcases List.mem_cons.1 h with rfl | h
        · by_cases hseen : seen.any (fun s => equiv s t) = true
          · obtain ⟨a, ha, hat⟩ := List.any_eq_true.1 hseen
            refine ⟨a, kept ts _ ?_, .inr hat⟩
            rw [addDistinct, if_pos hseen]
            exact ha
          · refine ⟨t, kept ts _ ?_, .inl rfl⟩
            rw [addDistinct, if_neg hseen]
            exact List.mem_append_right _ (List.mem_singleton.2 rfl)
        · exact ih _ h
  exact general ts [] h

theorem mem_alternativesAll {a : Ty} {ts : List Ty} :
    a ∈ alternativesAll ts ↔ ∃ t ∈ ts, a ∈ t.alternatives := by
  induction ts with
  | nil => simp [alternativesAll]
  | cons t ts ih => rw [alternativesAll, List.mem_append, ih, List.exists_mem_cons_iff]

theorem mem_membersOfAll {a : Ty} {ts : List Ty} :
    a ∈ membersOfAll ts ↔ ∃ t ∈ ts, a ∈ t.membersOf := by
  induction ts with
  | nil => simp [membersOfAll]
  | cons t ts ih => rw [membersOfAll, List.mem_append, ih, List.exists_mem_cons_iff]

/-! ## Normal forms -/

theorem pairwise_distinct (ts : List Ty) :
    (distinct ts).Pairwise fun a b => equiv a b = false := by
  have general : ∀ (ts seen : List Ty), seen.Pairwise (fun a b => equiv a b = false) →
      (ts.foldl addDistinct seen).Pairwise fun a b => equiv a b = false := by
    intro ts
    induction ts with
    | nil => exact fun seen h => h
    | cons t ts ih =>
        intro seen h
        refine ih _ ?_
        unfold addDistinct
        split
        · exact h
        · next hnone =>
            refine List.pairwise_append.2 ⟨h, List.pairwise_singleton _ t, fun s hs u hu => ?_⟩
            rw [List.mem_singleton.1 hu, Bool.eq_false_iff]
            exact fun hst => hnone (List.any_eq_true.2 ⟨s, hs, hst⟩)
  exact general ts [] .nil

/-- Types that are not equivalent to earlier ones are all kept. -/
theorem distinct_eq_self {ts : List Ty} (h : ts.Pairwise fun a b => equiv a b = false) :
    distinct ts = ts := by
  have general : ∀ (ts seen : List Ty), (seen ++ ts).Pairwise (fun a b => equiv a b = false) →
      ts.foldl addDistinct seen = seen ++ ts := by
    intro ts
    induction ts with
    | nil => intro seen _; simp
    | cons t ts ih =>
        intro seen h
        have hadd : addDistinct seen t = seen ++ [t] := by
          rw [addDistinct, if_neg]
          intro hany
          obtain ⟨s, hs, hst⟩ := List.any_eq_true.1 hany
          rw [(List.pairwise_append.1 h).2.2 s hs t List.mem_cons_self] at hst
          cases hst
        rw [List.foldl_cons, hadd, ih _ (by simpa using h), List.append_assoc, List.singleton_append]
  exact general ts [] h

mutual

theorem ne_union_of_mem_alternatives {a : Ty} (us : List Ty) : ∀ {t : Ty}, a ∈ t.alternatives →
    a ≠ .union us
  | .union _, h => ne_union_of_mem_alternativesAll us h
  | .var _, h | .prim _, h | .lit _, h | .fn _ _, h | .record _ _, h | .tuple _, h | .inter _, h
  | .named _ _, h | .mu _ _, h => by
      rw [List.mem_singleton.1 h]
      exact nofun

theorem ne_union_of_mem_alternativesAll {a : Ty} (us : List Ty) : ∀ {ts : List Ty},
    a ∈ alternativesAll ts → a ≠ .union us
  | t :: ts, h => by
      rw [alternativesAll] at h
      rcases List.mem_append.1 h with h | h
      · exact ne_union_of_mem_alternatives us h
      · exact ne_union_of_mem_alternativesAll us h

end

theorem alternatives_eq_self {t : Ty} (h : ∀ us, t ≠ .union us) : t.alternatives = [t] := by
  cases t with
  | union us => exact absurd rfl (h us)
  | _ => rfl

theorem alternativesAll_eq_self {ts : List Ty} (h : ∀ t ∈ ts, ∀ us, t ≠ .union us) :
    alternativesAll ts = ts := by
  induction ts with
  | nil => rfl
  | cons t ts ih =>
      obtain ⟨ht, hts⟩ := List.forall_mem_cons.1 h
      rw [alternativesAll, alternatives_eq_self ht, ih hts, List.singleton_append]

/-- Types whose unions are as they are built: of some alternatives, none a union and none
equivalent to a later one. -/
inductive Normal : Ty → Prop where
  | var (v : TyVar) : Normal (.var v)
  | prim (name : String) : Normal (.prim name)
  | lit (value : String) : Normal (.lit value)
  | fn {p r : Ty} : Normal p → Normal r → Normal (.fn p r)
  | record {fs : List (String × Ty)} (row : Option TyVar) : (∀ f ∈ fs, Normal f.2) →
      Normal (.record fs row)
  | tuple {ts : List Ty} : (∀ t ∈ ts, Normal t) → Normal (.tuple ts)
  | union {ts : List Ty} : (∀ t ∈ ts, Normal t) → (∀ t ∈ ts, ∀ us, t ≠ .union us) →
      ts.Pairwise (fun a b => equiv a b = false) → ts ≠ [] → Normal (.union ts)
  | inter {ts : List Ty} : (∀ t ∈ ts, Normal t) → Normal (.inter ts)
  | named (name : String) {ts : List Ty} : (∀ t ∈ ts, Normal t) → Normal (.named name ts)
  | mu (v : TyVar) {t : Ty} : Normal t → Normal (.mu v t)

theorem Normal.alternatives_ne_nil {t : Ty} (h : t.Normal) : t.alternatives ≠ [] := by
  cases h with
  | union _ hflat _ hne =>
      show alternativesAll _ ≠ []
      rw [alternativesAll_eq_self hflat]
      exact hne
  | _ => exact List.cons_ne_nil _ _

theorem normal_unionOf? {ts : List Ty} {u : Ty} (h : ∀ t ∈ ts, t.Normal)
    (hu : unionOf? ts = some u) : u.Normal := by
  have hall : ∀ a ∈ distinct (alternativesAll ts), a.Normal := fun a ha =>
    of_mem_alternativesAll (fun _ h => by cases h with | union h => exact h) h (mem_distinct ha)
  unfold unionOf? at hu
  split at hu
  · cases hu
  · next a ha =>
      cases hu
      exact hall u (by rw [ha]; exact List.mem_singleton.2 rfl)
  · next hne _ =>
      cases hu
      refine .union hall (fun t ht us => ?_) (pairwise_distinct _) hne
      exact ne_union_of_mem_alternativesAll us (mem_distinct ht)

theorem normal_unionOf {ts : List Ty} (h : ∀ t ∈ ts, t.Normal) (hne : ts ≠ []) :
    (unionOf ts).Normal := by
  unfold unionOf
  cases hu : unionOf? ts with
  | some u => exact normal_unionOf? h hu
  | none =>
      exfalso
      obtain ⟨t, ht⟩ := List.exists_mem_of_ne_nil ts hne
      obtain ⟨a, ha⟩ := List.exists_mem_of_ne_nil _ (h t ht).alternatives_ne_nil
      obtain ⟨b, hb, -⟩ := exists_mem_distinct (mem_alternativesAll.2 ⟨t, ht, ha⟩)
      unfold unionOf? at hu
      split at hu
      · next hnil => rw [hnil] at hb; cases hb
      · cases hu
      · cases hu

theorem normal_splice {fs : List (String × Ty)} {row : TyVar} {bound : Option Ty}
    (hfs : ∀ f ∈ fs, f.2.Normal) (hbound : ∀ u, bound = some u → u.Normal) :
    (RecordTy.splice fs row bound).toTy.Normal := by
  refine .record _ fun f hf => ?_
  obtain hf | ⟨more, rest, hb, hf⟩ := RecordTy.mem_fields_splice hf
  · exact hfs f hf
  · cases hbound _ hb with
    | record _ hmore => exact hmore f hf

/-- A substitution builds unions anew, so it keeps normal forms. -/
theorem Normal.apply {t : Ty} (h : t.Normal) : ∀ {s : Subst},
    (∀ id u, s.get? id = some u → u.Normal) → (s.apply t).Normal := by
  induction h with
  | var v =>
      intro s hs
      rw [Subst.apply_var]
      cases hv : s.get? v.id with
      | none => exact .var v
      | some u => exact hs v.id u hv
  | prim name => intro s _; rw [Subst.apply_prim]; exact .prim name
  | lit value => intro s _; rw [Subst.apply_lit]; exact .lit value
  | fn _ _ ihp ihr => intro s hs; rw [Subst.apply_fn]; exact .fn (ihp hs) (ihr hs)
  | @record fs row _ ih =>
      intro s hs
      have hfs : ∀ f ∈ fs.map fun f => (f.1, s.apply f.2), f.2.Normal := by
        intro f hf
        obtain ⟨g, hg, rfl⟩ := List.mem_map.1 hf
        exact ih g hg hs
      cases row with
      | none => rw [Subst.apply_closed]; exact .record none hfs
      | some row => rw [Subst.apply_open]; exact normal_splice hfs fun u hu => hs row.id u hu
  | tuple _ ih =>
      intro s hs
      rw [Subst.apply_tuple]
      exact .tuple (List.forall_mem_map.2 fun t ht => ih t ht hs)
  | union hall hflat hdistinct hne ih =>
      intro s hs
      by_cases hempty : s.isEmpty = true
      · rw [Subst.apply_of_isEmpty hempty]
        exact .union hall hflat hdistinct hne
      · rw [Subst.apply_union (by simpa using hempty)]
        exact normal_unionOf (List.forall_mem_map.2 fun t ht => ih t ht hs) (by simpa using hne)
  | inter hall ih =>
      intro s hs
      by_cases hempty : s.isEmpty = true
      · rw [Subst.apply_of_isEmpty hempty]
        exact .inter hall
      · rw [Subst.apply_inter (by simpa using hempty)]
        refine of_interOf (fun ts => ⟨fun h => ?_, .inter⟩)
          (List.forall_mem_map.2 fun t ht => ih t ht hs)
        cases h with
        | inter h => exact h
  | named name _ ih =>
      intro s hs
      rw [Subst.apply_named]
      exact .named name (List.forall_mem_map.2 fun t ht => ih t ht hs)
  | mu v _ ih =>
      intro s hs
      rw [Subst.apply_mu]
      refine .mu v (ih fun id u hu => ?_)
      rw [Subst.get?_erase] at hu
      split at hu
      · cases hu
      · exact hs id u hu

theorem Normal.unfold {v : TyVar} {t : Ty} (h : (Ty.mu v t).Normal) : (Ty.unfold v t).Normal := by
  have hbody : t.Normal := by
    cases h with
    | mu _ hbody => exact hbody
  exact hbody.apply fun id u hu => (Subst.eq_of_get?_single hu).2 ▸ h

end Ty

end RowTypes
