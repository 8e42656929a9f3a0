import RowTypes.Proofs.Disciplines
import RowTypes.Solver.Join
import RowTypes.Solver.Merge

/-!
# Relating types keeps a discipline

Whatever a discipline asks of types, it is true of what unification, subtyping, joins and spreads
find when it is true of the types they are given and of the named types.  Each function that
relates types keeps the discipline if the relation it calls further down does.

The named types are in order at some stage, and relating starts at that stage or a later one.
-/

namespace RowTypes

namespace Discipline

variable {D : Discipline} {w₀ w : D.Stage} {ctx : Context} {α : Type}
  {made : D.Stage → α → Prop}

open Relate

/-! ## Steps of relating types -/

theorem keepsOk_freshRow (level : Int) :
    D.KeepsOk w (fun w' v => D.Row w' v.id) (fresh level) := by
  refine keepsOk_of_ends fun p hp => ends_fresh ?_
  obtain ⟨w', hw', hcount, hrow⟩ := D.exists_row w
  obtain ⟨hp, hends⟩ := hp
  rw [hp] at hcount hrow
  exact ⟨w', hw', ⟨hcount, hends⟩, hrow⟩

theorem keepsOk_assume (a b : Ty) : D.KeepsOk w (fun _ _ => True) (Relate.assume a b) := by
  refine keepsOk_of_ends fun p hp => ?_
  rw [Ends, run_assume]
  by_cases hassumed : p.assumed.contains (pairDigest a b) = true
  · rw [if_pos hassumed]
    exact ⟨w, D.refl w, hp, trivial⟩
  · rw [if_neg hassumed]
    exact ⟨w, D.refl w, hp, trivial⟩

theorem keepsOk_exceed (a b : Ty) : D.KeepsOk w made (exceed ctx a b) :=
  keepsOk_of_ends fun _ hp => ends_exceed ⟨w, D.refl w, hp⟩

theorem keepsOk_orElseThrow {m : Relate α} (h : D.KeepsOk w made m)
    (d : Diagnostic → Diagnostic) : D.KeepsOk w made (orElseThrow m d) :=
  keepsOk_of_ends fun _ hp => ends_orElseThrow (h.ends hp)

/-- What is found by an attempt is in order. -/
theorem keeps_attempt {m : Relate α} (h : D.KeepsOk w made m) :
    D.Keeps w (fun w' o => ∀ a, o = some a → made w' a) (attempt m) := by
  intro p hp
  have hends := h.ends hp
  unfold Ends at hends
  rw [show (attempt m).run p = attempt m p from rfl, attempt]
  generalize m.run p = out at hends ⊢
  obtain ⟨r, q⟩ := out
  cases r with
  | ok a =>
      obtain ⟨w', hw', hq, ha⟩ := hends
      exact ⟨w', hw', hq, by rintro b ⟨⟩; exact ha⟩
  | error e =>
      obtain ⟨w', hw', hq⟩ := hends
      exact ⟨w', hw', hq, by rintro b ⟨⟩⟩

theorem keeps_firstOf {m : Ty → Relate α} : ∀ {ts : List Ty} {w : D.Stage},
    (∀ t ∈ ts, ∀ w', D.Before w w' → D.KeepsOk w' made (m t)) →
      D.Keeps w (fun w' o => ∀ a, o = some a → made w' a) (firstOf m ts)
  | [], w, _ => keeps_pure (by rintro a ⟨⟩)
  | t :: ts, w, h => by
      rw [firstOf]
      refine (keeps_attempt (h t List.mem_cons_self w (D.refl w))).bind fun o w' hw' ho => ?_
      cases o with
      | some a =>
          refine keeps_pure ?_
          rintro b ⟨⟩
          exact ho a rfl
      | none =>
          exact keeps_firstOf fun u hu w'' hw'' =>
            h u (List.mem_cons_of_mem _ hu) w'' (hw'.trans hw'')

theorem keepsOk_expand {name : String} {args : List Ty} (hctx : D.Registers w ctx.registry)
    (hargs : ∀ t ∈ args, D.Ok w t) : D.KeepsOk w D.Ok (expand ctx name args) := by
  unfold expand
  split
  · exact keepsOk_throw
  · next d hd =>
      split
      · next t ht => exact keepsOk_pure ((hctx.lookup? hd).expand? hargs ht)
      · exact keepsOk_throw

theorem keepsOk_bindVar {v : TyVar} {t : Ty} (h : D.Binds w v.id t) :
    D.KeepsOk w D.Sends (bindVar ctx v t) := by
  unfold bindVar
  split
  · split
    · exact keepsOk_pure sends_empty
    · exact keepsOk_pure (sends_single h)
  · split
    · exact keepsOk_throw
    · exact keepsOk_pure (sends_single h)

/-- A relation keeps the discipline wherever it relates types that are in order, from a stage
on. -/
def KeepsRel (D : Discipline) (w₀ : D.Stage) (rel : Relation) : Prop :=
  ∀ {w : D.Stage} {a b : Ty}, D.Before w₀ w → D.Ok w a → D.Ok w b → D.KeepsOk w D.Sends (rel a b)

variable {rel unify subtype : Relation} {s : Subst}

theorem keepsOk_thread (hrel : D.KeepsRel w₀ rel) : ∀ {pairs : List (Ty × Ty)} {s : Subst}
    {w : D.Stage}, D.Before w₀ w → (∀ pair ∈ pairs, D.Ok w pair.1 ∧ D.Ok w pair.2) →
    D.Sends w s → D.KeepsOk w D.Sends (thread rel pairs s)
  | [], s, w, _, _, hs => keepsOk_pure hs
  | (a, b) :: pairs, s, w, hw, h, hs => by
      obtain ⟨ha, hb⟩ := h (a, b) List.mem_cons_self
      rw [thread]
      refine (hrel hw (hs.apply ha) (hs.apply hb)).bind fun next w' hw' hnext => ?_
      refine keepsOk_thread hrel (hw.trans hw') (fun pair hpair => ?_)
        (hnext.after (hs.later hw'))
      obtain ⟨h₁, h₂⟩ := h pair (List.mem_cons_of_mem _ hpair)
      exact ⟨h₁.later hw', h₂.later hw'⟩

/-! ## Records -/

theorem ok_field {r : RecordTy} {name : String} {t : Ty} (hr : D.Ok w r.toTy)
    (h : r.field? name = some t) : D.Ok w t := (D.record.1 hr).1 _ (Table.mem_of_get? h)

theorem ok_pick {r : RecordTy} (hr : D.Ok w r.toTy) (hs : D.Sends w s) (names : List String) :
    ∀ f ∈ r.pick s names, D.Ok w f.2 := by
  intro f hf
  obtain ⟨name, -, hname⟩ := List.mem_filterMap.1 (Table.mem_ofList hf)
  obtain ⟨t, ht, rfl⟩ := Option.map_eq_some_iff.1 hname
  exact hs.apply (ok_field hr ht)

theorem ok_sharedFields {a b : RecordTy} (ha : D.Ok w a.toTy) (hb : D.Ok w b.toTy) :
    ∀ pair ∈ a.sharedFields b, D.Ok w pair.1 ∧ D.Ok w pair.2 := by
  intro pair hpair
  obtain ⟨name, -, hname⟩ := List.mem_filterMap.1 hpair
  obtain ⟨x, hx, hname⟩ := Option.bind_eq_some_iff.1 hname
  obtain ⟨y, hy, hname⟩ := Option.bind_eq_some_iff.1 hname
  cases hname
  exact ⟨ok_field ha hx, ok_field hb hy⟩

/-- Some fields of a record, with a row or nothing behind them. -/
theorem ok_picked {r : RecordTy} (hr : D.Ok w r.toTy) (hs : D.Sends w s) (names : List String)
    {behind : Option TyVar} (hbehind : ∀ v, behind = some v → D.Row w v.id) :
    D.Ok w (.record (r.pick s names) behind) := D.record.2 ⟨ok_pick hr hs names, hbehind⟩

/-- A row takes fields in, whatever stands behind them. -/
theorem keepsOk_extendRow {row : TyVar} {fields : List (String × Ty)} {behind : Option TyVar}
    (hrow : D.Row w row.id) (hs : D.Sends w s) (h : D.Ok w (.record fields behind)) :
    D.KeepsOk w D.Sends (extendRow ctx s row fields behind) := by
  have hbinds : D.Binds w row.id (.record fields behind) := .inr ⟨hrow, h⟩
  exact (keepsOk_bindVar hbinds).bind fun _ _ hw' hbound =>
    keepsOk_pure (hbound.after (hs.later hw'))

theorem keepsOk_unifyRows {a b : RecordTy} (ha : D.Ok w a.toTy) (hb : D.Ok w b.toTy)
    (hs : D.Sends w s) (onlyA onlyB : List String) :
    D.KeepsOk w D.Sends (unifyRows ctx s a b onlyA onlyB) := by
  unfold unifyRows
  split
  · split
    · exact keepsOk_pure hs
    · exact keepsOk_throw
  · next row hrow _ =>
      split
      · exact keepsOk_extendRow (row_rowUnder ha hs hrow) hs
          (ok_picked hb hs onlyB (by rintro v ⟨⟩))
      · exact keepsOk_throw
  · next row _ hrow =>
      split
      · exact keepsOk_extendRow (row_rowUnder hb hs hrow) hs
          (ok_picked ha hs onlyA (by rintro v ⟨⟩))
      · exact keepsOk_throw
  · next rowA rowB hrowA hrowB =>
      split
      · split
        · exact keepsOk_pure hs
        · exact keepsOk_throw
      · -- The one new unknown is a row, behind both records.
        refine (keepsOk_freshRow _).bind fun behind w' hw' hbehind => ?_
        refine (keepsOk_extendRow ((row_rowUnder ha hs hrowA).later hw') (hs.later hw')
          (ok_picked (hb.later hw') (hs.later hw') onlyB ?_)).bind fun s' w'' hw'' hs' => ?_
        · rintro v ⟨⟩
          exact hbehind
        · refine keepsOk_extendRow ((row_rowUnder hb hs hrowB).later (hw'.trans hw'')) hs'
            (ok_picked (ha.later (hw'.trans hw'')) hs' onlyA ?_)
          rintro v ⟨⟩
          exact hbehind.later hw''

theorem keepsOk_unifyRecords (hunify : D.KeepsRel w₀ unify) (hw : D.Before w₀ w) {a b : RecordTy}
    (ha : D.Ok w a.toTy) (hb : D.Ok w b.toTy) :
    D.KeepsOk w D.Sends (unifyRecords ctx unify a b) := by
  unfold unifyRecords
  refine (keepsOk_thread hunify hw (ok_sharedFields ha hb) sends_empty).bind
    fun s w' hw' hs => ?_
  have ha' := ha.later hw'
  have hb' := hb.later hw'
  split
  · exact (hunify (hw.trans hw') (hs.apply ha') (hs.apply hb')).bind fun next w'' hw'' hnext =>
      keepsOk_pure (hnext.after (hs.later hw''))
  · exact keepsOk_unifyRows ha' hb' hs _ _

/-! ## Unification -/

theorem keepsOk_absorb (hunify : D.KeepsRel w₀ unify) (hw : D.Before w₀ w) {t : Ty}
    {alts : List Ty} (ht : D.Ok w t) (halts : ∀ alt ∈ alts, D.Ok w alt) :
    D.KeepsOk w D.Sends (absorb ctx unify t alts) := by
  have hfirst : D.Keeps w (fun w' o => ∀ s, o = some s → D.Sends w' s)
      (firstOf (unify t) alts) := keeps_firstOf fun alt halt w' hw' =>
    hunify (hw.trans hw') (ht.later hw') ((halts alt halt).later hw')
  unfold absorb
  refine hfirst.lift.bind fun o w' _ ho => ?_
  cases o with
  | some s => exact keepsOk_pure (ho s rfl)
  | none => exact keepsOk_throw

theorem keepsOk_absorbAll (hunify : D.KeepsRel w₀ unify) {target : Ty} : ∀ {alts : List Ty}
    {s : Subst} {w : D.Stage}, D.Before w₀ w → D.Ok w target → (∀ alt ∈ alts, D.Ok w alt) →
    D.Sends w s → D.KeepsOk w D.Sends (absorbAll ctx unify target alts s)
  | [], s, w, _, _, _, hs => keepsOk_pure hs
  | alt :: alts, s, w, hw, htarget, halts, hs => by
      have halt := hs.apply (halts alt List.mem_cons_self)
      have htarget' := hs.apply htarget
      have hrest : ∀ (next : Subst) (w' : D.Stage), D.Before w w' → D.Sends w' next →
          D.KeepsOk w' D.Sends (absorbAll ctx unify target alts (next.after s)) :=
        fun next w' hw' hnext => keepsOk_absorbAll hunify (hw.trans hw') (htarget.later hw')
          (fun alt halt => (halts alt (List.mem_cons_of_mem _ halt)).later hw')
          (hnext.after (hs.later hw'))
      rw [absorbAll]
      split
      · next ts hts =>
          rw [hts] at htarget'
          exact (keepsOk_absorb hunify hw halt (D.union htarget')).bind hrest
      · exact (hunify hw halt htarget').bind hrest

theorem keepsOk_unifyUnions (hunify : D.KeepsRel w₀ unify) (hw : D.Before w₀ w) {as bs : List Ty}
    (has : D.Ok w (.union as)) (hbs : D.Ok w (.union bs)) :
    D.KeepsOk w D.Sends (unifyUnions ctx unify as bs) := by
  refine keepsOk_orElseThrow ?_ _
  refine (keepsOk_absorbAll hunify hw hbs (D.union has) sends_empty).bind fun s w' hw' hs => ?_
  exact keepsOk_absorbAll hunify (hw.trans hw') (has.later hw')
    (fun t ht => (D.union hbs t ht).later hw') hs

theorem keepsOk_unifyWithMembers (hunify : D.KeepsRel w₀ unify) (hw : D.Before w₀ w) {t : Ty}
    {members : List Ty} (ht : D.Ok w t) (hmembers : ∀ m ∈ members, D.Ok w m) :
    D.KeepsOk w D.Sends (unifyWithMembers ctx unify t members) := by
  refine keepsOk_orElseThrow (keepsOk_thread hunify hw (fun pair hpair => ?_) sends_empty) _
  obtain ⟨m, hm, rfl⟩ := List.mem_map.1 hpair
  exact ⟨ht, hmembers m hm⟩

theorem ok_sameNameArgs? {a b : Ty} {pairs : List (Ty × Ty)} (ha : D.Ok w a) (hb : D.Ok w b)
    (h : sameNameArgs? a b = some pairs) : ∀ pair ∈ pairs, D.Ok w pair.1 ∧ D.Ok w pair.2 := by
  unfold sameNameArgs? at h
  split at h
  · split at h
    · cases h
      intro pair hpair
      obtain ⟨h₁, h₂⟩ := List.of_mem_zip hpair
      exact ⟨D.named.1 ha _ h₁, D.named.1 hb _ h₂⟩
    · cases h
  · cases h

/-- A type with a reference or a binder at its head is related to another once it is expanded. -/
theorem keepsOk_unifyExpanded (hctx : D.Registers w₀ ctx.registry) (hunify : D.KeepsRel w₀ unify)
    (hw : D.Before w₀ w) {a b : Ty} (ha : D.Ok w a) (hb : D.Ok w b) :
    D.KeepsOk w D.Sends (match a, b with
      | .named name args, b => do unify (← expand ctx name args) b
      | a, .named name args => do unify a (← expand ctx name args)
      | .mu v t, b => unify (.unfold v t) b
      | a, .mu v t => unify a (.unfold v t)
      | a, b => unify a b) := by
  split
  · exact (keepsOk_expand (hctx.later hw) (D.named.1 ha)).bind fun t w' hw' ht =>
      hunify (hw.trans hw') ht (hb.later hw')
  · exact (keepsOk_expand (hctx.later hw) (D.named.1 hb)).bind fun t w' hw' ht =>
      hunify (hw.trans hw') (ha.later hw') ht
  · exact hunify hw (ok_unfold ha) hb
  · exact hunify hw ha (ok_unfold hb)
  · exact hunify hw ha hb

theorem keepsOk_unifyIndirect (hctx : D.Registers w₀ ctx.registry) (hunify : D.KeepsRel w₀ unify)
    (hw : D.Before w₀ w) {a b : Ty} (ha : D.Ok w a) (hb : D.Ok w b) :
    D.KeepsOk w D.Sends (unifyIndirect ctx unify a b) := by
  unfold unifyIndirect
  refine (keepsOk_assume a b).bind fun assumed w' hw' _ => ?_
  replace ha := ha.later hw'
  replace hb := hb.later hw'
  replace hw := hw.trans hw'
  split
  · exact keepsOk_pure sends_empty
  · dsimp only
    split
    · next pairs hpairs =>
        have hthread := keepsOk_thread hunify hw (ok_sameNameArgs? ha hb hpairs) sends_empty
        refine (keeps_attempt hthread).lift.bind fun o w'' hw'' ho => ?_
        split
        · exact keepsOk_pure (ho _ rfl)
        · exact keepsOk_unifyExpanded hctx hunify (hw.trans hw'') (ha.later hw'') (hb.later hw'')
    · exact keepsOk_unifyExpanded hctx hunify hw ha hb

theorem keepsOk_zip {as bs : List Ty} (hrel : D.KeepsRel w₀ rel) (hw : D.Before w₀ w)
    (has : D.Ok w (.tuple as)) (hbs : D.Ok w (.tuple bs)) :
    D.KeepsOk w D.Sends (thread rel (as.zip bs) .empty) := by
  refine keepsOk_thread hrel hw (fun pair hpair => ?_) sends_empty
  obtain ⟨h₁, h₂⟩ := List.of_mem_zip hpair
  exact ⟨D.tuple.1 has _ h₁, D.tuple.1 hbs _ h₂⟩

theorem keepsOk_unifyShapes (hunify : D.KeepsRel w₀ unify) (hw : D.Before w₀ w) {a b : Ty}
    (ha : D.Ok w a) (hb : D.Ok w b) : D.KeepsOk w D.Sends (unifyShapes ctx unify a b) := by
  unfold unifyShapes
  split
  · exact keepsOk_unifyUnions hunify hw ha hb
  · exact keepsOk_absorb hunify hw ha (D.union hb)
  · exact keepsOk_unifyWithMembers hunify hw ha (D.inter hb)
  · exact keepsOk_absorb hunify hw hb (D.union ha)
  · exact keepsOk_unifyWithMembers hunify hw hb (D.inter ha)
  · exact keepsOk_pure sends_empty
  · exact keepsOk_pure sends_empty
  · obtain ⟨hp, hr⟩ := D.fn.1 ha
    obtain ⟨hp', hr'⟩ := D.fn.1 hb
    exact keepsOk_thread hunify hw (by simp [hp, hr, hp', hr']) sends_empty
  · split
    · exact keepsOk_zip hunify hw ha hb
    · exact keepsOk_throw
  · exact keepsOk_unifyRecords hunify hw ha hb
  · exact keepsOk_throw

theorem keepsOk_unifyStep (hctx : D.Registers w₀ ctx.registry) (hunify : D.KeepsRel w₀ unify)
    (hw : D.Before w₀ w) {a b : Ty} (ha : D.Ok w a) (hb : D.Ok w b) :
    D.KeepsOk w D.Sends (unifyStep ctx unify a b) := by
  unfold unifyStep
  split
  · exact keepsOk_pure sends_empty
  · split
    · exact keepsOk_bindVar (binds_of_ok ha hb)
    · exact keepsOk_bindVar (binds_of_ok hb ha)
    · split
      · exact keepsOk_unifyIndirect hctx hunify hw ha hb
      · exact keepsOk_unifyShapes hunify hw ha hb

/-- Unification keeps the discipline. -/
theorem keepsRel_unify (hctx : D.Registers w₀ ctx.registry) :
    ∀ limit : Nat, D.KeepsRel w₀ (Relate.unify ctx limit)
  | 0, _, _, _, _, _, _ => keepsOk_exceed _ _
  | limit + 1, _, _, _, hw, ha, hb => keepsOk_unifyStep hctx (keepsRel_unify hctx limit) hw ha hb

/-! ## Subtyping -/

theorem keepsOk_unifyWidth (hunify : D.KeepsRel w₀ unify) {sub super : RecordTy} :
    ∀ {fs : List (String × Ty)} {s : Subst} {w : D.Stage}, D.Before w₀ w → D.Ok w sub.toTy →
      (∀ f ∈ fs, D.Ok w f.2) → D.Sends w s →
      D.KeepsOk w D.Sends (unifyWidth ctx unify sub super fs s)
  | [], s, w, _, _, _, hs => keepsOk_pure hs
  | (name, t) :: fs, s, w, hw, hsub, hfs, hs => by
      have hrest := fun f hf => hfs f (List.mem_cons_of_mem _ hf)
      rw [unifyWidth]
      split
      · exact keepsOk_unifyWidth hunify hw hsub hrest hs
      · next u hu =>
          refine (keepsOk_orElseThrow (hunify hw (hs.apply (ok_field hsub hu))
            (hs.apply (hfs _ List.mem_cons_self))) _).bind fun next w' hw' hnext => ?_
          exact keepsOk_unifyWidth hunify (hw.trans hw') (hsub.later hw')
            (fun f hf => (hrest f hf).later hw') (hnext.after (hs.later hw'))

theorem keepsOk_subtypeRecords (hunify : D.KeepsRel w₀ unify) (hw : D.Before w₀ w)
    {sub super : RecordTy} (hsub : D.Ok w sub.toTy) (hsuper : D.Ok w super.toTy) :
    D.KeepsOk w D.Sends (subtypeRecords ctx unify sub super) := by
  unfold subtypeRecords
  refine (keepsOk_unifyWidth hunify hw hsub (D.record.1 hsuper).1 sends_empty).bind
    fun s w' hw' hs => ?_
  dsimp only
  split
  · exact keepsOk_pure hs
  · split
    · exact keepsOk_throw
    · next row hrow =>
        refine (keepsOk_freshRow _).bind fun behind w'' hw'' hbehind => ?_
        refine keepsOk_extendRow ((row_rowUnder (hsub.later hw') hs hrow).later hw'')
          (hs.later hw'') (ok_picked (hsuper.later (hw'.trans hw'')) (hs.later hw'') _ ?_)
        rintro v ⟨⟩
        exact hbehind

theorem keepsOk_subtypeIndirect (hctx : D.Registers w₀ ctx.registry)
    (hsubtype : D.KeepsRel w₀ subtype) (hw : D.Before w₀ w) {sub super : Ty} (hsub : D.Ok w sub)
    (hsuper : D.Ok w super) : D.KeepsOk w D.Sends (subtypeIndirect ctx subtype sub super) := by
  unfold subtypeIndirect
  refine (keepsOk_assume sub super).bind fun assumed w' hw' _ => ?_
  replace hsub := hsub.later hw'
  replace hsuper := hsuper.later hw'
  replace hw := hw.trans hw'
  split
  · exact keepsOk_pure sends_empty
  · split
    · exact (keepsOk_expand (hctx.later hw) (D.named.1 hsub)).bind fun t w'' hw'' ht =>
        hsubtype (hw.trans hw'') ht (hsuper.later hw'')
    · exact hsubtype hw (ok_unfold hsub) hsuper
    · exact (keepsOk_expand (hctx.later hw) (D.named.1 hsuper)).bind fun t w'' hw'' ht =>
        hsubtype (hw.trans hw'') (hsub.later hw'') ht
    · exact hsubtype hw hsub (ok_unfold hsuper)
    · exact hsubtype hw hsub hsuper

theorem keepsOk_subtypeSome {sub super : Ty} {reason : String}
    {found : StateM Progress (Option Subst)}
    (h : D.Keeps w (fun w' o => ∀ s, o = some s → D.Sends w' s) found) :
    D.KeepsOk w D.Sends (subtypeSome ctx sub super reason found) := by
  unfold subtypeSome
  refine h.lift.bind fun o w' _ ho => ?_
  cases o with
  | some s => exact keepsOk_pure (ho s rfl)
  | none => exact keepsOk_throw

theorem keepsOk_subtypeShapes (hunify : D.KeepsRel w₀ unify) (hsubtype : D.KeepsRel w₀ subtype)
    (hw : D.Before w₀ w) {sub super : Ty} (hsub : D.Ok w sub) (hsuper : D.Ok w super) :
    D.KeepsOk w D.Sends (subtypeShapes ctx unify subtype sub super) := by
  have hunified : D.KeepsOk w D.Sends (subtypeUnified ctx unify sub super) :=
    keepsOk_orElseThrow (hunify hw hsub hsuper) _
  unfold subtypeShapes
  split
  · refine keepsOk_thread hsubtype hw (fun pair hpair => ?_) sends_empty
    obtain ⟨t, ht, rfl⟩ := List.mem_map.1 hpair
    exact ⟨D.union hsub t ht, hsuper⟩
  · exact keepsOk_subtypeSome (keeps_firstOf fun t ht w' hw' =>
      hsubtype (hw.trans hw') (hsub.later hw') ((D.union hsuper t ht).later hw'))
  · exact keepsOk_subtypeSome (keeps_firstOf fun t ht w' hw' =>
      hsubtype (hw.trans hw') ((D.inter hsub t ht).later hw') (hsuper.later hw'))
  · refine keepsOk_thread hsubtype hw (fun pair hpair => ?_) sends_empty
    obtain ⟨t, ht, rfl⟩ := List.mem_map.1 hpair
    exact ⟨hsub, D.inter hsuper t ht⟩
  · exact keepsOk_subtypeRecords hunify hw hsub hsuper
  · obtain ⟨hp, hr⟩ := D.fn.1 hsub
    obtain ⟨hp', hr'⟩ := D.fn.1 hsuper
    refine (hsubtype hw hp' hp).bind fun params w' hw' hparams => ?_
    refine (hsubtype (hw.trans hw') (hparams.apply (hr.later hw'))
      (hparams.apply (hr'.later hw'))).bind fun results w'' hw'' hresults => ?_
    exact keepsOk_pure (hresults.after (hparams.later hw''))
  · split
    · exact keepsOk_zip hsubtype hw hsub hsuper
    · exact hunified
  · exact keepsOk_pure sends_empty
  · exact hunified

theorem keepsOk_subtypeStep (hctx : D.Registers w₀ ctx.registry) (hunify : D.KeepsRel w₀ unify)
    (hsubtype : D.KeepsRel w₀ subtype) (hw : D.Before w₀ w) {sub super : Ty} (hsub : D.Ok w sub)
    (hsuper : D.Ok w super) :
    D.KeepsOk w D.Sends (subtypeStep ctx unify subtype sub super) := by
  unfold subtypeStep
  split
  · exact keepsOk_pure sends_empty
  · split
    · exact hunify hw hsub hsuper
    · exact hunify hw hsub hsuper
    · split
      · exact keepsOk_subtypeIndirect hctx hsubtype hw hsub hsuper
      · exact keepsOk_subtypeShapes hunify hsubtype hw hsub hsuper

/-- Subtyping keeps the discipline. -/
theorem keepsRel_subtype (hctx : D.Registers w₀ ctx.registry) :
    ∀ limit : Nat, D.KeepsRel w₀ (Relate.subtype ctx limit)
  | 0, _, _, _, _, _, _ => keepsOk_exceed _ _
  | limit + 1, _, _, _, hw, ha, hb => keepsOk_subtypeStep hctx (keepsRel_unify hctx limit)
      (keepsRel_subtype hctx limit) hw ha hb

/-! ## Joins -/

/-- A type that was joined, and what was found, are in order. -/
def Joins (D : Discipline) (w : D.Stage) (j : Joined) : Prop := D.Ok w j.1 ∧ D.Sends w j.2

theorem ok_widest {a b : Ty} (ha : D.Ok w a) (hb : D.Ok w b) : D.Ok w (widest a b) := by
  unfold widest
  split
  · exact hb
  · exact ha

theorem keepsOk_joinUnified (hunify : D.KeepsRel w₀ unify) (hw : D.Before w₀ w) {a b : Ty}
    (ha : D.Ok w a) (hb : D.Ok w b) : D.KeepsOk w D.Joins (joinUnified unify a b) :=
  (hunify hw ha hb).bind fun _ _ hw' hs =>
    keepsOk_pure ⟨hs.apply ((ok_widest ha hb).later hw'), hs⟩

/-- The two ways to join, one that may fail and one that may not, have the rules of runs in
common. -/
structure Follows (D : Discipline) {m : Type → Type} [Monad m]
    (T : D.Stage → {α : Type} → (D.Stage → α → Prop) → m α → Prop) : Prop where
  pure : ∀ {α : Type} {made : D.Stage → α → Prop} {w : D.Stage} {a : α}, made w a →
    T w made (pure a)
  bind : ∀ {α β : Type} {made : D.Stage → α → Prop} {made' : D.Stage → β → Prop} {w : D.Stage}
    {x : m α} {f : α → m β}, T w made x →
    (∀ a w', D.Before w w' → made w' a → T w' made' (f a)) → T w made' (x >>= f)

theorem follows_keepsOk : D.Follows (m := Relate) fun w _ made m => D.KeepsOk w made m :=
  ⟨keepsOk_pure, KeepsOk.bind⟩

theorem follows_keeps : D.Follows (m := StateM Progress) fun w _ made m => D.Keeps w made m :=
  ⟨keeps_pure, Keeps.bind⟩

section Following

variable {m : Type → Type} [Monad m]
  {T : D.Stage → {α : Type} → (D.Stage → α → Prop) → m α → Prop} {join : Ty → Ty → m Joined}

/-- Joins keep the discipline wherever they join types that are in order, from a stage on. -/
def KeepsJoin (D : Discipline) (w₀ : D.Stage)
    (T : D.Stage → {α : Type} → (D.Stage → α → Prop) → m α → Prop)
    (join : Ty → Ty → m Joined) : Prop :=
  ∀ {w : D.Stage} {a b : Ty}, D.Before w₀ w → D.Ok w a → D.Ok w b → T w D.Joins (join a b)

theorem keeps_joinAll (hT : D.Follows T) (hjoin : D.KeepsJoin w₀ T join) :
    ∀ {pairs : List (Ty × Ty)} {done : List Ty} {s : Subst} {w : D.Stage}, D.Before w₀ w →
      (∀ pair ∈ pairs, D.Ok w pair.1 ∧ D.Ok w pair.2) → (∀ t ∈ done, D.Ok w t) → D.Sends w s →
      T w D.Joins (joinAll join pairs done s)
  | [], done, s, w, _, _, hdone, hs => hT.pure ⟨D.tuple.2 (hs.applyAll hdone), hs⟩
  | (a, b) :: pairs, done, s, w, hw, h, hdone, hs => by
      obtain ⟨ha, hb⟩ := h (a, b) List.mem_cons_self
      rw [joinAll]
      refine hT.bind (hjoin hw (hs.apply ha) (hs.apply hb)) ?_
      rintro ⟨t, next⟩ w' hw' ⟨ht, hnext⟩
      refine keeps_joinAll hT hjoin (hw.trans hw') (fun pair hpair => ?_) (fun u hu => ?_)
        (hnext.after (hs.later hw'))
      · obtain ⟨h₁, h₂⟩ := h pair (List.mem_cons_of_mem _ hpair)
        exact ⟨h₁.later hw', h₂.later hw'⟩
      · rcases List.mem_append.1 hu with hu | hu
        · exact (hdone u hu).later hw'
        · rw [List.mem_singleton.1 hu]
          exact ht

theorem keeps_joinTuples (hT : D.Follows T) (hjoin : D.KeepsJoin w₀ T join) (hw : D.Before w₀ w)
    {as bs : List Ty} (has : D.Ok w (.tuple as)) (hbs : D.Ok w (.tuple bs)) :
    T w D.Joins (joinAll join (as.zip bs) [] .empty) := by
  refine keeps_joinAll hT hjoin hw (fun pair hpair => ?_) (by simp) sends_empty
  obtain ⟨h₁, h₂⟩ := List.of_mem_zip hpair
  exact ⟨D.tuple.1 has _ h₁, D.tuple.1 hbs _ h₂⟩

theorem keeps_joinList (hT : D.Follows T) (hjoin : D.KeepsJoin w₀ T join) :
    ∀ {ts : List Ty} {j : Joined} {w : D.Stage}, D.Before w₀ w → (∀ t ∈ ts, D.Ok w t) →
      D.Joins w j → T w D.Joins (joinList join ts j)
  | [], (t, s), w, _, _, hj => hT.pure ⟨hj.2.apply hj.1, hj.2⟩
  | b :: bs, (t, s), w, hw, hts, hj => by
      obtain ⟨ht, hs⟩ := hj
      rw [joinList]
      refine hT.bind (hjoin hw (hs.apply ht) (hs.apply (hts b List.mem_cons_self))) ?_
      rintro ⟨u, next⟩ w' hw' ⟨hu, hnext⟩
      exact keeps_joinList hT hjoin (hw.trans hw')
        (fun t ht => (hts t (List.mem_cons_of_mem _ ht)).later hw')
        ⟨hu, hnext.after (hs.later hw')⟩

end Following

theorem joins_pair {a b : Ty} (ha : D.Ok w a) (hb : D.Ok w b) :
    D.Joins w (Ty.unionOf [a, b], .empty) :=
  ⟨D.unionOf (List.cons_ne_nil _ _) (by simp [ha, hb]), sends_empty⟩

theorem joins_append {alts : List Ty} {b : Ty} (halts : D.Ok w (.union alts)) (hb : D.Ok w b) :
    D.Joins w (Ty.unionOf (alts ++ [b]), .empty) := by
  refine ⟨D.unionOf (by simp) fun t ht => ?_, sends_empty⟩
  rcases List.mem_append.1 ht with ht | ht
  · exact D.union halts t ht
  · rw [List.mem_singleton.1 ht]
    exact hb

theorem keeps_firstAlternative (hunify : D.KeepsRel w₀ unify) (hw : D.Before w₀ w)
    {alts : List Ty} {b : Ty} (halts : D.Ok w (.union alts)) (hb : D.Ok w b) :
    D.Keeps w (fun w' o => ∀ s, o = some s → D.Sends w' s)
      (firstOf (fun alt => unify alt b) alts) :=
  keeps_firstOf fun t ht _ hw' =>
    hunify (hw.trans hw') ((D.union halts t ht).later hw') (hb.later hw')

theorem keepsOk_joinIntoUnion (hunify : D.KeepsRel w₀ unify) (hw : D.Before w₀ w)
    {alts : List Ty} {b : Ty} (halts : D.Ok w (.union alts)) (hb : D.Ok w b) :
    D.KeepsOk w D.Joins (joinIntoUnion ctx unify alts b) := by
  unfold joinIntoUnion
  refine (keeps_firstAlternative hunify hw halts hb).lift.bind fun o w' hw' ho => ?_
  cases o with
  | some s => exact keepsOk_pure ⟨(ho s rfl).apply (halts.later hw'), ho s rfl⟩
  | none =>
      dsimp only
      split
      · split
        · exact keepsOk_pure (joins_append (halts.later hw') (hb.later hw'))
        · exact keepsOk_throw
      · exact keepsOk_throw

theorem keepsOk_joinBranchesStep (hunify : D.KeepsRel w₀ unify) (hw : D.Before w₀ w)
    {join : Ty → Ty → Relate Joined}
    (hjoin : D.KeepsJoin w₀ (fun w _ made m => D.KeepsOk w made m) join) {a b : Ty}
    (ha : D.Ok w a) (hb : D.Ok w b) :
    D.KeepsOk w D.Joins (joinBranchesStep ctx unify join a b) := by
  have hunified := keepsOk_joinUnified hunify hw ha hb
  unfold joinBranchesStep
  split
  · exact hunified
  · exact hunified
  · split
    · exact keepsOk_pure (joins_pair ha hb)
    · exact hunified
  · exact keepsOk_joinIntoUnion hunify hw ha hb
  · split
    · exact keeps_joinTuples follows_keepsOk hjoin hw ha hb
    · exact hunified
  · split
    · exact hunified
    · exact keepsOk_pure ⟨D.prim w _, sends_empty⟩
  · exact hunified

theorem keepsJoin_joinBranches (hunify : D.KeepsRel w₀ unify) :
    ∀ depth : Nat, D.KeepsJoin w₀ (fun w _ made m => D.KeepsOk w made m)
      (joinBranches ctx unify depth)
  | 0, _, _, _, _, _, _ => keepsOk_throw
  | depth + 1, _, _, _, hw, ha, hb =>
      keepsOk_joinBranchesStep hunify hw (keepsJoin_joinBranches hunify depth) ha hb

theorem keepsOk_fitBranches (hsubtype : D.KeepsRel w₀ subtype) {result : Ty} :
    ∀ {bs : List Ty} {s : Subst} {w : D.Stage}, D.Before w₀ w → D.Ok w result →
      (∀ b ∈ bs, D.Ok w b) → D.Sends w s →
      D.KeepsOk w D.Sends (fitBranches ctx subtype result bs s)
  | [], s, w, _, _, _, hs => keepsOk_pure hs
  | b :: bs, s, w, hw, hresult, hbs, hs => by
      rw [fitBranches]
      refine (keepsOk_orElseThrow (hsubtype hw (hs.apply (hbs b List.mem_cons_self))
        (hs.apply hresult)) _).bind fun next w' hw' hnext => ?_
      exact keepsOk_fitBranches hsubtype (hw.trans hw') (hresult.later hw')
        (fun b hb => (hbs b (List.mem_cons_of_mem _ hb)).later hw') (hnext.after (hs.later hw'))

theorem keepsOk_branch (hctx : D.Registers w ctx.registry) (limit : Nat) {result : Ty}
    {branches : List Ty} (hresult : D.Ok w result) (hbranches : ∀ b ∈ branches, D.Ok w b) :
    D.KeepsOk w D.Sends (branch ctx limit result branches) := by
  unfold branch
  split
  · exact keepsOk_pure sends_empty
  · next first others =>
      split
      · have hfirst : D.Joins w (first, .empty) :=
          ⟨hbranches first List.mem_cons_self, sends_empty⟩
        refine KeepsOk.bind (keeps_joinList follows_keepsOk
          (keepsJoin_joinBranches (keepsRel_unify hctx limit) _) (D.refl w)
          (fun t ht => hbranches t (List.mem_cons_of_mem _ ht)) hfirst) ?_
        rintro ⟨joined, s⟩ w' hw' ⟨hjoined, hs⟩
        exact (keepsRel_unify hctx limit hw' (hs.apply (hresult.later hw')) hjoined).bind
          fun bound w'' hw'' hbound => keepsOk_pure (hbound.after (hs.later hw''))
      · exact keepsOk_fitBranches (keepsRel_subtype hctx limit) (D.refl w) hresult hbranches
          sends_empty

/-! ## Patterns -/

theorem keeps_joinOrUnion (hunify : D.KeepsRel w₀ unify) (hw : D.Before w₀ w) {a b : Ty}
    (ha : D.Ok w a) (hb : D.Ok w b) : D.Keeps w D.Joins (joinOrUnion unify a b) := by
  unfold joinOrUnion
  refine (keeps_attempt (hunify hw ha hb)).bind fun o w' hw' ho => ?_
  cases o with
  | some s => exact keeps_pure ⟨(ho s rfl).apply ((ok_widest ha hb).later hw'), ho s rfl⟩
  | none => exact keeps_pure (joins_pair (ha.later hw') (hb.later hw'))

theorem keeps_joinPatternsStep (hunify : D.KeepsRel w₀ unify) (hw : D.Before w₀ w)
    {join : Ty → Ty → StateM Progress Joined}
    (hjoin : D.KeepsJoin w₀ (fun w _ made m => D.Keeps w made m) join) {a b : Ty}
    (ha : D.Ok w a) (hb : D.Ok w b) : D.Keeps w D.Joins (joinPatternsStep unify join a b) := by
  have hunified := keeps_joinOrUnion hunify hw ha hb
  unfold joinPatternsStep
  split
  · split
    · exact keeps_pure (joins_pair ha hb)
    · exact hunified
  · split
    · exact keeps_joinTuples follows_keeps hjoin hw ha hb
    · exact hunified
  · split
    · exact hunified
    · exact keeps_pure (joins_pair ha hb)
  · refine (keeps_firstAlternative hunify hw ha hb).bind fun o w' hw' ho => ?_
    cases o with
    | some s => exact keeps_pure ⟨(ho s rfl).apply (ha.later hw'), ho s rfl⟩
    | none => exact keeps_pure (joins_append (ha.later hw') (hb.later hw'))
  · exact hunified

theorem keepsJoin_joinPatterns (hunify : D.KeepsRel w₀ unify) :
    ∀ depth : Nat, D.KeepsJoin w₀ (fun w _ made m => D.Keeps w made m)
      (joinPatterns unify depth)
  | 0, _, _, _, hw, ha, hb => keeps_joinOrUnion hunify hw ha hb
  | depth + 1, _, _, _, hw, ha, hb =>
      keeps_joinPatternsStep hunify hw (keepsJoin_joinPatterns hunify depth) ha hb

theorem keepsRel_matchAlternative (hunify : D.KeepsRel w₀ unify) :
    D.KeepsRel w₀ (matchAlternative ctx unify) := by
  intro w a b hw ha hb
  unfold matchAlternative
  split
  · exact keepsOk_bindVar (binds_of_ok ha hb)
  · split
    · exact keepsOk_absorb hunify hw ha (D.union hb)
    · exact hunify hw ha hb

theorem keepsOk_holds (hctx : D.Registers w ctx.registry) (limit : Nat) {scrutinee : Ty}
    {patterns : List Ty} (hscrutinee : D.Ok w scrutinee) (hpatterns : ∀ t ∈ patterns, D.Ok w t) :
    D.KeepsOk w D.Sends (holds ctx limit scrutinee patterns) := by
  have hunify : D.KeepsRel w (Relate.unify ctx limit) := keepsRel_unify hctx limit
  have hpairs : ∀ pair ∈ patterns.map fun t => (t, scrutinee),
      D.Ok w pair.1 ∧ D.Ok w pair.2 := by
    intro pair hpair
    obtain ⟨t, ht, rfl⟩ := List.mem_map.1 hpair
    exact ⟨hpatterns t ht, hscrutinee⟩
  unfold holds
  split
  · split
    · exact keepsOk_pure sends_empty
    · next first others =>
        have hfirst : D.Joins w (first, .empty) :=
          ⟨hpatterns first List.mem_cons_self, sends_empty⟩
        refine (Keeps.lift (keeps_joinList follows_keeps (keepsJoin_joinPatterns hunify _)
          (D.refl w) (fun t ht => hpatterns t (List.mem_cons_of_mem _ ht)) hfirst)).bind ?_
        rintro ⟨joined, s⟩ w' hw' ⟨hjoined, hs⟩
        exact (keepsOk_bindVar (binds_of_ok (hscrutinee.later hw') hjoined)).bind
          fun bound w'' hw'' hbound => keepsOk_pure (hbound.after (hs.later hw''))
  · exact keepsOk_thread (keepsRel_matchAlternative hunify) (D.refl w) hpairs sends_empty
  · exact keepsOk_thread hunify (D.refl w) hpairs sends_empty

/-! ## Spreads -/

theorem keepsOk_needs {ends : Prop} (h : D.headed → ends) :
    D.KeepsOk w (fun _ _ => True) (Relate.needs ends) :=
  keepsOk_of_ends fun _ ⟨hcount, hends⟩ => ends_needs
    ⟨w, D.refl w, ⟨hcount, fun hheaded => ⟨hends hheaded, h hheaded⟩⟩, trivial⟩

theorem ok_head? {r : Registry} {t u : Ty} (hr : D.Registers w r) (ht : D.Ok w t)
    (hu : r.head? t = some u) : D.Ok w u := by
  refine Registry.head?_induction (motive := D.Ok w) (fun h hexpands => ?_) ok_unfold ht hu
  obtain ⟨d, hd, hexpands⟩ := Option.bind_eq_some_iff.1 hexpands
  exact (hr.lookup? hd).expand? (D.named.1 h) hexpands

/-- The head that is found is in order, and it is found if it has to be. -/
theorem keepsOk_head (hctx : D.Registers w ctx.registry) {t : Ty} (ht : D.Ok w t) :
    D.KeepsOk w D.Ok (head ctx t) := by
  unfold head
  refine (keepsOk_needs (hctx.isSome_head? ht)).bind fun _ w' hw' _ => ?_
  split
  · next hu =>
      exact keepsOk_expand (hctx.later hw') (D.named.1 ((ok_head? hctx ht hu).later hw'))
  · next hu => exact keepsOk_pure ((ok_head? hctx ht hu).later hw')
  · exact keepsOk_throw

theorem keepsOk_recordShape (hctx : D.Registers w ctx.registry) {t : Ty} (ht : D.Ok w t) :
    D.KeepsOk w D.Sends (recordShape ctx t) := by
  unfold recordShape
  refine (keepsOk_head hctx ht).bind fun u w' _ hu => ?_
  split
  · exact keepsOk_pure sends_empty
  · refine (keepsOk_freshRow _).bind fun row w'' hw'' hrow =>
      keepsOk_bindVar (binds_of_ok (hu.later hw'') ?_)
    refine D.record.2 ⟨by simp, ?_⟩
    rintro v ⟨⟩
    exact hrow
  · exact keepsOk_throw

/-- The fields of a record that is spread are in order; its row is not looked at. -/
theorem keepsOk_spreadRecord (hctx : D.Registers w₀ ctx.registry) (hw : D.Before w₀ w) {t : Ty}
    (ht : D.Ok w t) :
    D.KeepsOk w (fun w' r => ∀ f ∈ r.fields, D.Ok w' f.2) (spreadRecord ctx t) := by
  unfold spreadRecord
  refine (keepsOk_head (hctx.later hw) ht).bind fun u w' _ hu => ?_
  split
  · exact keepsOk_pure (D.record.1 hu).1
  · exact keepsOk_pure (by simp)
  · exact keepsOk_throw

/-- What spreading has collected is in order. -/
structure Merges (D : Discipline) (w : D.Stage) (m : Merging) : Prop where
  fields : ∀ f ∈ m.fields, D.Ok w f.2
  subst : D.Sends w m.subst

theorem Merges.later {w' : D.Stage} {m : Merging} (h : D.Merges w m) (hw : D.Before w w') :
    D.Merges w' m := ⟨fun f hf => (h.fields f hf).later hw, h.subst.later hw⟩

theorem ok_insert {fs : Table String Ty} {name : String} {t : Ty} (hfs : ∀ f ∈ fs, D.Ok w f.2)
    (ht : D.Ok w t) : ∀ f ∈ Table.insert name t fs, D.Ok w f.2 := by
  intro f hf
  rcases Table.mem_insert hf with rfl | hf
  · exact ht
  · exact hfs f hf

theorem keepsOk_overlay (hunify : D.KeepsRel w₀ unify) (replace : Bool) :
    ∀ {fs : List (String × Ty)} {m : Merging} {w : D.Stage}, D.Before w₀ w →
      (∀ f ∈ fs, D.Ok w f.2) → D.Merges w m →
      D.KeepsOk w D.Merges (overlay ctx unify replace fs m)
  | [], m, w, _, _, hm => keepsOk_pure hm
  | (name, t) :: fs, m, w, hw, hfs, hm => by
      have ht := hm.subst.apply (hfs _ List.mem_cons_self)
      have hrest : ∀ (m : Merging) (w' : D.Stage), D.Before w w' → D.Merges w' m →
          D.KeepsOk w' D.Merges (overlay ctx unify replace fs m) := fun m w' hw' hm =>
        keepsOk_overlay hunify replace (hw.trans hw')
          (fun f hf => (hfs f (List.mem_cons_of_mem _ hf)).later hw') hm
      rw [overlay]
      dsimp only
      split
      · have hadded : D.Merges w
            { m with fields := Table.insert name (m.subst.apply t) m.fields } :=
          ⟨ok_insert hm.fields ht, hm.subst⟩
        exact (keepsOk_pure hadded).bind hrest
      · next existing hexisting =>
          have hold := hm.subst.apply (hm.fields _ (Table.mem_of_get? hexisting))
          refine (keepsOk_orElseThrow (hunify hw hold ht) _).bind fun next w' hw' hnext => ?_
          have hlaid : D.Merges w'
              { fields := if replace then Table.insert name (m.subst.apply t) m.fields
                  else m.fields
                subst := next.after m.subst } := by
            refine ⟨?_, hnext.after (hm.subst.later hw')⟩
            dsimp only
            split
            · exact ok_insert (hm.later hw').fields (ht.later hw')
            · exact (hm.later hw').fields
          exact (keepsOk_pure hlaid).bind fun m' w'' hw'' hm' =>
            hrest m' w'' (hw'.trans hw'') hm'

theorem keepsOk_overlaySpreads (hctx : D.Registers w₀ ctx.registry)
    (hunify : D.KeepsRel w₀ unify) : ∀ {ts : List Ty} {m : Merging} {w : D.Stage},
      D.Before w₀ w → (∀ t ∈ ts, D.Ok w t) → D.Merges w m →
      D.KeepsOk w D.Merges (overlaySpreads ctx unify ts m)
  | [], m, w, _, _, hm => keepsOk_pure hm
  | t :: ts, m, w, hw, hts, hm => by
      rw [overlaySpreads]
      refine (keepsOk_spreadRecord hctx hw (hm.subst.apply (hts t List.mem_cons_self))).bind
        fun r w' hw' hr => ?_
      refine (keepsOk_overlay hunify false (hw.trans hw') hr (hm.later hw')).bind
        fun m' w'' hw'' hm' => ?_
      exact keepsOk_overlaySpreads hctx hunify ((hw.trans hw').trans hw'') (fun u hu =>
        (hts u (List.mem_cons_of_mem _ hu)).later (hw'.trans hw'')) hm'

theorem keepsOk_merge (hctx : D.Registers w ctx.registry) (hunify : D.KeepsRel w unify)
    {result : Ty} {spreads : List Ty} {explicit : RecordTy} (hresult : D.Ok w result)
    (hspreads : ∀ t ∈ spreads, D.Ok w t) (hexplicit : D.Ok w explicit.toTy) :
    D.KeepsOk w D.Sends (merge ctx unify result spreads explicit) := by
  have hempty : D.Merges w {} := ⟨by simp, sends_empty⟩
  unfold merge
  refine (keepsOk_overlaySpreads hctx hunify (D.refl w) hspreads hempty).bind
    fun m w₁ hw₁ hm => ?_
  refine (keepsOk_overlay hunify true hw₁
    (fun f hf => ((D.record.1 hexplicit).1 f hf).later hw₁) hm).bind fun m' w₂ hw₂ hm' => ?_
  refine (keepsOk_freshRow 0).bind fun row w₃ hw₃ hrow => ?_
  have hmerged : D.Ok w₃ (.record m'.fields (some row)) := by
    refine D.record.2 ⟨(hm'.later hw₃).fields, ?_⟩
    rintro v ⟨⟩
    exact hrow
  have hsubst := (hm'.later hw₃).subst
  have hw₀ := (hw₁.trans hw₂).trans hw₃
  exact (hunify hw₀ (hsubst.apply (hresult.later hw₀)) (hsubst.apply hmerged)).bind
    fun next w₄ hw₄ hnext => keepsOk_pure (hnext.after (hsubst.later hw₄))

end Discipline

end RowTypes
