import RowTypes.Proofs.DisciplinedRelating
import RowTypes.Proofs.Solving

/-!
# Solving keeps a discipline

Normalising a type and solving a set of constraints keep a discipline, in a session whose named
types and remembered normal forms are in order.  The unknowns that normalising makes become
binders, so they are made for types; a binder that an expansion further up has made is found in
the list of the expansions that are going on.
-/

namespace RowTypes

namespace Discipline

variable {D : Discipline} {w₀ w w' : D.Stage}

/-! ## Normal forms -/

section NormalForms

open Registry

/-- What becomes of references is in order, from a stage on. -/
def KeepsRefs (D : Discipline) (w₀ : D.Stage)
    (onRef : String → List Ty → StateM Session (Option Ty)) : Prop :=
  ∀ {name : String} {args : List Ty} {w : D.Stage}, D.Before w₀ w → (∀ t ∈ args, D.Ok w t) →
    D.Keeps w (fun w' o => ∀ t, o = some t → D.Ok w' t) (onRef name args)

variable {onRef : String → List Ty → StateM Session (Option Ty)}

mutual

theorem keeps_normalizeWith (hrefs : D.KeepsRefs w₀ onRef) : ∀ {t : Ty} {w : D.Stage},
    D.Before w₀ w → D.Ok w t → D.Keeps w D.Ok (normalizeWith onRef t)
  | .var _, w, _, ht | .prim _, w, _, ht | .lit _, w, _, ht => by
      rw [normalizeWith]
      exact keeps_pure ht
  | .fn p r, w, hw, ht => by
      obtain ⟨hp, hr⟩ := D.fn.1 ht
      rw [normalizeWith]
      refine (keeps_normalizeWith hrefs hw hp).bind fun p' w' hw' hp' => ?_
      refine (keeps_normalizeWith hrefs (hw.trans hw') (hr.later hw')).bind
        fun r' w'' hw'' hr' => ?_
      exact keeps_pure (D.fn.2 ⟨hp'.later hw'', hr'⟩)
  | .record fs row, w, hw, ht => by
      obtain ⟨hfs, hrow⟩ := D.record.1 ht
      rw [normalizeWith]
      refine (keeps_normalizeFields hrefs hw hfs).bind fun fs' w' hw' hfs' => ?_
      exact keeps_pure (D.record.2 ⟨hfs', fun v hv => (hrow v hv).later hw'⟩)
  | .tuple ts, w, hw, ht => by
      rw [normalizeWith]
      exact (keeps_normalizeAll hrefs hw (D.tuple.1 ht)).bind fun _ _ _ hts =>
        keeps_pure (D.tuple.2 hts.2)
  | .union ts, w, hw, ht => by
      rw [normalizeWith]
      exact (keeps_normalizeAll hrefs hw (D.union ht)).bind fun _ _ hw' hts =>
        keeps_pure (ok_unionOf_of (ht.later hw') hts.1 hts.2)
  | .inter ts, w, hw, ht => by
      rw [normalizeWith]
      exact (keeps_normalizeAll hrefs hw (D.inter ht)).bind fun _ _ hw' hts =>
        keeps_pure (ok_interOf_of (ht.later hw') hts.1 hts.2)
  | .named name args, w, hw, ht => by
      have hargs := D.named.1 ht
      rw [normalizeWith]
      refine (hrefs hw hargs).bind fun o w' hw' ho => ?_
      cases o with
      | some t => exact keeps_pure (ho t rfl)
      | none =>
          exact (keeps_normalizeAll hrefs (hw.trans hw')
            fun t ht => (hargs t ht).later hw').bind fun _ _ _ hts =>
              keeps_pure (D.named.2 hts.2)
  | .mu v t, w, hw, ht => by
      obtain ⟨hv, ht, hovert⟩ := D.mu.1 ht
      rw [normalizeWith]
      refine ((keeps_normalizeWith hrefs hw ht).and (Q := fun u => D.headed → u.Overt)
        fun σ hheaded => overt_normalizeWith (hovert hheaded) σ).bind fun _ _ hw' ht' => ?_
      exact keeps_pure (D.mu.2 ⟨hv.later hw', ht'⟩)

theorem keeps_normalizeAll (hrefs : D.KeepsRefs w₀ onRef) : ∀ {ts : List Ty} {w : D.Stage},
    D.Before w₀ w → (∀ t ∈ ts, D.Ok w t) →
    D.Keeps w (fun w' us => us.length = ts.length ∧ ∀ u ∈ us, D.Ok w' u) (normalizeAll onRef ts)
  | [], w, _, _ => by
      rw [normalizeAll]
      exact keeps_pure (by simp)
  | t :: ts, w, hw, hts => by
      rw [normalizeAll]
      refine (keeps_normalizeWith hrefs hw (hts t List.mem_cons_self)).bind
        fun t' w' hw' ht' => ?_
      refine (keeps_normalizeAll hrefs (hw.trans hw')
        fun u hu => (hts u (List.mem_cons_of_mem _ hu)).later hw').bind
          fun ts' w'' hw'' hts' => keeps_pure ?_
      exact ⟨by simp [hts'.1], List.forall_mem_cons.2 ⟨ht'.later hw'', hts'.2⟩⟩

theorem keeps_normalizeFields (hrefs : D.KeepsRefs w₀ onRef) :
    ∀ {fs : List (String × Ty)} {w : D.Stage}, D.Before w₀ w → (∀ f ∈ fs, D.Ok w f.2) →
    D.Keeps w (fun w' (gs : List (String × Ty)) => ∀ g ∈ gs, D.Ok w' g.2)
      (normalizeFields onRef fs)
  | [], w, _, _ => by
      rw [normalizeFields]
      exact keeps_pure (by simp)
  | (name, t) :: fs, w, hw, hfs => by
      rw [normalizeFields]
      refine (keeps_normalizeWith hrefs hw (hfs _ List.mem_cons_self)).bind
        fun t' w' hw' ht' => ?_
      refine (keeps_normalizeFields hrefs (hw.trans hw')
        fun f hf => (hfs f (List.mem_cons_of_mem _ hf)).later hw').bind
          fun fs' w'' hw'' hfs' => keeps_pure ?_
      exact List.forall_mem_cons.2 ⟨ht'.later hw'', hfs'⟩

end

/-- An unknown that a session makes for a type. -/
theorem keeps_freshVar (level : Int) :
    D.Keeps w (fun w' v => D.Ok w' (.var v)) (freshVar level) := by
  rintro σ ⟨hcount, hregistry, hending⟩
  obtain ⟨w', hw', hcount', hv⟩ := D.exists_var w level
  rw [hcount] at hcount' hv
  exact ⟨w', hw', ⟨hcount', hregistry.later hw', hending⟩, hv⟩

/-- An unknown that a session makes for a row. -/
theorem keeps_freshRow (level : Int) :
    D.Keeps w (fun w' v => D.Row w' v.id) (freshVar level) := by
  rintro σ ⟨hcount, hregistry, hending⟩
  obtain ⟨w', hw', hcount', hv⟩ := D.exists_row w
  rw [hcount] at hcount' hv
  exact ⟨w', hw', ⟨hcount', hregistry.later hw', hending⟩, hv⟩

theorem keeps_remember (key : Digest) {t : Ty} (ht : D.Ok w t) :
    D.Keeps w (fun _ _ => True) (remember key t) := by
  rintro σ ⟨hcount, hregistry, hending⟩
  refine ⟨w, D.refl w, ⟨hcount, ⟨hregistry.definitions, fun entry hentry => ?_⟩, hending⟩, trivial⟩
  rcases Table.mem_insert hentry with rfl | hentry
  · exact ht
  · exact hregistry.memo entry hentry

theorem keeps_closeExpansion (expanding : Expanding) (key : Digest) {binder : TyVar} {body : Ty}
    (hbinder : D.Ok w (.var binder)) (hbody : D.Ok w body) (hovert : D.headed → body.Overt) :
    D.Keeps w D.Ok (closeExpansion expanding key binder body) := by
  have hresult : D.Ok w (if body.occurs binder then Ty.mu binder body else body) := by
    split
    · exact D.mu.2 ⟨hbinder, hbody, hovert⟩
    · exact hbody
  unfold closeExpansion
  dsimp only
  generalize (if body.occurs binder then Ty.mu binder body else body) = result at hresult ⊢
  split
  · exact (keeps_remember key hresult).bind fun _ _ hw' _ => keeps_pure (hresult.later hw')
  · exact keeps_pure hresult

theorem keepsRefs_step
    {below : Option (Expanding → String → List Ty → StateM Session (Option Ty))}
    (hbelow : ∀ b, below = some b → ∀ {expanding : Expanding} {w : D.Stage},
      (∀ entry ∈ expanding, D.Ok w (.var entry.2)) → D.KeepsRefs w (b expanding))
    {expanding : Expanding} (hexpanding : ∀ entry ∈ expanding, D.Ok w (.var entry.2)) :
    D.KeepsRefs w (normalizeRefStep below expanding) := by
  intro name args w' hw hargs
  have hkept : ∀ t, some (Ty.named name args) = some t → D.Ok w' t := by
    rintro t ⟨⟩
    exact D.named.2 hargs
  unfold normalizeRefStep
  dsimp only
  split
  · next binder hbinder =>
      refine keeps_pure ?_
      rintro t ⟨⟩
      obtain ⟨before, later, rfl, -⟩ := List.lookup_eq_some_iff.1 hbinder
      exact (hexpanding _ List.mem_append_cons_self).later hw
  · refine keeps_get fun σ hσ => ?_
    obtain ⟨-, hregistry, -⟩ := hσ
    split
    · next t ht =>
        refine keeps_pure ?_
        rintro u ⟨⟩
        exact hregistry.memo _ (Table.mem_of_get? ht)
    · split
      · exact keeps_pure (by rintro t ⟨⟩)
      · exact keeps_pure hkept
      · next definition b hdefinition =>
          split
          · exact keeps_pure hkept
          · next expanded hexpanded =>
              have hdefines := hregistry.lookup? hdefinition
              have hok := hdefines.expand? hargs hexpanded
              -- The binder joins the pending expansions, where a reference below may find it.
              refine (keeps_freshVar 0).bind fun binder w₁ hw₁ hbinder => ?_
              have hrefs : D.KeepsRefs w₁
                  (b (((Ty.named name args).digest, binder) :: expanding)) :=
                hbelow b rfl (List.forall_mem_cons.2 ⟨hbinder, fun entry hentry =>
                  (hexpanding entry hentry).later (hw.trans hw₁)⟩)
              refine ((keeps_normalizeWith hrefs (D.refl _) (hok.later hw₁)).and
                (Q := fun u => D.headed → u.Overt) fun σ hheaded => overt_normalizeWith
                  (Definition.overt_of_expand? (hdefines.overt hheaded) hexpanded) σ).bind
                fun body w₂ hw₂ ⟨hbody, hovert⟩ => ?_
              rw [← bind_pure_comp]
              refine (keeps_closeExpansion expanding _ (hbinder.later hw₂) hbody hovert).bind
                fun t _ _ ht => keeps_pure ?_
              rintro u ⟨⟩
              exact ht

theorem keepsRefs_normalizeRef : ∀ (allowed : Nat) {expanding : Expanding} {w : D.Stage},
    (∀ entry ∈ expanding, D.Ok w (.var entry.2)) →
    D.KeepsRefs w (normalizeRef allowed expanding)
  | 0, _, _, hexpanding => by
      rw [normalizeRef]
      exact keepsRefs_step (by rintro b ⟨⟩) hexpanding
  | allowed + 1, _, _, hexpanding => by
      rw [normalizeRef]
      refine keepsRefs_step ?_ hexpanding
      rintro b ⟨⟩ expanding w hexpanding
      exact keepsRefs_normalizeRef allowed hexpanding

/-- Normalising keeps the discipline. -/
theorem keeps_normalize {t : Ty} (ht : D.Ok w t) : D.Keeps w D.Ok (normalize t) :=
  keeps_normalizeWith (keepsRefs_normalizeRef expansionLimit (by simp)) (D.refl w) ht

end NormalForms

/-! ## Constraints -/

/-- The types of a constraint are in order. -/
def Asks (D : Discipline) (w : D.Stage) (c : Constraint) : Prop := ∀ t ∈ c.types, D.Ok w t

variable {c : Constraint} {s : Subst}

theorem Asks.later (h : D.Asks w c) (hw : D.Before w w') : D.Asks w' c :=
  fun t ht => (h t ht).later hw

theorem Asks.apply (hc : D.Asks w c) (hs : D.Sends w s) : D.Asks w (c.apply s) := by
  unfold Asks
  rw [Constraint.types_apply]
  exact List.forall_mem_map.2 fun t ht => hs.apply (hc t ht)

theorem asks_foldl_apply {found : List Subst} (hfound : ∀ next ∈ found, D.Sends w next)
    (hc : D.Asks w c) : D.Asks w (found.foldl (fun c next => c.apply next) c) :=
  Constraint.forall_types_foldl_apply (fun next hnext _ => (hfound next hnext).apply) hc

/-! ## Solving -/

section Solving

open Session

/-- Relating types in a session keeps the discipline as relating them does. -/
theorem keepsOk_relating {α : Type} {made : D.Stage → α → Prop} {span : Span}
    {m : Context → Relate α}
    (h : ∀ ctx : Context, D.Registers w ctx.registry → D.KeepsOk w made (m ctx)) :
    D.KeepsOk w made (relating span m) := by
  refine keepsOk_of_ends ?_
  rintro σ ⟨hcount, hregistry, hending⟩
  have hends := (h { registry := σ.registry, span } hregistry).ends
    (show Holding.At w ({ supply := σ.supply } : Progress) from ⟨hcount, fun _ => trivial⟩)
  refine ends_relating (hends.imp ?_ ?_)
  · rintro a q ⟨w', hw', ⟨hq, hfound⟩, ha⟩
    exact ⟨w', hw', ⟨hq, hregistry.later hw', D.ending hending hfound⟩, ha⟩
  · rintro e q ⟨w', hw', hq, hfound⟩
    exact ⟨w', hw', hq, hregistry.later hw', D.ending hending hfound⟩

theorem keepsOk_checkClass (limit : Nat) (span : Span) (t : Ty) (cls : String) :
    D.KeepsOk w (fun _ _ => True) (checkClass limit span t cls) := by
  unfold checkClass
  split
  · exact keepsOk_pure trivial
  · split
    · exact keepsOk_throw
    · refine keepsOk_get fun _ _ => ?_
      split
      · exact keepsOk_throw
      · exact keepsOk_pure trivial

theorem keepsOk_checkExhaustive (span : Span) {t : Ty} (patterns : List Pattern)
    (ht : D.Ok w t) : D.KeepsOk w (fun _ _ => True) (checkExhaustive span t patterns) := by
  unfold checkExhaustive
  refine (keeps_normalize ht).lift.bind fun t' _ _ _ => ?_
  split
  · split
    · exact keepsOk_pure trivial
    · exact keepsOk_pure trivial
    · exact keepsOk_throw
  · exact keepsOk_pure trivial

/-- Meeting a constraint keeps the discipline. -/
theorem keepsOk_discharge (limit : Nat) (hc : D.Asks w c) :
    D.KeepsOk w D.Sends (discharge limit c) := by
  obtain ⟨d, origin, span⟩ := c
  have hc' : ∀ t ∈ d.types, D.Ok w t := hc
  unfold discharge
  split
  · exact keepsOk_pure sends_empty
  · cases d with
    | equal a b =>
        exact keepsOk_relating fun ctx hctx => keepsRel_unify hctx limit (D.refl w)
          (hc' a (by simp [Demand.types])) (hc' b (by simp [Demand.types]))
    | subtype a b =>
        exact keepsOk_relating fun ctx hctx => keepsRel_subtype hctx limit (D.refl w)
          (hc' a (by simp [Demand.types])) (hc' b (by simp [Demand.types]))
    | ofClass t cls =>
        exact (keepsOk_checkClass limit span t cls).bind fun _ _ _ _ => keepsOk_pure sends_empty
    | recordShape t =>
        exact keepsOk_relating fun ctx hctx => keepsOk_recordShape hctx
          (hc' t (by simp [Demand.types]))
    | merge result spreads explicit =>
        exact keepsOk_relating fun ctx hctx => keepsOk_merge hctx (keepsRel_unify hctx limit)
          (hc' result (by simp [Demand.types])) (fun t ht => hc' t (by simp [Demand.types, ht]))
          (hc' explicit.toTy (by simp [Demand.types]))
    | holds t ts =>
        exact keepsOk_relating fun ctx hctx => keepsOk_holds hctx limit
          (hc' t (by simp [Demand.types])) fun u hu => hc' u (by simp [Demand.types, hu])
    | branch t ts =>
        exact keepsOk_relating fun ctx hctx => keepsOk_branch hctx limit
          (hc' t (by simp [Demand.types])) fun u hu => hc' u (by simp [Demand.types, hu])
    | exhaustive t ps =>
        exact (keepsOk_checkExhaustive span ps (hc' t (by simp [Demand.types]))).bind
          fun _ _ _ _ => keepsOk_pure sends_empty

/-- Meeting constraints in order keeps the discipline. -/
theorem keeps_solveInOrder (limit : Nat) : ∀ {cs : List Constraint} {found : List Subst}
    {s : Subst} {w : D.Stage}, (∀ c ∈ cs, D.Asks w c) → (∀ next ∈ found, D.Sends w next) →
    D.Sends w s → D.Keeps w (fun w' solution => D.Sends w' solution.subst)
      (solveInOrder limit cs found s)
  | [], _, _, _, _, _, hs => keeps_pure hs
  | c :: cs, found, s, w, hcs, hfound, hs => by
      have hc := (asks_foldl_apply hfound (hcs c List.mem_cons_self)).apply hs
      rw [solveInOrder]
      refine Keeps.bind (keepsOk_discharge limit hc) fun r w' hw' hr => ?_
      have hcs' := fun c hc => (hcs c (List.mem_cons_of_mem _ hc)).later hw'
      have hfound' := fun next hnext => (hfound next hnext).later hw'
      cases r with
      | error e => exact keeps_pure (hs.later hw')
      | ok next =>
          have hnext := hr next rfl
          dsimp only
          split
          · exact keeps_solveInOrder limit hcs' hfound' (hs.later hw')
          · refine keeps_solveInOrder limit hcs' (fun u hu => ?_) (hnext.after (hs.later hw'))
            rcases List.mem_append.1 hu with hu | hu
            · exact hfound' u hu
            · rw [List.mem_singleton.1 hu]
              exact hnext

/-- Solving a set of constraints keeps the discipline, whether it succeeds or not. -/
theorem keeps_solve (limit : Nat) {cs : ConstraintSet} (hcs : ∀ c ∈ cs.items, D.Asks w c) :
    D.Keeps w (fun w' solution => D.Sends w' solution.subst) (solve limit cs) :=
  keeps_solveInOrder limit
    (fun c hc => hcs c (ConstraintSet.mem_sorted_simplify.1 hc).1) (by simp) sends_empty

end Solving

end Discipline

end RowTypes
