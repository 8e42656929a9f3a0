import RowTypes.Proofs.Provenance
import RowTypes.Proofs.Solving

/-!
# What solutions are made of

Solving a set of constraints is traced as a whole: what it finds is made of the numbers of the
constraints, of those of the named types, and of those it makes.  Normal forms are remembered in
the session, so a normal form that is looked up is made of numbers that were known when it was put
there.
-/

namespace RowTypes

variable {P : Int → Prop} {n : Nat}

theorem Known.flatten {c m : Nat} (hn : n ≤ c) (hm : c ≤ m) {id : Int}
    (h : Known (Known P n c) c m id) : Known P n m id := by
  rcases h with (h | ⟨hlt, hle⟩) | ⟨hlt, hle⟩
  · exact .inl h
  · exact .inr ⟨hlt, by omega⟩
  · exact .inr ⟨by omega, hle⟩

theorem Registry.Over.later {m m' : Nat} {r : Registry} (h : r.Over (Known P n m))
    (hm : m ≤ m') : r.Over (Known P n m') := h.mono (Known.mono hm)

/-! ## Normal forms -/

namespace Registry

variable {σ τ : Session}

/-- What becomes of references is traced. -/
def TracedRefs (P : Int → Prop) (n : Nat) (onRef : String → List Ty → StateM Session (Option Ty))
    (m : Nat) : Prop :=
  ∀ {name : String} {args : List Ty} {σ : Session}, m ≤ σ.supply.count →
    (∀ t ∈ args, t.Over (Known P n σ.supply.count)) →
    Traced P n (fun Q o => ∀ t, o = some t → Ty.Over Q t) (onRef name args) σ

variable {onRef : String → List Ty → StateM Session (Option Ty)} {m : Nat}

mutual

theorem traced_normalizeWith (hrefs : TracedRefs P n onRef m) : ∀ {t : Ty} {σ : Session},
    m ≤ σ.supply.count → t.Over (Known P n σ.supply.count) →
    Traced P n Ty.Over (normalizeWith onRef t) σ
  | .var _, σ, _, ht | .prim _, σ, _, ht | .lit _, σ, _, ht => by
      rw [normalizeWith]
      exact traced_pure ht
  | .fn p r, σ, hm, ht => by
      obtain ⟨hp, hr⟩ := Ty.over_fn.1 ht
      rw [normalizeWith]
      refine (traced_normalizeWith hrefs hm hp).bind fun p' τ hτ hp' => ?_
      refine (traced_normalizeWith hrefs (Nat.le_trans hm hτ) (hr.later hτ)).bind
        fun r' υ hυ hr' => ?_
      exact traced_pure (Ty.over_fn.2 ⟨hp'.later hυ, hr'⟩)
  | .record fs row, σ, hm, ht => by
      obtain ⟨hfs, hrow⟩ := Ty.over_record.1 ht
      rw [normalizeWith]
      refine (traced_normalizeFields hrefs hm hfs).bind fun fs' τ hτ hfs' => ?_
      exact traced_pure (Ty.over_record.2 ⟨hfs', fun v hv => Known.mono hτ _ (hrow v hv)⟩)
  | .tuple ts, σ, hm, ht => by
      rw [normalizeWith]
      exact (traced_normalizeAll hrefs hm (Ty.over_tuple.1 ht)).bind fun _ _ _ hts =>
        traced_pure (Ty.over_tuple.2 hts)
  | .union ts, σ, hm, ht => by
      rw [normalizeWith]
      exact (traced_normalizeAll hrefs hm (Ty.over_union.1 ht)).bind fun _ _ _ hts =>
        traced_pure (Ty.over_unionOf hts)
  | .inter ts, σ, hm, ht => by
      rw [normalizeWith]
      exact (traced_normalizeAll hrefs hm (Ty.over_inter.1 ht)).bind fun _ _ _ hts =>
        traced_pure (Ty.over_interOf hts)
  | .named name args, σ, hm, ht => by
      have hargs := Ty.over_named.1 ht
      rw [normalizeWith]
      refine (hrefs hm hargs).bind fun o τ hτ ho => ?_
      cases o with
      | some t => exact traced_pure (ho t rfl)
      | none =>
          exact (traced_normalizeAll hrefs (Nat.le_trans hm hτ)
            fun t ht => (hargs t ht).later hτ).bind fun _ _ _ hts =>
              traced_pure (Ty.over_named.2 hts)
  | .mu v t, σ, hm, ht => by
      obtain ⟨hv, ht⟩ := Ty.over_mu.1 ht
      rw [normalizeWith]
      exact (traced_normalizeWith hrefs hm ht).bind fun _ _ hτ ht' =>
        traced_pure (Ty.over_mu.2 ⟨Known.mono hτ _ hv, ht'⟩)

theorem traced_normalizeAll (hrefs : TracedRefs P n onRef m) : ∀ {ts : List Ty} {σ : Session},
    m ≤ σ.supply.count → (∀ t ∈ ts, t.Over (Known P n σ.supply.count)) →
    Traced P n (fun Q ts => ∀ t ∈ ts, Ty.Over Q t) (normalizeAll onRef ts) σ
  | [], σ, _, _ => by
      rw [normalizeAll]
      exact traced_pure (by simp)
  | t :: ts, σ, hm, hts => by
      rw [normalizeAll]
      refine (traced_normalizeWith hrefs hm (hts t List.mem_cons_self)).bind
        fun t' τ hτ ht' => ?_
      refine (traced_normalizeAll hrefs (Nat.le_trans hm hτ)
        fun u hu => (hts u (List.mem_cons_of_mem _ hu)).later hτ).bind fun ts' υ hυ hts' => ?_
      exact traced_pure (List.forall_mem_cons.2 ⟨ht'.later hυ, hts'⟩)

theorem traced_normalizeFields (hrefs : TracedRefs P n onRef m) :
    ∀ {fs : List (String × Ty)} {σ : Session}, m ≤ σ.supply.count →
      (∀ f ∈ fs, f.2.Over (Known P n σ.supply.count)) →
      Traced P n (fun Q (fs : List (String × Ty)) => ∀ f ∈ fs, Ty.Over Q f.2)
        (normalizeFields onRef fs) σ
  | [], σ, _, _ => by
      rw [normalizeFields]
      exact traced_pure (by simp)
  | (name, t) :: fs, σ, hm, hfs => by
      rw [normalizeFields]
      refine (traced_normalizeWith hrefs hm (hfs _ List.mem_cons_self)).bind
        fun t' τ hτ ht' => ?_
      refine (traced_normalizeFields hrefs (Nat.le_trans hm hτ)
        fun f hf => (hfs f (List.mem_cons_of_mem _ hf)).later hτ).bind fun fs' υ hυ hfs' => ?_
      exact traced_pure (List.forall_mem_cons.2 ⟨ht'.later hυ, hfs'⟩)

end

theorem traced_freshVar (level : Int) : Traced P n (fun Q v => Q v.id) (freshVar level) σ := by
  intro hn hσ
  have hcount : n ≤ σ.supply.count := hn
  refine ⟨Nat.le_succ _, Over.later hσ (Nat.le_succ _), .inr ⟨?_, Int.le_refl _⟩⟩
  show (n : Int) < (σ.supply.count : Int) + 1
  omega

theorem traced_remember (key : Digest) {t : Ty} (ht : t.Over (Known P n σ.supply.count)) :
    Traced P n (fun _ _ => True) (remember key t) σ := by
  intro _ hσ
  have hregistry : σ.registry.Over (Known P n σ.supply.count) := hσ
  refine ⟨Nat.le_refl _, ⟨hregistry.definitions, fun entry hentry => ?_⟩, trivial⟩
  rcases Table.mem_insert hentry with rfl | hentry
  · exact ht
  · exact hregistry.memo entry hentry

theorem traced_closeExpansion (expanding : Expanding) (key : Digest) {binder : TyVar} {body : Ty}
    (hbinder : Known P n σ.supply.count binder.id) (hbody : body.Over (Known P n σ.supply.count)) :
    Traced P n Ty.Over (closeExpansion expanding key binder body) σ := by
  have hresult : (if body.occurs binder then Ty.mu binder body else body).Over
      (Known P n σ.supply.count) := by
    split
    · exact Ty.over_mu.2 ⟨hbinder, hbody⟩
    · exact hbody
  unfold closeExpansion
  dsimp only
  generalize (if body.occurs binder then Ty.mu binder body else body) = result at hresult ⊢
  split
  · exact (traced_remember key hresult).bind fun _ _ hτ _ => traced_pure (hresult.later hτ)
  · exact traced_pure hresult

/-- A step that looks at the session goes on with what is known about it. -/
theorem traced_get {β : Type} {made : (Int → Prop) → β → Prop} {f : Session → StateM Session β}
    (h : σ.registry.Over (Known P n σ.supply.count) → Traced P n made (f σ) σ) :
    Traced P n made (get >>= f) σ := fun hn hσ => h hσ hn hσ

/-- What becomes of references is traced, whatever expansions are going on. -/
def TracedBelow (P : Int → Prop) (n : Nat)
    (below : Expanding → String → List Ty → StateM Session (Option Ty)) : Prop :=
  ∀ {expanding : Expanding} {m : Nat}, (∀ entry ∈ expanding, Known P n m entry.2.id) →
    TracedRefs P n (below expanding) m

theorem tracedBelow_step
    {below : Option (Expanding → String → List Ty → StateM Session (Option Ty))}
    (hbelow : ∀ b, below = some b → TracedBelow P n b) :
    TracedBelow P n (normalizeRefStep below) := by
  intro expanding m hexpanding name args σ hm hargs
  have hkept : ∀ t, some (Ty.named name args) = some t →
      t.Over (Known P n σ.supply.count) := by
    rintro t ⟨⟩
    exact Ty.over_named.2 hargs
  unfold normalizeRefStep
  dsimp only
  split
  · next binder hbinder =>
      refine traced_pure ?_
      rintro t ⟨⟩
      obtain ⟨before, later, rfl, -⟩ := List.lookup_eq_some_iff.1 hbinder
      exact Ty.over_var.2 (Known.mono hm _ (hexpanding _ List.mem_append_cons_self))
  · refine traced_get fun hregistry => ?_
    split
    · next t ht =>
        refine traced_pure ?_
        rintro u ⟨⟩
        exact hregistry.memo _ (Table.mem_of_get? ht)
    · split
      · exact traced_pure (by rintro t ⟨⟩)
      · exact traced_pure hkept
      · next definition b hdefinition =>
          split
          · exact traced_pure hkept
          · next expanded hexpanded =>
              have hover := Definition.over_expand? (hregistry.lookup? hdefinition) hargs hexpanded
              -- The binder joins the pending expansions, where a reference below may find it.
              refine (traced_freshVar 0).bind fun binder τ hτ hbinder => ?_
              have hrefs : TracedRefs P n (b (((Ty.named name args).digest, binder) :: expanding))
                  τ.supply.count := by
                refine hbelow b rfl (List.forall_mem_cons.2 ⟨hbinder, fun entry hentry => ?_⟩)
                exact Known.mono (Nat.le_trans hm hτ) _ (hexpanding entry hentry)
              refine (traced_normalizeWith hrefs (Nat.le_refl _) (hover.later hτ)).bind
                fun body υ hυ hbody => ?_
              rw [← bind_pure_comp]
              refine (traced_closeExpansion expanding _ (Known.mono hυ _ hbinder) hbody).bind
                fun t _ _ ht => traced_pure ?_
              rintro u ⟨⟩
              exact ht

theorem tracedBelow_normalizeRef : ∀ allowed : Nat, TracedBelow P n (normalizeRef allowed)
  | 0 => by
      rw [normalizeRef]
      exact tracedBelow_step (by rintro b ⟨⟩)
  | allowed + 1 => by
      rw [normalizeRef]
      refine tracedBelow_step ?_
      rintro b ⟨⟩
      exact tracedBelow_normalizeRef allowed

/-- Normalising is traced. -/
theorem traced_normalize {t : Ty} (ht : t.Over (Known P n σ.supply.count)) :
    Traced P n Ty.Over (normalize t) σ :=
  traced_normalizeWith (tracedBelow_normalizeRef expansionLimit (m := 0) (by simp))
    (Nat.zero_le _) ht

end Registry

/-! ## Constraints -/

namespace Constraint

/-- The numbers that occur in the types of a constraint satisfy a predicate. -/
def Over (P : Int → Prop) (c : Constraint) : Prop := ∀ t ∈ c.types, t.Over P

variable {Q : Int → Prop} {c : Constraint} {s : Subst}

theorem Over.later {m m' : Nat} (h : c.Over (Known P n m)) (hm : m ≤ m') : c.Over (Known P n m') :=
  fun t ht => (h t ht).later hm

theorem Over.apply (hc : c.Over Q) (hs : s.Over Q) : (c.apply s).Over Q := by
  unfold Over
  rw [types_apply]
  exact List.forall_mem_map.2 fun t ht => hs.apply (hc t ht)

end Constraint

namespace Session

variable {σ : Session}

/-- Relating types in a session is traced as relating them is. -/
theorem tracedOk_relating {span : Span} {m : Context → Relate Subst}
    (h : ∀ ctx, ctx.registry.Over (Known P n σ.supply.count) →
      TracedOk (Known P n σ.supply.count) σ.supply.count Subst.Over (m ctx)
        { supply := σ.supply }) : TracedOk P n Subst.Over (relating span m) σ := by
  refine tracedOk_of_ends fun hn hσ => ?_
  have hends := (h { registry := σ.registry, span } hσ).ends (Nat.le_refl _) trivial
  refine ends_relating (hends.imp ?_ ?_)
  · rintro s q ⟨hcount, -, hs⟩
    exact ⟨hcount, Registry.Over.later hσ hcount, hs.mono fun _ => Known.flatten hn hcount⟩
  · exact fun _ q hq => ⟨hq.1, Registry.Over.later hσ hq.1⟩

theorem tracedOk_get {β : Type} {made : (Int → Prop) → β → Prop} {f : Session → SessionM β}
    (h : TracedOk P n made (f σ) σ) : TracedOk P n made (get >>= f) σ := fun hn hσ => h hn hσ

theorem tracedOk_checkClass (limit : Nat) (span : Span) (t : Ty) (cls : String) :
    TracedOk P n (fun _ _ => True) (checkClass limit span t cls) σ := by
  unfold checkClass
  split
  · exact tracedOk_pure trivial
  · split
    · exact tracedOk_throw
    · refine tracedOk_get ?_
      split
      · exact tracedOk_throw
      · exact tracedOk_pure trivial

theorem tracedOk_checkExhaustive (span : Span) {t : Ty} (patterns : List Pattern)
    (ht : t.Over (Known P n σ.supply.count)) :
    TracedOk P n (fun _ _ => True) (checkExhaustive span t patterns) σ := by
  unfold checkExhaustive
  refine (Registry.traced_normalize ht).lift.bind fun t' τ _ _ => ?_
  split
  · split
    · exact tracedOk_pure trivial
    · exact tracedOk_pure trivial
    · exact tracedOk_throw
  · exact tracedOk_pure trivial

/-- Meeting a constraint is traced. -/
theorem tracedOk_discharge (limit : Nat) {c : Constraint}
    (hc : c.Over (Known P n σ.supply.count)) :
    TracedOk P n Subst.Over (discharge limit c) σ := by
  obtain ⟨d, origin, span⟩ := c
  have hc' : ∀ t ∈ d.types, t.Over (Known (Known P n σ.supply.count) σ.supply.count
      σ.supply.count) := fun t ht => (hc t ht).mono fun _ => .inl
  unfold discharge
  split
  · exact tracedOk_pure Subst.over_empty
  · cases d with
    | equal a b =>
        exact tracedOk_relating fun ctx hctx => Relate.tracedRel_unify hctx limit
          (hc' a (by simp [Demand.types])) (hc' b (by simp [Demand.types]))
    | subtype a b =>
        exact tracedOk_relating fun ctx hctx => Relate.tracedRel_subtype hctx limit
          (hc' a (by simp [Demand.types])) (hc' b (by simp [Demand.types]))
    | ofClass t cls =>
        exact (tracedOk_checkClass limit span t cls).bind fun _ _ _ _ =>
          tracedOk_pure Subst.over_empty
    | recordShape t =>
        exact tracedOk_relating fun ctx hctx => Relate.tracedOk_recordShape hctx
          (hc' t (by simp [Demand.types]))
    | merge result spreads explicit =>
        exact tracedOk_relating fun ctx hctx => Relate.tracedOk_merge hctx
          (Relate.tracedRel_unify hctx limit) (hc' result (by simp [Demand.types]))
          (fun t ht => hc' t (by simp [Demand.types, ht]))
          (hc' explicit.toTy (by simp [Demand.types]))
    | holds t ts =>
        exact tracedOk_relating fun ctx hctx => Relate.tracedOk_holds hctx limit
          (hc' t (by simp [Demand.types])) fun u hu => hc' u (by simp [Demand.types, hu])
    | branch t ts =>
        exact tracedOk_relating fun ctx hctx => Relate.tracedOk_branch hctx limit
          (hc' t (by simp [Demand.types])) fun u hu => hc' u (by simp [Demand.types, hu])
    | exhaustive t ps =>
        exact (tracedOk_checkExhaustive span ps (hc t (by simp [Constraint.types,
          Demand.types]))).bind fun _ _ _ _ => tracedOk_pure Subst.over_empty

theorem over_foldl_apply {Q : Int → Prop} {found : List Subst} {c : Constraint}
    (hfound : ∀ next ∈ found, next.Over Q) (hc : c.Over Q) :
    (found.foldl (fun c next => c.apply next) c).Over Q :=
  Constraint.forall_types_foldl_apply (fun next hnext _ => (hfound next hnext).apply) hc

/-- Meeting constraints in order is traced. -/
theorem traced_solveInOrder (limit : Nat) : ∀ {cs : List Constraint} {found : List Subst}
    {s : Subst} {σ : Session}, (∀ c ∈ cs, c.Over (Known P n σ.supply.count)) →
    (∀ next ∈ found, next.Over (Known P n σ.supply.count)) → s.Over (Known P n σ.supply.count) →
    Traced P n (fun Q solution => solution.subst.Over Q) (solveInOrder limit cs found s) σ
  | [], _, _, _, _, _, hs => traced_pure hs
  | c :: cs, found, s, σ, hcs, hfound, hs => by
      have hc := (over_foldl_apply hfound (hcs c List.mem_cons_self)).apply hs
      rw [solveInOrder]
      refine Traced.bind (tracedOk_discharge limit hc) fun r τ hτ hr => ?_
      have hcs' := fun c hc => (hcs c (List.mem_cons_of_mem _ hc)).later hτ
      have hfound' := fun next hnext => (hfound next hnext).later hτ
      cases r with
      | error e => exact traced_pure (hs.later hτ)
      | ok next =>
          have hnext := hr next rfl
          dsimp only
          split
          · exact traced_solveInOrder limit hcs' hfound' (hs.later hτ)
          · refine traced_solveInOrder limit hcs' (fun u hu => ?_) (hnext.after (hs.later hτ))
            rcases List.mem_append.1 hu with hu | hu
            · exact hfound' u hu
            · rw [List.mem_singleton.1 hu]
              exact hnext

/-- Solving a set of constraints is traced. -/
theorem traced_solve (limit : Nat) {cs : ConstraintSet}
    (hcs : ∀ c ∈ cs.items, c.Over (Known P n σ.supply.count)) :
    Traced P n (fun Q solution => solution.subst.Over Q) (solve limit cs) σ :=
  traced_solveInOrder limit
    (fun c hc => hcs c (ConstraintSet.mem_sorted_simplify.1 hc).1) (by simp) Subst.over_empty

end Session

end RowTypes
