import RowTypes.Proofs.DisciplinedSolving
import RowTypes.Proofs.HeadExpansion
import RowTypes.Proofs.NormalForms
import RowTypes.Proofs.Schemes

/-!
# Annotations and schemes keep a discipline

The types that programs start from keep a discipline: those that annotations resolve to, the
definitions of named types, the instances of schemes, and the types that a match gives to names.
Resolving makes a row where a record is open and unknowns for types elsewhere; an instance of a
scheme gets, for each quantified number, an unknown of the kind that the number has.
-/

namespace RowTypes

namespace Discipline

variable {D : Discipline} {w w' : D.Stage} {α : Type} {made : D.Stage → α → Prop}

/-! ## Annotations -/

section Resolving

open Resolve

/-- Resolving keeps the unknowns of type variables. -/
instance : D.Holding Resolving :=
  ⟨fun w s => D.count w = s.supply.count ∧ ∀ entry ∈ s.vars, D.Ok w (.var entry.2)⟩

theorem keepsOk_resolveVar (level : Int) :
    D.KeepsOk w (fun w' v => D.Ok w' (.var v)) (Resolve.fresh level) := by
  rintro s ⟨hcount, hvars⟩
  obtain ⟨w', hw', hcount', hv⟩ := D.exists_var w level
  rw [hcount] at hcount' hv
  refine ⟨w', hw', ⟨hcount', fun entry hentry => (hvars entry hentry).later hw'⟩, ?_⟩
  rintro v ⟨⟩
  exact hv

theorem keepsOk_resolveRow (level : Int) :
    D.KeepsOk w (fun w' v => D.Row w' v.id) (Resolve.fresh level) := by
  rintro s ⟨hcount, hvars⟩
  obtain ⟨w', hw', hcount', hv⟩ := D.exists_row w
  rw [hcount] at hcount' hv
  refine ⟨w', hw', ⟨hcount', fun entry hentry => (hvars entry hentry).later hw'⟩, ?_⟩
  rintro v ⟨⟩
  exact hv

theorem keepsOk_enter {name : String} {v : TyVar} (hv : D.Ok w (.var v)) :
    D.KeepsOk w (fun _ _ => True)
      (modify fun s : Resolving => { s with vars := Table.insert name v s.vars } :
        Resolve PUnit) := by
  rintro s ⟨hcount, hvars⟩
  refine ⟨w, D.refl w, ⟨hcount, fun entry hentry => ?_⟩, fun _ _ => trivial⟩
  rcases Table.mem_insert hentry with rfl | hentry
  · exact hv
  · exact hvars entry hentry

theorem keepsOk_typeVar (rules : ScopeRules) (span : Span) (name : String) :
    D.KeepsOk w D.Ok (typeVar rules span name) := by
  unfold typeVar
  refine keepsOk_get fun s hs => ?_
  split
  · next v hv => exact keepsOk_pure (hs.2 _ (Table.mem_of_get? hv))
  · split
    · exact keepsOk_throw
    · refine (keepsOk_resolveVar _).bind fun v w' hw' hv => ?_
      exact (keepsOk_enter hv).bind fun _ _ hw'' _ => keepsOk_pure (hv.later hw'')

theorem keepsOk_reference {r : Registry} {rules : ScopeRules} {e : TyExpr} {name : String}
    {args : List Ty} (hargs : ∀ t ∈ args, D.Ok w t) :
    D.KeepsOk w D.Ok (reference r rules e name args) := by
  unfold reference
  split
  · split
    · exact keepsOk_pure (D.named.2 hargs)
    · exact keepsOk_throw
  · split
    · exact keepsOk_throw
    · exact keepsOk_pure (D.named.2 hargs)

variable {r : Registry} {rules : ScopeRules}

mutual

/-- Resolving an annotation keeps the discipline. -/
theorem keepsOk_resolve : ∀ {e : TyExpr} {w : D.Stage}, D.KeepsOk w D.Ok (resolve r rules e)
  | .missing, w => by
      rw [resolve]
      exact keepsOk_throw
  | .name span name args, w => by
      rw [resolve]
      split
      · next t ht =>
          have hprim : D.Ok w t := by
            unfold Ty.primitive? at ht
            split at ht
            · cases ht
              exact D.prim w name
            · cases ht
          split
          · exact keepsOk_pure hprim
          · exact keepsOk_throw
      · exact keepsOk_resolveAll.bind fun _ _ _ hts => keepsOk_reference hts
  | .ref span name, w => by
      rw [resolve]
      exact keepsOk_typeVar rules span name
  | .fn _ p q, w => by
      rw [resolve]
      refine keepsOk_resolve.bind fun p' w' _ hp => ?_
      exact keepsOk_resolve.bind fun q' w'' hw'' hq => keepsOk_pure (D.fn.2 ⟨hp.later hw'', hq⟩)
  | .record span fields isOpen, w => by
      rw [resolve]
      refine (keepsOk_resolveFields (by simp)).bind fun ts w' _ hts => ?_
      split
      · rw [← bind_pure_comp, bind_assoc]
        refine (keepsOk_resolveRow _).bind fun v w'' hw'' hv => keepsOk_pure ?_
        refine D.record.2 ⟨fun f hf => (hts f hf).later hw'', ?_⟩
        rintro x ⟨⟩
        exact hv
      · exact keepsOk_pure (D.record.2 ⟨hts, by rintro v ⟨⟩⟩)
  | .tuple _ es, w => by
      rw [resolve]
      exact keepsOk_resolveAll.bind fun _ _ _ hts => keepsOk_pure (D.tuple.2 hts)
  | .union span es, w => by
      rw [resolve]
      refine keepsOk_resolveAll.bind fun ts w' _ hts => ?_
      split
      · next t ht => exact keepsOk_pure (ok_unionOf? hts ht)
      · exact keepsOk_throw
  | .inter span es, w => by
      rw [resolve]
      refine keepsOk_resolveAll.bind fun ts w' _ hts => ?_
      split
      · next t ht => exact keepsOk_pure (ok_interOf? hts ht)
      · exact keepsOk_throw
  | .lit _ value, w => by
      rw [resolve]
      exact keepsOk_pure (D.lit w value)

theorem keepsOk_resolveAll : ∀ {es : List TyExpr} {w : D.Stage},
    D.KeepsOk w (fun w' ts => ∀ t ∈ ts, D.Ok w' t) (resolveAll r rules es)
  | [], w => by
      rw [resolveAll]
      exact keepsOk_pure (by simp)
  | e :: es, w => by
      rw [resolveAll]
      refine keepsOk_resolve.bind fun t w' _ ht => ?_
      exact keepsOk_resolveAll.bind fun ts w'' hw'' hts =>
        keepsOk_pure (List.forall_mem_cons.2 ⟨ht.later hw'', hts⟩)

theorem keepsOk_resolveFields {whole : TyExpr} : ∀ {fs : List (String × TyExpr)}
    {done : List (String × Ty)} {w : D.Stage}, (∀ f ∈ done, D.Ok w f.2) →
    D.KeepsOk w (fun w' (ts : List (String × Ty)) => ∀ f ∈ ts, D.Ok w' f.2)
      (resolveFields r rules whole done fs)
  | [], done, w, hdone => by
      rw [resolveFields]
      exact keepsOk_pure hdone
  | (name, e) :: fs, done, w, hdone => by
      rw [resolveFields]
      dsimp only
      split
      · exact keepsOk_throw
      · refine keepsOk_resolve.bind fun t w' hw' ht => ?_
        exact keepsOk_resolveFields (ok_insert (fun f hf => (hdone f hf).later hw') ht)

end

theorem keepsOk_declareParams {span : Span} : ∀ {names : List String} {w : D.Stage},
    D.KeepsOk w (fun w' vs => ∀ v ∈ vs, D.Ok w' (.var v)) (declareParams span names)
  | [], w => keepsOk_pure (by simp)
  | name :: names, w => by
      rw [declareParams]
      refine keepsOk_get fun s hs => ?_
      split
      · exact keepsOk_throw
      · refine (keepsOk_resolveVar _).bind fun v w' hw' hv => ?_
        refine (keepsOk_enter hv).bind fun _ w'' hw'' _ => ?_
        exact keepsOk_declareParams.bind fun vs _ hw₃ hvs =>
          keepsOk_pure (List.forall_mem_cons.2 ⟨hv.later (hw''.trans hw₃), hvs⟩)

theorem keepsOk_definition {d : TypeDecl} (hd : D.headed → d.body.isOvert = true) :
    D.KeepsOk w D.Defines (definition r d) := by
  unfold definition
  refine keepsOk_declareParams.bind fun params w' hw' hparams => ?_
  refine (keepsOk_resolve.and (Q := fun t => D.headed → t.Overt) fun s => ?_).bind
    fun body w'' hw'' hbody => keepsOk_pure
      ⟨fun v hv => D.plain_of_var ((hparams v hv).later hw''), hbody.1, hbody.2⟩
  by_cases hheaded : D.headed
  · exact (ends_resolve_overt (hd hheaded)).imp (fun _ _ h _ => h) fun _ _ _ => trivial
  · exact (ends_trivial _ s).imp (fun _ _ _ h => absurd h hheaded) fun _ _ _ => trivial

end Resolving

section Declaring

open Session

/-- Resolving in a session keeps the discipline as resolving does. -/
theorem keepsOk_resolving {vars : Table String TyVar} {m : Resolve α}
    (hvars : ∀ entry ∈ vars, D.Ok w (.var entry.2)) (h : D.KeepsOk w made m) :
    D.KeepsOk w (fun w' out => made w' out.1 ∧ ∀ entry ∈ out.2, D.Ok w' (.var entry.2))
      (resolving vars m) := by
  refine keepsOk_of_ends ?_
  rintro σ ⟨hcount, hregistry, hending⟩
  refine ends_resolving ((h.ends ⟨hcount, hvars⟩).imp ?_ ?_)
  · rintro a made ⟨w', hw', ⟨hcount', hvars'⟩, ha⟩
    exact ⟨w', hw', ⟨hcount', hregistry.later hw', hending⟩, ha, hvars'⟩
  · rintro e made ⟨w', hw', hcount', -⟩
    exact ⟨w', hw', hcount', hregistry.later hw', hending⟩

theorem keepsOk_define {d : Definition} (hd : D.Defines w d) :
    D.KeepsOk w (fun _ _ => True) (define d) := by
  unfold Session.define
  refine keepsOk_get ?_
  rintro σ ⟨hcount, hregistry, -⟩
  split
  · next registry hdefined =>
      obtain ⟨-, -, rfl⟩ := Registry.define_eq_ok hdefined
      rintro τ ⟨hcount', -, hending⟩
      refine ⟨w, D.refl w, ⟨hcount', ⟨fun entry hentry => ?_, by rintro entry ⟨⟩⟩, hending⟩,
        fun _ _ => trivial⟩
      rcases Table.mem_insert hentry with rfl | hentry
      · exact hd
      · exact hregistry.definitions entry hentry
  · exact keepsOk_throw

/-- Declaring a named type keeps the discipline. -/
theorem keepsOk_declare {d : TypeDecl} (hd : D.headed → d.body.isOvert = true) :
    D.KeepsOk w (fun _ _ => True) (declare d) := by
  unfold declare
  refine keepsOk_get fun σ _ => ?_
  exact (keepsOk_resolving (by simp) (keepsOk_definition hd)).bind fun _ _ _ hout =>
    keepsOk_define hout.1

end Declaring

/-! ## Schemes and environments -/

/-- A scheme is in order: its type is, and what it quantifies stands for types or rows. -/
structure Quantifies (D : Discipline) (w : D.Stage) (s : Scheme) : Prop where
  vars : ∀ v ∈ s.vars, D.Plain w v.id ∨ D.Row w v.id
  body : D.Ok w s.body

theorem Quantifies.later {s : Scheme} (h : D.Quantifies w s) (hw : D.Before w w') :
    D.Quantifies w' s :=
  ⟨fun v hv => (h.vars v hv).imp (D.plain_later hw) (D.row_later hw), h.body.later hw⟩

theorem quantifies_mono {t : Ty} (ht : D.Ok w t) : D.Quantifies w (.mono t) :=
  ⟨by rintro v ⟨⟩, ht⟩

/-- A number that occurs in a type which is in order stands for a type or a row. -/
theorem plain_or_row_of_uses {t : Ty} {id : Int} (h : t.Uses id) (ht : D.Ok w t) :
    D.Plain w id ∨ D.Row w id := by
  induction h with
  | var hid => exact .inl (hid ▸ D.plain_of_var ht)
  | param _ ih => exact ih (D.fn.1 ht).1
  | result _ ih => exact ih (D.fn.1 ht).2
  | field hf _ ih => exact ih ((D.record.1 ht).1 _ hf)
  | row hid => exact .inr (hid ▸ (D.record.1 ht).2 _ rfl)
  | elem h _ ih => exact ih (D.tuple.1 ht _ h)
  | alternative h _ ih => exact ih (D.union ht _ h)
  | member h _ ih => exact ih (D.inter ht _ h)
  | arg h _ ih => exact ih (D.named.1 ht _ h)
  | binder hid => exact .inl (hid ▸ D.plain_of_var (D.mu.1 ht).1)
  | body _ ih => exact ih (D.mu.1 ht).2.1

theorem quantifies_generalize {t : Ty} (ht : D.Ok w t) (except : VarSet) :
    D.Quantifies w (.generalize t except) := by
  refine ⟨fun v hv => ?_, ht⟩
  have hfree : t.free.has v = true :=
    List.any_eq_true.2 ⟨v, (List.mem_filter.1 hv).1, beq_self_eq_true _⟩
  exact plain_or_row_of_uses (Ty.uses_of_mentions (Ty.has_free.1 hfree)) ht

theorem Quantifies.apply {s : Scheme} {subst : Subst} (h : D.Quantifies w s)
    (hs : D.Sends w subst) : D.Quantifies w (s.apply subst) :=
  ⟨h.vars, (hs.without s.vars).apply h.body⟩

/-- For each number there is a fresh one of its kind. -/
theorem exists_like {id : Int} (h : D.Plain w id ∨ D.Row w id) (level : Int) :
    ∃ w', D.Before w w' ∧ D.count w' = D.count w + 1 ∧
      D.Binds w' id (.var ⟨(D.count w : Int) + 1, level⟩) := by
  rcases h with hplain | hrow
  · obtain ⟨w', hw', hcount, hv⟩ := D.exists_var w level
    exact ⟨w', hw', hcount, .inl ⟨D.plain_later hw' hplain, hv⟩⟩
  · obtain ⟨w', hw', hcount, hv⟩ := D.exists_row w
    exact ⟨w', hw', hcount, .inr ⟨hrow.later hw', hv⟩⟩

theorem exists_refresh (level : Int) : ∀ {vs : List TyVar} {s : Subst} {supply : Supply}
    {w : D.Stage}, (∀ v ∈ vs, D.Plain w v.id ∨ D.Row w v.id) → D.Sends w s →
    D.count w = supply.count → ∃ w', D.Before w w' ∧
      D.count w' = (Scheme.refresh level vs s supply).2.count ∧
      D.Sends w' (Scheme.refresh level vs s supply).1
  | [], s, supply, w, _, hs, hcount => ⟨w, D.refl w, hcount, hs⟩
  | v :: vs, s, supply, w, hvs, hs, hcount => by
      obtain ⟨w', hw', hcount', hbinds⟩ := exists_like (hvs v List.mem_cons_self) level
      rw [hcount] at hcount' hbinds
      obtain ⟨w'', hw'', hout⟩ := exists_refresh level
        (fun u hu => (hvs u (List.mem_cons_of_mem _ hu)).imp (D.plain_later hw') (D.row_later hw'))
        ((hs.later hw').bind hbinds) hcount'
      exact ⟨w'', hw'.trans hw'', hout⟩

theorem exists_instantiate {s : Scheme} (h : D.Quantifies w s) (level : Int) {supply : Supply}
    (hcount : D.count w = supply.count) : ∃ w', D.Before w w' ∧
      D.count w' = (s.instantiate level supply).2.count ∧
      D.Ok w' (s.instantiate level supply).1 := by
  unfold Scheme.instantiate
  split
  · exact ⟨w, D.refl w, hcount, h.body⟩
  · obtain ⟨w', hw', hcount', hs⟩ := exists_refresh level h.vars sends_empty hcount
    exact ⟨w', hw', hcount', hs.apply (h.body.later hw')⟩

/-- The schemes of an environment are in order. -/
def Scopes (D : Discipline) (w : D.Stage) (e : Env) : Prop :=
  ∀ entry ∈ e.schemes, D.Quantifies w entry.2

variable {e : Env} {s : Subst}

theorem Scopes.later (h : D.Scopes w e) (hw : D.Before w w') : D.Scopes w' e :=
  fun entry hentry => (h entry hentry).later hw

theorem scopes_empty : D.Scopes w .empty := by rintro entry ⟨⟩

theorem Scopes.bind (h : D.Scopes w e) {scheme : Scheme} (hs : D.Quantifies w scheme)
    (name : String) : D.Scopes w (e.bind name scheme) := by
  intro entry hentry
  rcases Table.mem_insert hentry with rfl | hentry
  · exact hs
  · exact h entry hentry

theorem Scopes.bindMono (h : D.Scopes w e) {t : Ty} (ht : D.Ok w t) (name : String) :
    D.Scopes w (e.bindMono name t) := h.bind (quantifies_mono ht) name

theorem Scopes.lookup? (h : D.Scopes w e) {name : String} {scheme : Scheme}
    (hs : e.lookup? name = some scheme) : D.Quantifies w scheme := h _ (Table.mem_of_get? hs)

theorem Scopes.apply (h : D.Scopes w e) (hs : D.Sends w s) : D.Scopes w (e.apply s) := by
  unfold Env.apply
  split
  · exact h
  · intro entry hentry
    obtain ⟨entry', hentry', rfl⟩ := List.mem_map.1 hentry
    exact (h entry' hentry').apply hs

/-! ## Refining -/

/-- What is in order is passed on by refining. -/
theorem inherited_ok : Ty.Inherited (D.Ok w) where
  fields h := (D.record.1 h).1
  elems h := D.tuple.1 h
  alternatives h := D.union h
  unionOf := D.unionOf
  unfold := ok_unfold

end Discipline

end RowTypes
