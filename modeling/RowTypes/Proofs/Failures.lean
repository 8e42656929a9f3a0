import RowTypes.Checker
import RowTypes.Proofs.BranchResults
import RowTypes.Proofs.Coinduction
import RowTypes.Proofs.HeadExpansion
import RowTypes.Proofs.Principality
import RowTypes.Proofs.Resolution

/-!
# Failures are errors

A warning is never a reason to fail.  Relating types, solving, resolving annotations and inference
collect what deserves a warning beside what they find, and whatever they fail with is an error.  So
a report of failures is without errors only if it is empty.

The proof follows the code, function by function: each failure is thrown in one of few places, and
what is caught on the way is thrown again as another error.
-/

namespace RowTypes

section Errs

variable {S α β : Type} {m : ExceptT Diagnostic (StateM S) α}

/-- Whatever a run fails with is an error. -/
structure Errs (m : ExceptT Diagnostic (StateM S) α) : Prop where
  ends : ∀ p, Ends m p (fun _ _ => True) fun e _ => e.severity = .error

theorem errs_pure (a : α) : Errs (pure a : ExceptT Diagnostic (StateM S) α) :=
  ⟨fun _ => ends_pure trivial⟩

theorem errs_throw {e : Diagnostic} (h : e.severity = .error) :
    Errs (throw e : ExceptT Diagnostic (StateM S) α) := ⟨fun _ => ends_throw h⟩

theorem Errs.bind {f : α → ExceptT Diagnostic (StateM S) β} (h : Errs m)
    (hf : ∀ a, Errs (f a)) : Errs (m >>= f) :=
  ⟨fun p => Ends.bind ((h.ends p).imp (fun a q _ => (hf a).ends q) fun _ _ he => he)⟩

theorem Errs.map (h : Errs m) (f : α → β) : Errs (f <$> m) := by
  rw [← bind_pure_comp]
  exact h.bind fun _ => errs_pure _

/-- A step that cannot fail. -/
theorem errs_lift (x : StateM S α) : Errs (liftM x : ExceptT Diagnostic (StateM S) α) :=
  ⟨fun _ => ends_lift trivial⟩

theorem errs_get {f : S → ExceptT Diagnostic (StateM S) α} (h : ∀ s, Errs (f s)) :
    Errs (get >>= f) := ⟨fun p => ends_get ((h p).ends p)⟩

/-- What a run fails with, where its result is looked at. -/
theorem Errs.severity (h : Errs m) {p q : S} {e : Diagnostic} (hrun : m.run p = (.error e, q)) :
    e.severity = .error := by
  have hends := h.ends p
  rw [Ends, hrun] at hends
  exact hends

end Errs

/-! ## Relating types -/

namespace Relate

variable {α : Type} {ctx : Context} {a b : Ty} {s : Subst}

theorem errs_orElseThrow {m : Relate α} {d : Diagnostic → Diagnostic} (h : Errs m)
    (hd : ∀ e, (d e).severity = .error) : Errs (orElseThrow m d) :=
  ⟨fun p => ends_orElseThrow ((h.ends p).imp (fun _ _ _ => trivial) fun e _ _ => hd e)⟩

theorem errs_exceed : Errs (exceed ctx a b : Relate α) := ⟨fun _ => ends_exceed rfl⟩

theorem errs_assume (a b : Ty) : Errs (assume a b) := by
  refine ⟨fun p => ?_⟩
  rw [Ends, run_assume]
  by_cases hknown : p.assumed.contains (pairDigest a b) = true
  · rw [if_pos hknown]
    trivial
  · rw [if_neg hknown]
    trivial

theorem errs_expand (ctx : Context) (name : String) (args : List Ty) :
    Errs (expand ctx name args) := by
  unfold expand
  split
  · exact errs_throw rfl
  · split
    · exact errs_pure _
    · exact errs_throw rfl

theorem errs_bindVar (ctx : Context) (v : TyVar) (t : Ty) : Errs (bindVar ctx v t) := by
  unfold bindVar
  split
  · split <;> exact errs_pure _
  · split
    · exact errs_throw rfl
    · exact errs_pure _

theorem errs_extendRow (ctx : Context) (s : Subst) (row : TyVar) (fields : List (String × Ty))
    (behind : Option TyVar) : Errs (extendRow ctx s row fields behind) :=
  (errs_bindVar ctx row _).bind fun _ => errs_pure _

theorem errs_needs (ends : Prop) : Errs (needs ends) := ⟨fun _ => ends_needs trivial⟩

theorem errs_fresh (level : Int) : Errs (fresh level) := ⟨fun _ => ends_fresh trivial⟩

theorem errs_unifyRows (ctx : Context) (s : Subst) (a b : RecordTy) (onlyA onlyB : List String) :
    Errs (unifyRows ctx s a b onlyA onlyB) := by
  unfold unifyRows
  split
  · split
    · exact errs_pure s
    · exact errs_throw rfl
  · split
    · exact errs_extendRow ..
    · exact errs_throw rfl
  · split
    · exact errs_extendRow ..
    · exact errs_throw rfl
  · split
    · split
      · exact errs_pure s
      · exact errs_throw rfl
    · refine (errs_fresh _).bind fun behind => ?_
      exact (errs_extendRow ..).bind fun _ => errs_extendRow ..

section Unify

variable {unify : Relation} (h : ∀ a b, Errs (unify a b))
include h

theorem errs_thread : ∀ (pairs : List (Ty × Ty)) (s : Subst), Errs (thread unify pairs s)
  | [], s => errs_pure s
  | _ :: pairs, _ => (h _ _).bind fun _ => errs_thread pairs _

omit h in
theorem errs_absorb (ctx : Context) (t : Ty) (alts : List Ty) :
    Errs (absorb ctx unify t alts) := by
  refine (errs_lift _).bind fun found => ?_
  cases found with
  | some s => exact errs_pure s
  | none => exact errs_throw rfl

theorem errs_absorbAll (ctx : Context) (target : Ty) : ∀ (alts : List Ty) (s : Subst),
    Errs (absorbAll ctx unify target alts s)
  | [], s => errs_pure s
  | alt :: alts, s => by
      rw [absorbAll]
      split
      · exact (errs_absorb ctx _ _).bind fun _ => errs_absorbAll ctx target alts _
      · exact (h _ _).bind fun _ => errs_absorbAll ctx target alts _

theorem errs_unifyUnions (ctx : Context) (as bs : List Ty) :
    Errs (unifyUnions ctx unify as bs) :=
  errs_orElseThrow ((errs_absorbAll h ctx _ as _).bind fun _ => errs_absorbAll h ctx _ bs _)
    fun _ => rfl

theorem errs_unifyRecords (ctx : Context) (a b : RecordTy) :
    Errs (unifyRecords ctx unify a b) := by
  refine (errs_thread h _ _).bind fun s => ?_
  split
  · exact (h _ _).bind fun _ => errs_pure _
  · exact errs_unifyRows ..

theorem errs_unifyExpanded (ctx : Context) (a b : Ty) : Errs (unifyExpanded ctx unify a b) := by
  unfold unifyExpanded
  split
  · exact (errs_expand ..).bind fun _ => h _ _
  · exact (errs_expand ..).bind fun _ => h _ _
  · exact h _ _
  · exact h _ _
  · exact h _ _

theorem errs_unifyIndirect (ctx : Context) (a b : Ty) : Errs (unifyIndirect ctx unify a b) := by
  rw [unifyIndirect_eq]
  refine (errs_assume a b).bind fun known => ?_
  split
  · exact errs_pure _
  · split
    · exact errs_unifyExpanded h ctx a b
    · refine (errs_lift _).bind fun found => ?_
      cases found with
      | some s => exact errs_pure s
      | none => exact errs_unifyExpanded h ctx a b

theorem errs_unifyShapes (ctx : Context) (a b : Ty) : Errs (unifyShapes ctx unify a b) := by
  unfold unifyShapes
  split
  · exact errs_unifyUnions h ctx _ _
  · exact errs_absorb ctx _ _
  · exact errs_orElseThrow (errs_thread h _ _) fun _ => rfl
  · exact errs_absorb ctx _ _
  · exact errs_orElseThrow (errs_thread h _ _) fun _ => rfl
  · exact errs_pure _
  · exact errs_pure _
  · exact errs_thread h _ _
  · split
    · exact errs_thread h _ _
    · exact errs_throw rfl
  · exact errs_unifyRecords h ctx _ _
  · exact errs_throw rfl

theorem errs_unifyStep (ctx : Context) (a b : Ty) : Errs (unifyStep ctx unify a b) := by
  unfold unifyStep
  split
  · exact errs_pure _
  · split
    · exact errs_bindVar ..
    · exact errs_bindVar ..
    · split
      · exact errs_unifyIndirect h ctx a b
      · exact errs_unifyShapes h ctx a b

/-! ## Subtyping -/

theorem errs_unifyWidth (ctx : Context) (sub super : RecordTy) :
    ∀ (fs : List (String × Ty)) (s : Subst), Errs (unifyWidth ctx unify sub super fs s)
  | [], s => errs_pure s
  | (name, t) :: fs, s => by
      rw [unifyWidth]
      split
      · exact errs_unifyWidth ctx sub super fs s
      · exact (errs_orElseThrow (h _ _) fun _ => rfl).bind fun _ =>
          errs_unifyWidth ctx sub super fs _

theorem errs_subtypeRecords (ctx : Context) (sub super : RecordTy) :
    Errs (subtypeRecords ctx unify sub super) := by
  refine (errs_unifyWidth h ctx sub super _ _).bind fun s => ?_
  dsimp only
  split
  · exact errs_pure s
  · split
    · exact errs_throw rfl
    · exact (errs_fresh _).bind fun _ => errs_extendRow ..

theorem errs_subtypeUnified (ctx : Context) (sub super : Ty) :
    Errs (subtypeUnified ctx unify sub super) := errs_orElseThrow (h _ _) fun _ => rfl

variable {subtype : Relation} (hsub : ∀ a b, Errs (subtype a b))
include hsub

omit h in
theorem errs_subtypeIndirect (ctx : Context) (sub super : Ty) :
    Errs (subtypeIndirect ctx subtype sub super) := by
  unfold subtypeIndirect
  refine (errs_assume sub super).bind fun known => ?_
  split
  · exact errs_pure _
  · split
    · exact (errs_expand ..).bind fun _ => hsub _ _
    · exact hsub _ _
    · exact (errs_expand ..).bind fun _ => hsub _ _
    · exact hsub _ _
    · exact hsub _ _

omit h hsub in
theorem errs_subtypeSome (ctx : Context) (sub super : Ty) (reason : String)
    (found : StateM Progress (Option Subst)) : Errs (subtypeSome ctx sub super reason found) := by
  refine (errs_lift _).bind fun o => ?_
  cases o with
  | some s => exact errs_pure s
  | none => exact errs_throw rfl

theorem errs_subtypeShapes (ctx : Context) (sub super : Ty) :
    Errs (subtypeShapes ctx unify subtype sub super) := by
  unfold subtypeShapes
  split
  · exact errs_thread hsub _ _
  · exact errs_subtypeSome ..
  · exact errs_subtypeSome ..
  · exact errs_thread hsub _ _
  · exact errs_subtypeRecords h ctx _ _
  · exact (hsub _ _).bind fun _ => (hsub _ _).bind fun _ => errs_pure _
  · split
    · exact errs_thread hsub _ _
    · exact errs_subtypeUnified h ctx _ _
  · exact errs_pure _
  · exact errs_subtypeUnified h ctx _ _

theorem errs_subtypeStep (ctx : Context) (sub super : Ty) :
    Errs (subtypeStep ctx unify subtype sub super) := by
  unfold subtypeStep
  split
  · exact errs_pure _
  · split
    · exact h _ _
    · exact h _ _
    · split
      · exact errs_subtypeIndirect hsub ctx sub super
      · exact errs_subtypeShapes h hsub ctx sub super

end Unify

theorem errs_unify (ctx : Context) : ∀ (limit : Nat) (a b : Ty), Errs (unify ctx limit a b)
  | 0, _, _ => errs_exceed
  | limit + 1, a, b => errs_unifyStep (errs_unify ctx limit) ctx a b

theorem errs_subtype (ctx : Context) : ∀ (limit : Nat) (a b : Ty), Errs (subtype ctx limit a b)
  | 0, _, _ => errs_exceed
  | limit + 1, a, b => errs_subtypeStep (errs_unify ctx limit) (errs_subtype ctx limit) ctx a b

/-! ## Joins and spreads -/

section Joins

variable {unify : Relation} {join : Ty → Ty → Relate Joined}

theorem errs_joinAll (hjoin : ∀ a b, Errs (join a b)) : ∀ (pairs : List (Ty × Ty))
    (done : List Ty) (s : Subst), Errs (joinAll join pairs done s)
  | [], _, _ => errs_pure _
  | _ :: pairs, _, _ => (hjoin _ _).bind fun _ => errs_joinAll hjoin pairs _ _

theorem errs_joinList (hjoin : ∀ a b, Errs (join a b)) : ∀ (ts : List Ty) (found : Joined),
    Errs (joinList join ts found)
  | [], _ => errs_pure _
  | _ :: ts, _ => (hjoin _ _).bind fun _ => errs_joinList hjoin ts _

theorem errs_joinIntoUnion (ctx : Context) (alts : List Ty) (b : Ty) :
    Errs (joinIntoUnion ctx unify alts b) := by
  refine (errs_lift _).bind fun found => ?_
  cases found with
  | some s => exact errs_pure _
  | none =>
      exact iteInduction (motive := fun m => Errs m) (fun _ => errs_pure _) fun _ => errs_throw rfl

variable (h : ∀ a b, Errs (unify a b))
include h

theorem errs_joinUnified (a b : Ty) : Errs (joinUnified unify a b) :=
  (h _ _).bind fun _ => errs_pure _

theorem errs_joinBranchesStep (hjoin : ∀ a b, Errs (join a b)) (ctx : Context) (a b : Ty) :
    Errs (joinBranchesStep ctx unify join a b) := by
  unfold joinBranchesStep
  split
  · exact errs_joinUnified h _ _
  · exact errs_joinUnified h _ _
  · split
    · exact errs_pure _
    · exact errs_joinUnified h _ _
  · exact errs_joinIntoUnion ctx _ _
  · split
    · exact errs_joinAll hjoin _ _ _
    · exact errs_joinUnified h _ _
  · split
    · exact errs_joinUnified h _ _
    · exact errs_pure _
  · exact errs_joinUnified h _ _

theorem errs_joinBranches (ctx : Context) : ∀ (n : Nat) (a b : Ty),
    Errs (joinBranches ctx unify n a b)
  | 0, _, _ => errs_throw rfl
  | n + 1, a, b => errs_joinBranchesStep h (errs_joinBranches ctx n) ctx a b

theorem errs_fitBranches (ctx : Context) (result : Ty) : ∀ (branches : List Ty) (s : Subst),
    Errs (fitBranches ctx unify result branches s)
  | [], s => errs_pure s
  | _ :: branches, _ => (errs_orElseThrow (h _ _) fun _ => rfl).bind fun _ =>
      errs_fitBranches ctx result branches _

theorem errs_matchAlternative (ctx : Context) (p scrutinee : Ty) :
    Errs (matchAlternative ctx unify p scrutinee) := by
  unfold matchAlternative
  split
  · exact errs_bindVar ..
  · split
    · exact errs_absorb ctx _ _
    · exact h _ _

theorem errs_overlay (ctx : Context) (replace : Bool) : ∀ (fs : List (String × Ty))
    (merging : Merging), Errs (overlay ctx unify replace fs merging)
  | [], _ => errs_pure _
  | (name, t) :: fs, merging => by
      rw [overlay]
      dsimp only
      split
      · exact errs_overlay ctx replace fs _
      · exact (errs_orElseThrow (h _ _) fun _ => rfl).bind fun _ =>
          (errs_pure _).bind fun _ => errs_overlay ctx replace fs _

end Joins

theorem errs_head (ctx : Context) (t : Ty) : Errs (head ctx t) := by
  unfold head
  refine (errs_needs _).bind fun _ => ?_
  split
  · exact errs_expand ..
  · exact errs_pure _
  · exact errs_throw rfl

theorem errs_recordShape (ctx : Context) (t : Ty) : Errs (recordShape ctx t) := by
  refine (errs_head ctx t).bind fun u => ?_
  split
  · exact errs_pure _
  · exact (errs_fresh _).bind fun _ => errs_bindVar ..
  · exact errs_throw rfl

theorem errs_spreadRecord (ctx : Context) (t : Ty) : Errs (spreadRecord ctx t) := by
  refine (errs_head ctx t).bind fun u => ?_
  split
  · exact errs_pure _
  · exact errs_pure _
  · exact errs_throw rfl

theorem errs_overlaySpreads {unify : Relation} (h : ∀ a b, Errs (unify a b)) (ctx : Context) :
    ∀ (ts : List Ty) (merging : Merging), Errs (overlaySpreads ctx unify ts merging)
  | [], _ => errs_pure _
  | _ :: ts, _ => (errs_spreadRecord ctx _).bind fun _ => (errs_overlay h ctx _ _ _).bind fun _ =>
      errs_overlaySpreads h ctx ts _

theorem errs_merge {unify : Relation} (h : ∀ a b, Errs (unify a b)) (ctx : Context) (result : Ty)
    (spreads : List Ty) (explicit : RecordTy) :
    Errs (merge ctx unify result spreads explicit) := by
  refine (errs_overlaySpreads h ctx _ _).bind fun _ => ?_
  refine (errs_overlay h ctx _ _ _).bind fun _ => (errs_fresh _).bind fun _ => ?_
  exact (h _ _).bind fun _ => errs_pure _

theorem errs_branch (ctx : Context) (limit : Nat) (result : Ty) (branches : List Ty) :
    Errs (branch ctx limit result branches) := by
  unfold branch
  split
  · exact errs_pure _
  · split
    · refine (errs_joinList (errs_joinBranches (errs_unify ctx limit) ctx _) _ _).bind fun _ => ?_
      exact (errs_unify ctx limit _ _).bind fun _ => errs_pure _
    · exact errs_fitBranches (errs_subtype ctx limit) ctx _ _ _

theorem errs_holds (ctx : Context) (limit : Nat) (scrutinee : Ty) (patterns : List Ty) :
    Errs (holds ctx limit scrutinee patterns) := by
  unfold holds
  split
  · split
    · exact errs_pure _
    · exact (errs_lift _).bind fun _ => (errs_bindVar ..).bind fun _ => errs_pure _
  · exact errs_thread (errs_matchAlternative (errs_unify ctx limit) ctx) _ _
  · exact errs_thread (errs_unify ctx limit) _ _

end Relate

/-! ## Solving -/

namespace Session

open Relate

theorem errs_relating {α : Type} {m : Context → Relate α} (span : Span)
    (h : ∀ ctx, Errs (m ctx)) : Errs (relating span m) :=
  ⟨fun _ => ends_relating (((h _).ends _).imp (fun _ _ h => h) fun _ _ h => h)⟩

theorem errs_checkClass (limit : Nat) (span : Span) (t : Ty) (cls : String) :
    Errs (checkClass limit span t cls) := by
  unfold checkClass
  split
  · exact errs_pure _
  · split
    · exact errs_throw rfl
    · refine errs_get fun _ => ?_
      split
      · exact errs_throw rfl
      · exact errs_pure _

theorem errs_checkExhaustive (span : Span) (t : Ty) (patterns : List Pattern) :
    Errs (checkExhaustive span t patterns) := by
  unfold checkExhaustive
  refine (errs_lift _).bind fun t => ?_
  split
  · split
    · exact errs_pure _
    · exact errs_pure _
    · exact errs_throw rfl
  · exact errs_pure _

theorem errs_discharge (limit : Nat) (c : Constraint) : Errs (discharge limit c) := by
  obtain ⟨d, origin, span⟩ := c
  unfold discharge
  split
  · exact errs_pure _
  · cases d with
    | equal a b => exact errs_relating span fun ctx => errs_unify ctx limit a b
    | subtype a b => exact errs_relating span fun ctx => errs_subtype ctx limit a b
    | ofClass t cls => exact (errs_checkClass limit span t cls).bind fun _ => errs_pure _
    | recordShape t => exact errs_relating span fun ctx => errs_recordShape ctx t
    | merge result spreads explicit =>
        exact errs_relating span fun ctx => errs_merge (errs_unify ctx limit) ctx ..
    | holds t ts => exact errs_relating span fun ctx => errs_holds ctx limit t ts
    | branch t ts => exact errs_relating span fun ctx => errs_branch ctx limit t ts
    | exhaustive t ps => exact (errs_checkExhaustive span t ps).bind fun _ => errs_pure _

/-- What ends solving is an error. -/
theorem severity_solveInOrder (limit : Nat) {e : Diagnostic} : ∀ (cs : List Constraint)
    (found : List Subst) (s : Subst) (σ : Session),
    ((solveInOrder limit cs found s).run σ).1.failure = some e → e.severity = .error
  | [], _, _, _ => nofun
  | c :: cs, found, s, σ => by
      have hends := (errs_discharge limit
        ((found.foldl (fun c next => c.apply next) c).apply s)).ends σ
      rw [run_solveInOrder]
      unfold Ends at hends
      split at hends
      · next next τ hrun =>
          rw [hrun]
          dsimp only
          split
          · exact severity_solveInOrder limit cs found s τ
          · exact severity_solveInOrder limit cs _ _ τ
      · next failure τ hrun =>
          rw [hrun]
          rintro ⟨⟩
          exact hends

theorem severity_solve (limit : Nat) {cs : ConstraintSet} {σ : Session} {e : Diagnostic}
    (h : ((solve limit cs).run σ).1.failure = some e) : e.severity = .error :=
  severity_solveInOrder limit _ _ _ _ h

end Session

/-! ## Resolving annotations -/

namespace Resolve

theorem errs_fresh (level : Int) : Errs (fresh level) := ⟨fun _ => trivial⟩

theorem Refused.severity {d : Diagnostic} (h : Refused d) : d.severity = .error := by
  cases h <;> rfl

theorem errs_resolve (r : Registry) (rules : ScopeRules) (e : TyExpr) : Errs (resolve r rules e) :=
  ⟨fun s => (refuses_resolve e s).imp (fun _ _ h => h) fun _ _ h => h.severity⟩

theorem errs_declareParams (span : Span) : ∀ names, Errs (declareParams span names)
  | [] => errs_pure _
  | name :: names => by
      rw [declareParams]
      refine errs_get fun s => ?_
      split
      · exact errs_throw rfl
      · refine (errs_fresh _).bind fun v => (errs_lift _).bind fun _ => ?_
        exact (errs_declareParams span names).bind fun _ => errs_pure _

theorem errs_definition (r : Registry) (d : TypeDecl) : Errs (definition r d) :=
  (errs_declareParams _ _).bind fun _ => (errs_resolve r _ _).bind fun _ => errs_pure _

end Resolve

namespace Session

theorem errs_resolving {α : Type} {m : Resolve α} (h : Errs m) (vars : Table String TyVar) :
    Errs (resolving vars m) :=
  ⟨fun _ => ends_resolving ((h.ends _).imp (fun _ _ h => h) fun _ _ h => h)⟩

theorem errs_define (d : Definition) : Errs (define d) := by
  refine errs_get fun s => ?_
  unfold Registry.define
  split
  · next registry hok => exact errs_lift _
  · next e herror =>
      refine errs_throw ?_
      split at herror
      · cases herror
        rfl
      · split at herror <;> cases herror
        rfl

theorem errs_declare (d : TypeDecl) : Errs (declare d) :=
  errs_get fun s => (errs_resolving (Resolve.errs_definition s.registry d) []).bind fun _ =>
    errs_define _

end Session

/-! ## Inference -/

namespace Generate

theorem errs_ofSession {α : Type} (m : StateM Session α) : Errs (ofSession m) :=
  ⟨fun _ => ends_ofSession trivial⟩

theorem errs_ofSessionM {α : Type} {m : SessionM α} (h : Errs m) : Errs (ofSessionM m) := by
  refine ⟨fun g => Ends.bind (ends_ofSession ?_)⟩
  have hends := h.ends g.session
  unfold Ends at hends
  split at hends
  · next a s hrun =>
      rw [StateT.run, hrun]
      exact ends_pure trivial
  · next e s hrun =>
      rw [StateT.run, hrun]
      exact ends_throw hends

theorem errs_fresh (level : Int) : Errs (fresh level) := errs_ofSession _

theorem errs_warn (ds : List Diagnostic) : Errs (warn ds) := ⟨fun _ => trivial⟩

theorem errs_needs (ends : Prop) : Errs (needs ends) := ⟨fun _ => trivial⟩

theorem errs_annotated (level : Int) (vars : Table String TyVar) (e : TyExpr) :
    Errs (resolve level vars e) :=
  (errs_ofSession _).bind fun r => errs_ofSessionM (Session.errs_resolving
    (Resolve.errs_resolve r _ e) vars)

theorem errs_literal (level : Int) (span : Span) (kind : LiteralKind) (value : String)
    (isTag : Bool) : Errs (literal level span kind value isTag) := by
  unfold literal
  cases kind with
  | other kind => exact (errs_throw rfl).bind fun _ => (errs_fresh _).bind fun _ => errs_pure _
  | _ => exact (errs_pure _).bind fun _ => (errs_fresh _).bind fun _ => errs_pure _

theorem errs_params (level : Int) : ∀ (ps : List Param) (vars : Table String TyVar) (e : Env),
    Errs (params level ps vars e)
  | [], _, _ => errs_pure _
  | p :: ps, vars, e => by
      rw [params]
      refine (errs_fresh _).bind fun v => ?_
      split
      · exact (errs_pure _).bind fun _ => (errs_params level ps _ _).bind fun _ => errs_pure _
      · exact (errs_annotated ..).bind fun _ => (errs_params level ps _ _).bind fun _ =>
          errs_pure _

mutual

theorem errs_patternType (level : Int) : ∀ (p : Pattern) (vars : Table String Ty),
    Errs (patternType level p vars)
  | .missing, vars => by
      rw [patternType]
      exact errs_throw rfl
  | .literal span kind value, vars => by
      rw [patternType.eq_def]
      dsimp only
      split
      · exact errs_pure _
      · exact errs_pure _
      · exact errs_pure _
      · exact errs_pure _
      · exact errs_throw rfl
  | .var _ name, vars => by
      rw [patternType]
      exact (errs_fresh _).bind fun _ => errs_pure _
  | .wildcard _, vars => by
      rw [patternType]
      exact (errs_fresh _).bind fun _ => errs_pure _
  | .tuple _ ps, vars => by
      rw [patternType]
      exact (errs_patternTypes level ps vars).bind fun _ => errs_pure _
  | .record _ fs, vars => by
      rw [patternType]
      exact (errs_fieldPatternTypes level fs [] vars).bind fun _ => (errs_fresh _).bind fun _ =>
        errs_pure _

theorem errs_patternTypes (level : Int) : ∀ (ps : List Pattern) (vars : Table String Ty),
    Errs (patternTypes level ps vars)
  | [], vars => by
      rw [patternTypes]
      exact errs_pure _
  | p :: ps, vars => by
      rw [patternTypes]
      exact (errs_patternType level p vars).bind fun _ => (errs_patternTypes level ps _).bind
        fun _ => errs_pure _

theorem errs_fieldPatternTypes (level : Int) : ∀ (fs : List (String × Pattern))
    (done vars : Table String Ty), Errs (fieldPatternTypes level fs done vars)
  | [], done, vars => by
      rw [fieldPatternTypes]
      exact errs_pure _
  | (name, p) :: fs, done, vars => by
      rw [fieldPatternTypes]
      exact (errs_patternType level p vars).bind fun _ => errs_fieldPatternTypes level fs _ _

end

theorem errs_caseScope (level : Int) (scrutinee : Ty) (refined : Table String Ty) (e : Env)
    (p : Pattern) : Errs (caseScope level scrutinee refined e p) := by
  unfold caseScope
  split
  · exact errs_pure _
  · exact errs_pure _
  · exact (errs_patternType level _ _).bind fun _ => errs_pure _

theorem errs_analyse (span : Span) (known : Ty) (patterns : List Pattern) :
    Errs (analyse span known patterns) := by
  unfold analyse
  refine (errs_needs _).bind fun _ => (errs_warn _).bind fun _ => ?_
  dsimp only
  split
  · exact (errs_warn _).bind fun _ => errs_pure _
  · exact errs_pure _

theorem errs_settle (limit : Nat) (e : Env) (typed : Typed) : Errs (settle limit e typed) := by
  refine (errs_ofSession _).bind fun solution => ?_
  split <;> exact errs_pure _

theorem errs_binding (limit : Nat) (e : Env) (level : Int) (site : Site)
    {value : Env → Generate Typed} (h : ∀ e, Errs (value e)) :
    Errs (binding limit e level site value) := by
  unfold binding
  dsimp only
  split
  · refine (errs_pure none).bind fun declared => ?_
    split
    · exact ((errs_fresh _).map _).bind fun v => (h _).bind fun _ =>
        (errs_settle limit e _).bind fun _ => errs_pure _
    · exact (errs_pure none).bind fun v => (h _).bind fun _ =>
        (errs_settle limit e _).bind fun _ => errs_pure _
  · refine (errs_annotated ..).bind fun out => (errs_pure (some out.1)).bind fun declared => ?_
    split
    · exact ((errs_fresh _).map _).bind fun v => (h _).bind fun _ =>
        (errs_settle limit e _).bind fun _ => errs_pure _
    · exact (errs_pure none).bind fun v => (h _).bind fun _ =>
        (errs_settle limit e _).bind fun _ => errs_pure _

theorem errs_closeMatch (level : Int) (span : Span) (scrutinee : Ty) (patterns : List Pattern)
    (cases : Cases) : Errs (closeMatch level span scrutinee patterns cases) := by
  unfold closeMatch
  dsimp only
  split
  · exact errs_pure _
  · exact (errs_fresh _).bind fun _ => errs_pure _

mutual

theorem errs_infer (limit : Nat) : ∀ (x : Expr) (e : Env) (level : Int),
    Errs (infer limit e level x)
  | .missing, e, level => by
      rw [infer]
      exact errs_throw rfl
  | .literal span kind value, e, level => by
      rw [infer]
      exact errs_literal ..
  | .var span name, e, level => by
      rw [infer]
      split
      · exact errs_throw rfl
      · exact (errs_fresh _).bind fun _ => (errs_ofSession _).bind fun _ => errs_pure _
  | .call span f args, e, level => by
      rw [infer]
      exact (errs_infer limit f e level).bind fun _ => (errs_inferAll limit args e level _).bind
        fun _ => (errs_fresh _).bind fun _ => errs_pure _
  | .binary span op l r, e, level => by
      rw [infer]
      split
      · exact errs_throw rfl
      · exact (errs_infer limit l e level).bind fun _ => (errs_infer limit r e level).bind
          fun _ => (errs_fresh _).bind fun _ => errs_pure _
  | .unary span op x, e, level => by
      rw [infer]
      refine (errs_infer limit x e level).bind fun t => ?_
      dsimp only
      split
      · exact errs_throw rfl
      · exact (errs_fresh _).bind fun _ => errs_pure _
  | .cond span c t f, e, level => by
      rw [infer]
      exact (errs_infer limit c e level).bind fun _ => (errs_infer limit t e level).bind fun _ =>
        (errs_infer limit f e level).bind fun _ => (errs_fresh _).bind fun _ => errs_pure _
  | .lambda span ps body, e, level => by
      rw [infer]
      exact (errs_params level ps _ e).bind fun _ => (errs_infer limit body _ level).bind fun _ =>
        (errs_fresh _).bind fun _ => errs_pure _
  | .letIn span name isRec written value body, e, level => by
      rw [infer]
      refine (errs_binding limit e level _ fun e' => errs_infer limit value e' _).bind
        fun out => ?_
      exact (errs_infer limit body _ level).bind fun _ => errs_pure _
  | .record span fields spreads, e, level => by
      rw [infer]
      refine (errs_inferFields limit fields e level _ _).bind fun out => ?_
      dsimp only
      split
      · exact errs_pure _
      · exact (errs_inferSpreads limit spreads e level _).bind fun _ => (errs_fresh _).bind
          fun _ => errs_pure _
  | .select span x field, e, level => by
      rw [infer]
      exact (errs_infer limit x e level).bind fun _ => (errs_fresh _).bind fun _ =>
        (errs_fresh _).bind fun _ => errs_pure _
  | .tuple span xs, e, level => by
      rw [infer]
      exact (errs_inferAll limit xs e level _).bind fun _ => (errs_fresh _).bind fun _ =>
        errs_pure _
  | .caseOf span value arms, e, level => by
      rw [infer]
      refine (errs_infer limit value e level).bind fun t => ?_
      refine (errs_ofSession _).bind fun known => (errs_analyse ..).bind fun analysis => ?_
      exact (errs_inferArms limit arms e level _ _ _).bind fun _ => errs_closeMatch ..
  | .ascribe span x written, e, level => by
      rw [infer]
      exact (errs_infer limit x e level).bind fun _ => (errs_annotated ..).bind fun _ =>
        errs_pure _

theorem errs_inferAll (limit : Nat) : ∀ (xs : List Expr) (e : Env) (level : Int)
    (cs : ConstraintSet), Errs (inferAll limit e level xs cs)
  | [], e, level, cs => by
      rw [inferAll]
      exact errs_pure _
  | x :: xs, e, level, cs => by
      rw [inferAll]
      exact (errs_infer limit x e level).bind fun _ => (errs_inferAll limit xs e level _).bind
        fun _ => errs_pure _

theorem errs_inferSpreads (limit : Nat) : ∀ (xs : List Expr) (e : Env) (level : Int)
    (cs : ConstraintSet), Errs (inferSpreads limit e level xs cs)
  | [], e, level, cs => by
      rw [inferSpreads]
      exact errs_pure _
  | x :: xs, e, level, cs => by
      rw [inferSpreads]
      exact (errs_infer limit x e level).bind fun _ =>
        (errs_inferSpreads limit xs e level _).bind fun _ => errs_pure _

theorem errs_inferFields (limit : Nat) : ∀ (fs : List (Labelled Expr)) (e : Env) (level : Int)
    (done : Table String Ty) (cs : ConstraintSet), Errs (inferFields limit e level fs done cs)
  | [], e, level, done, cs => by
      rw [inferFields]
      exact errs_pure _
  | ⟨span, name, x⟩ :: fs, e, level, done, cs => by
      rw [inferFields]
      dsimp only
      split
      · exact errs_throw rfl
      · split
        · exact (errs_literal ..).bind fun _ => errs_inferFields limit fs e level _ _
        · exact (errs_infer limit x e level).bind fun _ => errs_inferFields limit fs e level _ _

theorem errs_inferArms (limit : Nat) : ∀ (arms : List (Arm Expr)) (e : Env) (level : Int)
    (scrutinee : Ty) (refinements : List (Table String Ty)) (cases : Cases),
    Errs (inferArms limit e level scrutinee refinements arms cases)
  | [], e, level, scrutinee, refinements, cases => by
      rw [inferArms]
      exact errs_pure _
  | ⟨_, p, x⟩ :: arms, e, level, scrutinee, refinements, cases => by
      rw [inferArms]
      exact (errs_caseScope ..).bind fun _ => (errs_infer limit x _ level).bind fun _ =>
        errs_inferArms limit arms e level scrutinee _ _

end

end Generate

/-! ## Checking -/

namespace Session

/-- What inference fails with is an error. -/
theorem severity_generating {α : Type} {m : Generate α} (h : Errs m) {σ : Session}
    {e : Diagnostic} (herror : ((generating m).run σ).1.1 = .error e) : e.severity = .error := by
  rw [run_generating] at herror
  exact h.severity (Prod.ext herror rfl)

end Session

end RowTypes
