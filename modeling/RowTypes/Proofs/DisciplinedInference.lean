import RowTypes.Checker
import RowTypes.Proofs.DisciplinedSchemes
import RowTypes.Proofs.EndingAnalysis

/-!
# Inference keeps a discipline

Everything that a checker does keeps a discipline: giving patterns their types, inferring
expressions, and checking declarations and whole programs.  Each form of expression makes its
unknowns for types, but for the row of a selection and that of a record pattern.  What is solved on
the way, to see what is matched on or to close the scheme of a definition, keeps the discipline
too, so it does not matter that its substitution is dropped.
-/

namespace RowTypes

namespace Discipline

variable {D : Discipline} {w w' : D.Stage} {α : Type} {made : D.Stage → α → Prop}

/-! ## Steps of inference -/

/-- The constraints of a set are in order. -/
def Demands (D : Discipline) (w : D.Stage) (cs : ConstraintSet) : Prop :=
  ∀ c ∈ cs.items, D.Asks w c

variable {cs cs' : ConstraintSet} {c : Constraint}

theorem Demands.later (h : D.Demands w cs) (hw : D.Before w w') : D.Demands w' cs :=
  fun c hc => (h c hc).later hw

theorem demands_empty : D.Demands w .empty := by rintro c ⟨⟩

theorem Demands.add (h : D.Demands w cs) (hc : D.Asks w c) : D.Demands w (cs.add c) := by
  unfold ConstraintSet.add
  split
  · exact h
  · intro d hd
    rcases List.mem_append.1 hd with hd | hd
    · exact h d hd
    · rw [List.mem_singleton.1 hd]
      exact hc

theorem Demands.union (h : D.Demands w cs) (h' : D.Demands w cs') :
    D.Demands w (cs.union cs') := by
  intro c hc
  rw [ConstraintSet.items_union] at hc
  rcases List.mem_append.1 hc with hc | hc
  · exact h c hc
  · exact h' c (List.mem_filter.1 hc).1

theorem Demands.foldl_add : ∀ {more : List Constraint} {cs : ConstraintSet}, D.Demands w cs →
    (∀ c ∈ more, D.Asks w c) → D.Demands w (more.foldl ConstraintSet.add cs)
  | [], _, h, _ => h
  | c :: more, _, h, hmore => by
      rw [List.foldl_cons]
      exact (h.add (hmore c List.mem_cons_self)).foldl_add
        fun d hd => hmore d (List.mem_cons_of_mem _ hd)

/-- A type with the constraints under which an expression has it is in order. -/
structure Types (D : Discipline) (w : D.Stage) (typed : Typed) : Prop where
  ty : D.Ok w typed.ty
  constraints : D.Demands w typed.constraints

theorem asks_equality {a b : Ty} {span : Span} (ha : D.Ok w a) (hb : D.Ok w b) :
    D.Asks w (Generate.equality a b span) := by
  simp [Asks, Generate.equality, Constraint.equal, Constraint.types, Demand.types, ha, hb]

theorem asks_subtype {a b : Ty} {origin : Origin} {span : Span} (ha : D.Ok w a)
    (hb : D.Ok w b) : D.Asks w (.subtype a b origin span) := by
  simp [Asks, Constraint.subtype, Constraint.types, Demand.types, ha, hb]

theorem ok_curried : ∀ {ts : List Ty} {t : Ty}, (∀ u ∈ ts, D.Ok w u) → D.Ok w t →
    D.Ok w (.curried ts t) := by
  have hfold : ∀ {ts : List Ty} {t : Ty}, (∀ u ∈ ts, D.Ok w u) → D.Ok w t →
      D.Ok w (ts.foldr .fn t) := by
    intro ts t hts ht
    induction ts with
    | nil => exact ht
    | cons u ts ih =>
        exact D.fn.2 ⟨hts u List.mem_cons_self, ih fun v hv => hts v (List.mem_cons_of_mem _ hv)⟩
  intro ts t hts ht
  unfold Ty.curried
  split
  · exact D.fn.2 ⟨D.prim w _, ht⟩
  · exact hfold hts ht

section Generating

open Generate

instance : D.Holding Generating := ⟨fun w g => Holding.At w g.session⟩

/-- A step of the session is a step of inference. -/
theorem Keeps.ofSession {m : StateM Session α} (h : D.Keeps w made m) :
    D.KeepsOk w made (ofSession m) := by
  intro g hg
  obtain ⟨w', hw', hsession, ha⟩ := h g.session hg
  refine ⟨w', hw', hsession, ?_⟩
  rintro a ⟨⟩
  exact ha

theorem KeepsOk.ofSessionM {m : SessionM α} (h : D.KeepsOk w made m) :
    D.KeepsOk w made (ofSessionM m) := by
  unfold Generate.ofSessionM
  refine (Keeps.ofSession h).bind fun r w' _ hr => ?_
  cases r with
  | ok a => exact keepsOk_pure (hr a rfl)
  | error e => exact keepsOk_throw

theorem keepsOk_var (level : Int) :
    D.KeepsOk w (fun w' v => D.Ok w' (.var v)) (Generate.fresh level) :=
  (keeps_freshVar level).ofSession

theorem keepsOk_row (level : Int) :
    D.KeepsOk w (fun w' v => D.Row w' v.id) (Generate.fresh level) :=
  (keeps_freshRow level).ofSession

theorem keepsOk_warn (ds : List Diagnostic) : D.KeepsOk w (fun _ _ => True) (warn ds) :=
  fun _ hg => ⟨w, D.refl w, hg, fun _ _ => trivial⟩

theorem keepsOk_annotated (level : Int) {vars : Table String TyVar} {e : TyExpr}
    (hvars : ∀ entry ∈ vars, D.Ok w (.var entry.2)) :
    D.KeepsOk w (fun w' out => D.Ok w' out.1 ∧ ∀ entry ∈ out.2, D.Ok w' (.var entry.2))
      (Generate.resolve level vars e) := by
  have hget : D.Keeps w (fun _ _ => True)
      (do pure (← get).registry : StateM Session Registry) :=
    keeps_get fun _ _ => keeps_pure trivial
  unfold Generate.resolve
  refine (Keeps.ofSession hget).bind fun registry w' hw' _ => ?_
  exact (keepsOk_resolving (fun entry hentry => (hvars entry hentry).later hw')
    keepsOk_resolve).ofSessionM

theorem keepsOk_literal (level : Int) (span : Span) (kind : LiteralKind) (value : String)
    (isTag : Bool) : D.KeepsOk w D.Types (literal level span kind value isTag) := by
  have hret : ∀ t : Ty, (∀ w' : D.Stage, D.Ok w' t) → D.KeepsOk w D.Types (do
      let ret ← Generate.fresh level
      pure ⟨.var ret, ConstraintSet.empty.add (equality (.var ret) t span)⟩) := fun t ht =>
    (keepsOk_var level).bind fun ret w' _ hret =>
      keepsOk_pure ⟨hret, demands_empty.add (asks_equality hret (ht w'))⟩
  unfold literal
  split
  · exact hret _ fun w' => D.prim w' _
  · exact hret _ fun w' => D.prim w' _
  · exact hret _ fun w' => D.prim w' _
  · refine hret _ fun w' => ?_
    split
    · exact D.lit w' _
    · exact D.prim w' _
  · exact keepsOk_throw

theorem keepsOk_params (level : Int) : ∀ {ps : List Param} {vars : Table String TyVar} {e : Env}
    {w : D.Stage}, (∀ entry ∈ vars, D.Ok w (.var entry.2)) → D.Scopes w e →
    D.KeepsOk w (fun w' out => (∀ t ∈ out.1, D.Ok w' t) ∧ D.Scopes w' out.2)
      (params level ps vars e)
  | [], _, _, w, _, he => keepsOk_pure ⟨by simp, he⟩
  | p :: ps, vars, e, w, hvars, he => by
      have hrest : ∀ (t : Ty) (vars : Table String TyVar) (w' : D.Stage), D.Before w w' →
          D.Ok w' t → (∀ entry ∈ vars, D.Ok w' (.var entry.2)) →
          D.KeepsOk w' (fun w' out => (∀ t ∈ out.1, D.Ok w' t) ∧ D.Scopes w' out.2) (do
            let out ← params level ps vars (e.bindMono p.name t)
            pure (t :: out.1, out.2)) := fun t vars w' hw' ht hvars =>
        (keepsOk_params level hvars ((he.later hw').bindMono ht p.name)).bind
          fun out _ hw'' hout => keepsOk_pure
            ⟨List.forall_mem_cons.2 ⟨ht.later hw'', hout.1⟩, hout.2⟩
      rw [params]
      refine (keepsOk_var level).bind fun v w' hw' hv => ?_
      have hvars' := fun entry hentry => (hvars entry hentry).later hw'
      split
      · exact hrest _ _ w' hw' hv hvars'
      · exact (keepsOk_annotated level hvars').bind fun out w'' hw'' hout =>
          hrest _ _ w'' (hw'.trans hw'') hout.1 hout.2

/-- The types of a pattern and of the names that it binds are in order. -/
def Matches (D : Discipline) (w : D.Stage) (out : Ty × Table String Ty) : Prop :=
  D.Ok w out.1 ∧ ∀ entry ∈ out.2, D.Ok w entry.2

mutual

theorem keepsOk_patternType (level : Int) : ∀ {p : Pattern} {vars : Table String Ty}
    {w : D.Stage}, (∀ entry ∈ vars, D.Ok w entry.2) →
    D.KeepsOk w D.Matches (patternType level p vars)
  | .missing, _, w, _ => by
      rw [patternType]
      exact keepsOk_throw
  | .literal span kind value, vars, w, hvars => by
      rw [patternType.eq_def]
      dsimp only
      split
      · exact keepsOk_pure ⟨D.prim w _, hvars⟩
      · exact keepsOk_pure ⟨D.prim w _, hvars⟩
      · exact keepsOk_pure ⟨D.prim w _, hvars⟩
      · exact keepsOk_pure ⟨D.lit w _, hvars⟩
      · exact keepsOk_throw
  | .var _ name, vars, w, hvars => by
      rw [patternType]
      exact (keepsOk_var level).bind fun v _ hw' hv => keepsOk_pure
        ⟨hv, ok_insert (fun entry hentry => (hvars entry hentry).later hw') hv⟩
  | .wildcard _, vars, w, hvars => by
      rw [patternType]
      exact (keepsOk_var level).bind fun v _ hw' hv => keepsOk_pure
        ⟨hv, fun entry hentry => (hvars entry hentry).later hw'⟩
  | .tuple _ ps, vars, w, hvars => by
      rw [patternType]
      exact (keepsOk_patternTypes level hvars).bind fun out _ _ hout =>
        keepsOk_pure ⟨D.tuple.2 hout.1, hout.2⟩
  | .record _ fs, vars, w, hvars => by
      rw [patternType]
      refine (keepsOk_fieldPatternTypes level (by simp) hvars).bind fun out w' _ hout => ?_
      refine (keepsOk_row level).bind fun row _ hw'' hrow => keepsOk_pure ⟨?_, ?_⟩
      · refine D.record.2 ⟨fun f hf => (hout.1 f hf).later hw'', ?_⟩
        rintro v ⟨⟩
        exact hrow
      · exact fun entry hentry => (hout.2 entry hentry).later hw''

theorem keepsOk_patternTypes (level : Int) : ∀ {ps : List Pattern} {vars : Table String Ty}
    {w : D.Stage}, (∀ entry ∈ vars, D.Ok w entry.2) →
    D.KeepsOk w (fun w' out => (∀ t ∈ out.1, D.Ok w' t) ∧ ∀ entry ∈ out.2, D.Ok w' entry.2)
      (patternTypes level ps vars)
  | [], vars, w, hvars => by
      rw [patternTypes]
      exact keepsOk_pure ⟨by simp, hvars⟩
  | p :: ps, vars, w, hvars => by
      rw [patternTypes]
      refine (keepsOk_patternType level hvars).bind fun out w' _ hout => ?_
      exact (keepsOk_patternTypes level hout.2).bind fun outs _ hw'' houts => keepsOk_pure
        ⟨List.forall_mem_cons.2 ⟨hout.1.later hw'', houts.1⟩, houts.2⟩

theorem keepsOk_fieldPatternTypes (level : Int) : ∀ {fs : List (String × Pattern)}
    {done vars : Table String Ty} {w : D.Stage}, (∀ entry ∈ done, D.Ok w entry.2) →
    (∀ entry ∈ vars, D.Ok w entry.2) →
    D.KeepsOk w (fun w' out => (∀ f ∈ out.1, D.Ok w' f.2) ∧ ∀ entry ∈ out.2, D.Ok w' entry.2)
      (fieldPatternTypes level fs done vars)
  | [], done, vars, w, hdone, hvars => by
      rw [fieldPatternTypes]
      exact keepsOk_pure ⟨hdone, hvars⟩
  | (name, p) :: fs, done, vars, w, hdone, hvars => by
      rw [fieldPatternTypes]
      refine (keepsOk_patternType level hvars).bind fun out w' hw' hout => ?_
      exact keepsOk_fieldPatternTypes level
        (ok_insert (fun f hf => (hdone f hf).later hw') hout.1) hout.2

end

theorem scopes_foldl_bindMono {refined : Table String Ty}
    (hrefined : ∀ entry ∈ refined, D.Ok w entry.2) : ∀ {vars : Table String Ty} {e : Env},
    (∀ entry ∈ vars, D.Ok w entry.2) → D.Scopes w e →
    D.Scopes w (vars.foldl (fun e (name, t) =>
      e.bindMono name ((Table.get? name refined).getD t)) e)
  | [], _, _, he => he
  | (name, t) :: vars, e, hvars, he => by
      rw [List.foldl_cons]
      refine scopes_foldl_bindMono hrefined (fun entry hentry =>
        hvars entry (List.mem_cons_of_mem _ hentry)) (he.bindMono ?_ name)
      cases hget : Table.get? name refined with
      | none => exact hvars _ List.mem_cons_self
      | some u => exact hrefined _ (Table.mem_of_get? hget)

/-- The scope of a case, and the type of its pattern, are in order. -/
theorem keepsOk_caseScope (level : Int) {scrutinee : Ty} {refined : Table String Ty} {e : Env}
    {p : Pattern} (hscrutinee : D.Ok w scrutinee) (hrefined : ∀ entry ∈ refined, D.Ok w entry.2)
    (he : D.Scopes w e) :
    D.KeepsOk w (fun w' out => D.Scopes w' out.1 ∧ ∀ t ∈ out.2.toList, D.Ok w' t)
      (caseScope level scrutinee refined e p) := by
  unfold caseScope
  split
  · exact keepsOk_pure ⟨he.bindMono hscrutinee _, by simp⟩
  · exact keepsOk_pure ⟨he, by simp⟩
  · refine (keepsOk_patternType level (by simp)).bind fun out w' hw' hout => keepsOk_pure ⟨?_, ?_⟩
    · exact scopes_foldl_bindMono (fun entry hentry => (hrefined entry hentry).later hw') hout.2
        (he.later hw')
    · intro t ht
      rw [Option.toList_some, List.mem_singleton] at ht
      exact ht ▸ hout.1

theorem keepsOk_knownShape (limit : Nat) {t : Ty} {cs : ConstraintSet} (ht : D.Ok w t)
    (hcs : D.Demands w cs) : D.KeepsOk w D.Ok (knownShape limit t cs) := by
  refine Keeps.ofSession ((keeps_solve limit hcs).bind fun solution w' hw' hs => ?_)
  split
  · exact keeps_pure (ht.later hw')
  · exact keeps_normalize (hs.apply (ht.later hw'))

/-- Where recursive types show a constructor, analysing a match ends. -/
theorem productive_ok (hheaded : D.headed) : Ty.Productive (D.Ok w) where
  toInherited := inherited_ok
  lowers h := ((D.mu.1 h).2.2 hheaded).tower_unfold_le _

theorem keepsOk_needs_generating {ends : Prop} (h : D.headed → ends) :
    D.KeepsOk w (fun _ _ => True) (Generate.needs ends) := by
  rintro g ⟨hcount, hregistry, hends⟩
  exact ⟨w, D.refl w, ⟨hcount, hregistry, D.ending hends h⟩, fun _ _ => trivial⟩

theorem keepsOk_analyse (span : Span) {known : Ty} (patterns : List Pattern)
    (hknown : D.Ok w known) :
    D.KeepsOk w (fun w' analysis => ∀ refined ∈ analysis.refinements,
      ∀ entry ∈ refined, D.Ok w' entry.2) (analyse span known patterns) := by
  have hrefined : ∀ w' : D.Stage, D.Before w w' →
      ∀ refined ∈ (Analysis.ofMatch known patterns).refinements, ∀ entry ∈ refined,
        D.Ok w' entry.2 := by
    intro w' hw' refined hrefined entry hentry
    obtain ⟨p, -, rfl⟩ := List.mem_map.1 hrefined
    exact inherited_ok.refine (hknown.later hw') p entry hentry
  have hends : D.headed → Analysis.Ends known patterns := fun hheaded p _ =>
    ⟨_, Pattern.comesTo_refine (productive_ok hheaded) hknown p⟩
  unfold analyse
  dsimp only
  refine (keepsOk_needs_generating hends).bind fun _ w' hw' _ => (keepsOk_warn _).bind fun _ w'' hw'' _ => ?_
  have hbefore := hw'.trans hw''
  split
  · exact (keepsOk_warn _).bind fun _ w₃ hw₃ _ => keepsOk_pure (hrefined w₃ (hbefore.trans hw₃))
  · exact keepsOk_pure (hrefined w'' hbefore)

theorem keepsOk_settle (limit : Nat) (e : Env) {typed : Typed} (h : D.Types w typed) :
    D.KeepsOk w D.Quantifies (settle limit e typed) := by
  unfold settle
  refine (Keeps.ofSession (keeps_solve limit h.constraints)).bind fun solution w' hw' hs => ?_
  split
  · exact keepsOk_pure (quantifies_mono (h.ty.later hw'))
  · exact keepsOk_pure (quantifies_generalize (hs.apply (h.ty.later hw')) _)

/-- What a definition comes to once its annotation is resolved and the scope of its value is
set up; `close` adds the constraint that ties a recursive name to the value. -/
theorem keepsOk_bindingValue (limit : Nat) (e : Env) (site : Site) {value : Env → Generate Typed}
    {scope : Env} (declared : Option Ty) (close : Typed → ConstraintSet)
    (hdeclared : ∀ t, declared = some t → D.Ok w t)
    (hclose : ∀ {typed : Typed} {w' : D.Stage}, D.Before w w' → D.Types w' typed →
      D.Demands w' (close typed))
    (hvalue : D.KeepsOk w D.Types (value scope)) :
    D.KeepsOk w (fun w' out => D.Quantifies w' out.1 ∧ D.Demands w' out.2) (do
      let typed ← value scope
      let out : Ty × ConstraintSet := declared.elim (typed.ty, close typed) fun d =>
        (d, (close typed).add (.subtype typed.ty d .written site.span))
      let scheme ← settle limit e ⟨out.1, out.2⟩
      pure (scheme, out.2)) := by
  refine hvalue.bind fun typed w' hw' htyped => ?_
  have hsettle : ∀ typed' : Typed, D.Types w' typed' →
      D.KeepsOk w' (fun w' out => D.Quantifies w' out.1 ∧ D.Demands w' out.2) (do
        let scheme ← settle limit e typed'
        pure (scheme, typed'.constraints)) := fun typed' htyped' =>
    (keepsOk_settle limit e htyped').bind
      fun scheme _ hw'' hscheme => keepsOk_pure ⟨hscheme, htyped'.constraints.later hw''⟩
  have hcs := hclose hw' htyped
  cases declared with
  | none => exact hsettle ⟨_, _⟩ ⟨htyped.ty, hcs⟩
  | some d =>
      have hd := (hdeclared d rfl).later hw'
      exact hsettle ⟨_, _⟩ ⟨hd, hcs.add (asks_subtype htyped.ty hd)⟩

/-- A definition keeps the discipline if its value does, in any scope that is in order. -/
theorem keepsOk_binding (limit : Nat) {e : Env} (level : Int) (site : Site)
    {value : Env → Generate Typed} (he : D.Scopes w e)
    (hvalue : ∀ {e : Env} {w : D.Stage}, D.Scopes w e → D.KeepsOk w D.Types (value e)) :
    D.KeepsOk w (fun w' out => D.Quantifies w' out.1 ∧ D.Demands w' out.2)
      (binding limit e level site value) := by
  -- Whether the definition is recursive is decided after its annotation is resolved.
  have hrest : ∀ (declared : Option Ty) {w' : D.Stage}, D.Before w w' →
      (∀ t, declared = some t → D.Ok w' t) →
      D.KeepsOk w' (fun w' out => D.Quantifies w' out.1 ∧ D.Demands w' out.2) (do
        let placeholder ← if site.isRec then some <$> Generate.fresh (level + 1) else pure none
        let typed ← value (placeholder.elim e fun v => e.bindMono site.name (.var v))
        let cs := placeholder.elim typed.constraints fun v =>
          typed.constraints.add (equality (.var v) typed.ty site.span)
        let out : Ty × ConstraintSet := declared.elim (typed.ty, cs) fun d =>
          (d, cs.add (.subtype typed.ty d .written site.span))
        let scheme ← settle limit e ⟨out.1, out.2⟩
        pure (scheme, out.2)) := by
    intro declared w' hw' hdeclared
    dsimp only
    split
    · rw [← bind_pure_comp, bind_assoc]
      refine (keepsOk_var (level + 1)).bind fun v w'' hw'' hv => ?_
      exact keepsOk_bindingValue limit e site declared
        (fun typed => typed.constraints.add (equality (.var v) typed.ty site.span))
        (fun t ht => (hdeclared t ht).later hw'')
        (fun hw₃ htyped => htyped.constraints.add (asks_equality (hv.later hw₃) htyped.ty))
        (hvalue ((he.later (hw'.trans hw'')).bindMono hv site.name))
    · exact keepsOk_bindingValue limit e site declared (fun typed => typed.constraints) hdeclared
        (fun _ htyped => htyped.constraints) (hvalue (he.later hw'))
  unfold binding
  dsimp only
  split
  · exact hrest none (D.refl w) (by rintro t ⟨⟩)
  · refine (keepsOk_annotated (level + 1) (by simp)).bind fun out w' hw' hout => ?_
    refine hrest (some out.1) hw' ?_
    rintro t ⟨⟩
    exact hout.1

/-! ## Inference -/

/-- What the cases of a match have given so far is in order. -/
structure Collects (D : Discipline) (w : D.Stage) (cases : Cases) : Prop where
  constraints : D.Demands w cases.constraints
  patterns : ∀ t ∈ cases.patterns, D.Ok w t
  results : ∀ t ∈ cases.results, D.Ok w t

theorem Collects.later {cases : Cases} (h : D.Collects w cases) (hw : D.Before w w') :
    D.Collects w' cases :=
  ⟨h.constraints.later hw, fun t ht => (h.patterns t ht).later hw,
    fun t ht => (h.results t ht).later hw⟩

theorem asks_operatorConstraints {rule : BinaryRule} {op : String} {l r ret : Ty}
    {lspan rspan span : Span} (hrule : binaryRule? op = some rule) (hl : D.Ok w l)
    (hr : D.Ok w r) (hret : D.Ok w ret) :
    ∀ c ∈ operatorConstraints rule l r ret lspan rspan span, D.Asks w c := by
  cases rule with
  | comparison =>
      have hclass : D.Asks w (.ofClass l Demand.comparable span) := by
        simp [Asks, Constraint.ofClass, Constraint.types, Demand.types, hl]
      have hbool : D.Ok w .bool := D.prim w "Bool"
      simp [operatorConstraints, asks_equality hl hr, hclass, asks_equality hret hbool]
  | typed operand result =>
      have hprims : D.Ok w operand ∧ D.Ok w result := by
        unfold binaryRule? at hrule
        split_ifs at hrule <;> cases hrule <;> exact ⟨D.prim w _, D.prim w _⟩
      simp [operatorConstraints, asks_equality hl hprims.1, asks_equality hr hprims.1,
        asks_equality hret hprims.2]

theorem ok_unaryType? {op : String} {t : Ty} (h : unaryType? op = some t) : D.Ok w t := by
  unfold unaryType? at h
  split_ifs at h <;> cases h <;> exact D.prim w _

theorem keepsOk_closeMatch (level : Int) (span : Span) {scrutinee : Ty} (patterns : List Pattern)
    {cases : Cases} (hscrutinee : D.Ok w scrutinee) (h : D.Collects w cases) :
    D.KeepsOk w D.Types (closeMatch level span scrutinee patterns cases) := by
  have hholds : D.Asks w ⟨.holds scrutinee cases.patterns, .inference, span⟩ := by
    simpa [Asks, Constraint.types, Demand.types, hscrutinee] using h.patterns
  have hexhaustive : D.Asks w ⟨.exhaustive scrutinee patterns, .inference, span⟩ := by
    simp [Asks, Constraint.types, Demand.types, hscrutinee]
  have hcs : D.Demands w (ConstraintSet.add (if cases.patterns.isEmpty then cases.constraints
      else cases.constraints.add ⟨.holds scrutinee cases.patterns, .inference, span⟩)
        ⟨.exhaustive scrutinee patterns, .inference, span⟩) := by
    refine Demands.add ?_ hexhaustive
    split
    · exact h.constraints
    · exact h.constraints.add hholds
  unfold closeMatch
  dsimp only
  split
  · exact keepsOk_pure ⟨D.prim w _, hcs⟩
  · refine (keepsOk_var level).bind fun ret w' hw' hret => keepsOk_pure ⟨hret, ?_⟩
    refine (hcs.later hw').add ?_
    simpa [Asks, Constraint.types, Demand.types, hret] using (h.later hw').results

theorem keepsOk_instantiate {scheme : Scheme} (h : D.Quantifies w scheme) (level : Int) :
    D.KeepsOk w D.Ok (Generate.ofSession (modifyGet fun s : Session =>
      let (t, supply) := scheme.instantiate level s.supply
      (t, { s with supply }))) := by
  refine Keeps.ofSession ?_
  rintro σ ⟨hcount, hregistry, hends⟩
  obtain ⟨w', hw', hcount', ht⟩ := exists_instantiate h level hcount
  exact ⟨w', hw', ⟨hcount', hregistry.later hw', hends⟩, ht⟩

mutual

/-- Inferring an expression keeps the discipline. -/
theorem keepsOk_infer (limit : Nat) : ∀ {x : Expr} {e : Env} {level : Int} {w : D.Stage},
    D.Scopes w e → D.KeepsOk w D.Types (infer limit e level x)
  | .missing, e, level, w, _ => by
      rw [infer]
      exact keepsOk_throw
  | .literal span kind value, e, level, w, _ => by
      rw [infer]
      exact keepsOk_literal level span kind value false
  | .var span name, e, level, w, he => by
      rw [infer]
      split
      · exact keepsOk_throw
      · next scheme hscheme =>
          refine (keepsOk_var level).bind fun ret w₁ hw₁ hret => ?_
          refine (keepsOk_instantiate ((he.lookup? hscheme).later hw₁) level).bind
            fun t w₂ hw₂ ht => keepsOk_pure ⟨hret.later hw₂, ?_⟩
          exact demands_empty.add (asks_equality (hret.later hw₂) ht)
  | .call span f args, e, level, w, he => by
      rw [infer]
      refine (keepsOk_infer limit he).bind fun ft w₁ hw₁ hft => ?_
      refine (keepsOk_inferAll limit (he.later hw₁) hft.constraints).bind
        fun out w₂ hw₂ hout => ?_
      refine (keepsOk_var level).bind fun ret w₃ hw₃ hret => keepsOk_pure ⟨hret, ?_⟩
      refine (hout.2.later hw₃).add (asks_equality (hft.ty.later (hw₂.trans hw₃)) ?_)
      exact ok_curried (fun t ht => (hout.1 t ht).later hw₃) hret
  | .binary span op l r, e, level, w, he => by
      rw [infer]
      split
      · exact keepsOk_throw
      · next rule hrule =>
          refine (keepsOk_infer limit he).bind fun lt w₁ hw₁ hlt => ?_
          refine (keepsOk_infer limit (he.later hw₁)).bind fun rt w₂ hw₂ hrt => ?_
          refine (keepsOk_var level).bind fun ret w₃ hw₃ hret => keepsOk_pure ⟨hret, ?_⟩
          refine Demands.foldl_add ((hlt.constraints.later (hw₂.trans hw₃)).union
            (hrt.constraints.later hw₃)) ?_
          exact asks_operatorConstraints hrule (hlt.ty.later (hw₂.trans hw₃))
            (hrt.ty.later hw₃) hret
  | .unary span op x, e, level, w, he => by
      rw [infer]
      refine (keepsOk_infer limit he).bind fun t w₁ hw₁ ht => ?_
      dsimp only
      split
      · exact keepsOk_throw
      · next u hu =>
          refine (keepsOk_var level).bind fun ret w₂ hw₂ hret => keepsOk_pure ⟨hret, ?_⟩
          exact ((ht.constraints.later hw₂).add
            (asks_equality (ht.ty.later hw₂) (ok_unaryType? hu))).add
              (asks_equality hret (ok_unaryType? hu))
  | .cond span c t f, e, level, w, he => by
      rw [infer]
      refine (keepsOk_infer limit he).bind fun ct w₁ hw₁ hct => ?_
      refine (keepsOk_infer limit (he.later hw₁)).bind fun tt w₂ hw₂ htt => ?_
      refine (keepsOk_infer limit (he.later (hw₁.trans hw₂))).bind fun ft w₃ hw₃ hft => ?_
      refine (keepsOk_var level).bind fun ret w₄ hw₄ hret => keepsOk_pure ⟨hret, ?_⟩
      have hw₃₄ := hw₃.trans hw₄
      have hw₂₄ := hw₂.trans hw₃₄
      refine ((((hct.constraints.later hw₂₄).union (htt.constraints.later hw₃₄)).union
        (hft.constraints.later hw₄)).add (asks_equality (hct.ty.later hw₂₄) (D.prim w₄ _))).add ?_
      simp [Asks, Constraint.types, Demand.types, hret, htt.ty.later hw₃₄, hft.ty.later hw₄]
  | .lambda span ps body, e, level, w, he => by
      rw [infer]
      refine (keepsOk_params level (by simp) he).bind fun out w₁ hw₁ hout => ?_
      refine (keepsOk_infer limit hout.2).bind fun t w₂ hw₂ ht => ?_
      refine (keepsOk_var level).bind fun ret w₃ hw₃ hret => keepsOk_pure ⟨hret, ?_⟩
      refine (ht.constraints.later hw₃).add (asks_equality hret (ok_curried ?_ (ht.ty.later hw₃)))
      exact fun u hu => (hout.1 u hu).later (hw₂.trans hw₃)
  | .letIn span name isRec written value body, e, level, w, he => by
      rw [infer]
      refine (keepsOk_binding limit level _ he fun he' => keepsOk_infer limit he').bind
        fun out w₁ hw₁ hout => ?_
      refine (keepsOk_infer limit ((he.later hw₁).bind hout.1 name)).bind
        fun t w₂ hw₂ ht => keepsOk_pure ⟨ht.ty, ?_⟩
      exact (hout.2.later hw₂).union ht.constraints
  | .record span fields spreads, e, level, w, he => by
      rw [infer]
      refine (keepsOk_inferFields limit he (by simp) demands_empty).bind fun out w₁ hw₁ hout => ?_
      dsimp only
      split
      · exact keepsOk_pure ⟨D.record.2 ⟨hout.1, by rintro v ⟨⟩⟩, hout.2⟩
      · refine (keepsOk_inferSpreads limit (he.later hw₁) hout.2).bind fun outs w₂ hw₂ houts => ?_
        refine (keepsOk_var level).bind fun ret w₃ hw₃ hret => keepsOk_pure ⟨hret, ?_⟩
        have hexplicit : D.Ok w₃ (RecordTy.mk out.1 none).toTy :=
          D.record.2 ⟨fun f hf => (hout.1 f hf).later (hw₂.trans hw₃), by rintro v ⟨⟩⟩
        refine (houts.2.later hw₃).add ?_
        simpa [Asks, Constraint.types, Demand.types, hret, hexplicit] using
          fun t ht => (houts.1 t ht).later hw₃
  | .select span x field, e, level, w, he => by
      rw [infer]
      refine (keepsOk_infer limit he).bind fun t w₁ hw₁ ht => ?_
      refine (keepsOk_var level).bind fun ret w₂ hw₂ hret => ?_
      refine (keepsOk_row level).bind fun row w₃ hw₃ hrow =>
        keepsOk_pure ⟨hret.later hw₃, ?_⟩
      refine (ht.constraints.later (hw₂.trans hw₃)).add
        (asks_equality (ht.ty.later (hw₂.trans hw₃)) (D.record.2 ⟨?_, ?_⟩))
      · simpa using hret.later hw₃
      · rintro v ⟨⟩
        exact hrow
  | .tuple span xs, e, level, w, he => by
      rw [infer]
      refine (keepsOk_inferAll limit he demands_empty).bind fun out w₁ hw₁ hout => ?_
      refine (keepsOk_var level).bind fun ret w₂ hw₂ hret => keepsOk_pure ⟨hret, ?_⟩
      exact (hout.2.later hw₂).add (asks_equality hret
        (D.tuple.2 fun t ht => (hout.1 t ht).later hw₂))
  | .caseOf span value arms, e, level, w, he => by
      rw [infer]
      refine (keepsOk_infer limit he).bind fun t w₁ hw₁ ht => ?_
      refine (keepsOk_knownShape limit ht.ty ht.constraints).bind fun known w₂ hw₂ hknown => ?_
      refine (keepsOk_analyse span _ hknown).bind fun analysis w₃ hw₃ hrefined => ?_
      have hw₁₃ := hw₂.trans hw₃
      have hstart : D.Collects w₃ { constraints := t.constraints } :=
        ⟨ht.constraints.later hw₁₃, by simp, by simp⟩
      refine (keepsOk_inferArms limit (he.later (hw₁.trans hw₁₃)) (ht.ty.later hw₁₃) hrefined
        hstart).bind fun cases w₄ hw₄ hcases => ?_
      exact keepsOk_closeMatch level span _ (ht.ty.later (hw₁₃.trans hw₄)) hcases
  | .ascribe span x written, e, level, w, he => by
      rw [infer]
      refine (keepsOk_infer limit he).bind fun t w₁ hw₁ ht => ?_
      refine (keepsOk_annotated level (by simp)).bind fun out w₂ hw₂ hout =>
        keepsOk_pure ⟨hout.1, ?_⟩
      exact (ht.constraints.later hw₂).add (asks_subtype (ht.ty.later hw₂) hout.1)

theorem keepsOk_inferAll (limit : Nat) : ∀ {xs : List Expr} {e : Env} {level : Int}
    {cs : ConstraintSet} {w : D.Stage}, D.Scopes w e → D.Demands w cs →
    D.KeepsOk w (fun w' out => (∀ t ∈ out.1, D.Ok w' t) ∧ D.Demands w' out.2)
      (inferAll limit e level xs cs)
  | [], e, level, cs, w, _, hcs => by
      rw [inferAll]
      exact keepsOk_pure ⟨by simp, hcs⟩
  | x :: xs, e, level, cs, w, he, hcs => by
      rw [inferAll]
      refine (keepsOk_infer limit he).bind fun t w₁ hw₁ ht => ?_
      refine (keepsOk_inferAll limit (he.later hw₁)
        ((hcs.later hw₁).union ht.constraints)).bind fun out _ hw₂ hout => keepsOk_pure ?_
      exact ⟨List.forall_mem_cons.2 ⟨ht.ty.later hw₂, hout.1⟩, hout.2⟩

theorem keepsOk_inferSpreads (limit : Nat) : ∀ {xs : List Expr} {e : Env} {level : Int}
    {cs : ConstraintSet} {w : D.Stage}, D.Scopes w e → D.Demands w cs →
    D.KeepsOk w (fun w' out => (∀ t ∈ out.1, D.Ok w' t) ∧ D.Demands w' out.2)
      (inferSpreads limit e level xs cs)
  | [], e, level, cs, w, _, hcs => by
      rw [inferSpreads]
      exact keepsOk_pure ⟨by simp, hcs⟩
  | x :: xs, e, level, cs, w, he, hcs => by
      rw [inferSpreads]
      refine (keepsOk_infer limit he).bind fun t w₁ hw₁ ht => ?_
      have hshape : D.Asks w₁ ⟨.recordShape t.ty, .inference, x.span⟩ := by
        simp [Asks, Constraint.types, Demand.types, ht.ty]
      refine (keepsOk_inferSpreads limit (he.later hw₁)
        (((hcs.later hw₁).union ht.constraints).add hshape)).bind
          fun out _ hw₂ hout => keepsOk_pure ?_
      exact ⟨List.forall_mem_cons.2 ⟨ht.ty.later hw₂, hout.1⟩, hout.2⟩

theorem keepsOk_inferFields (limit : Nat) : ∀ {fs : List (Labelled Expr)} {e : Env} {level : Int}
    {done : Table String Ty} {cs : ConstraintSet} {w : D.Stage}, D.Scopes w e →
    (∀ f ∈ done, D.Ok w f.2) → D.Demands w cs →
    D.KeepsOk w (fun w' out => (∀ f ∈ out.1, D.Ok w' f.2) ∧ D.Demands w' out.2)
      (inferFields limit e level fs done cs)
  | [], e, level, done, cs, w, _, hdone, hcs => by
      rw [inferFields]
      exact keepsOk_pure ⟨hdone, hcs⟩
  | ⟨span, name, x⟩ :: fs, e, level, done, cs, w, he, hdone, hcs => by
      have hrest : ∀ (t : Typed) (w₁ : D.Stage), D.Before w w₁ → D.Types w₁ t →
          D.KeepsOk w₁ (fun w' out => (∀ f ∈ out.1, D.Ok w' f.2) ∧ D.Demands w' out.2)
            (inferFields limit e level fs (Table.insert name t.ty done)
              (cs.union t.constraints)) := fun t w₁ hw₁ ht =>
        keepsOk_inferFields limit (he.later hw₁)
          (ok_insert (fun f hf => (hdone f hf).later hw₁) ht.ty)
          ((hcs.later hw₁).union ht.constraints)
      rw [inferFields]
      dsimp only
      split
      · exact keepsOk_throw
      · split
        · exact (keepsOk_literal level _ _ _ true).bind hrest
        · exact (keepsOk_infer limit he).bind hrest

theorem keepsOk_inferArms (limit : Nat) : ∀ {arms : List (Arm Expr)} {e : Env} {level : Int}
    {scrutinee : Ty} {refinements : List (Table String Ty)} {cases : Cases} {w : D.Stage},
    D.Scopes w e → D.Ok w scrutinee →
    (∀ refined ∈ refinements, ∀ entry ∈ refined, D.Ok w entry.2) → D.Collects w cases →
    D.KeepsOk w D.Collects (inferArms limit e level scrutinee refinements arms cases)
  | [], e, level, scrutinee, refinements, cases, w, _, _, _, hcases => by
      rw [inferArms]
      exact keepsOk_pure hcases
  | ⟨_, p, x⟩ :: arms, e, level, scrutinee, refinements, cases, w, he, hscrutinee, hrefined,
      hcases => by
      have hhead : ∀ entry ∈ refinements.headD [], D.Ok w entry.2 := by
        cases refinements with
        | nil => simp
        | cons refined _ => exact hrefined refined List.mem_cons_self
      rw [inferArms]
      refine (keepsOk_caseScope level hscrutinee hhead he).bind fun scope w₁ hw₁ hscope => ?_
      refine (keepsOk_infer limit hscope.1).bind fun t w₂ hw₂ ht => ?_
      have hw₁₂ := hw₁.trans hw₂
      have hcases' := hcases.later hw₁₂
      refine keepsOk_inferArms limit (he.later hw₁₂) (hscrutinee.later hw₁₂) ?_ ⟨?_, ?_, ?_⟩
      · exact fun refined hmem entry hentry =>
          (hrefined refined (List.mem_of_mem_tail hmem) entry hentry).later hw₁₂
      · exact hcases'.constraints.union ht.constraints
      · intro u hu
        rcases List.mem_append.1 hu with hu | hu
        · exact hcases'.patterns u hu
        · exact (hscope.2 u hu).later hw₂
      · intro u hu
        rcases List.mem_append.1 hu with hu | hu
        · exact hcases'.results u hu
        · rw [List.mem_singleton.1 hu]
          exact ht.ty

end

/-- A step of inference in a session keeps the discipline as the step does. -/
theorem keeps_generating {m : Generate α} (h : D.KeepsOk w made m) :
    D.Keeps w (fun w' out => ∀ a, out.1 = .ok a → made w' a) (Session.generating m) :=
  fun σ hσ => h { session := σ } hσ

/-- The type and the constraints of an expression are in order. -/
theorem keeps_generate (limit : Nat) {e : Env} (he : D.Scopes w e) (x : Expr) :
    D.Keeps w (fun w' out => ∀ typed, out.1 = .ok typed → D.Types w' typed)
      (Session.generate limit e x) := keeps_generating (keepsOk_infer limit he)

/-- The scheme and the constraints of a definition are in order. -/
theorem keeps_generateDecl (limit : Nat) {e : Env} (he : D.Scopes w e) (d : LetDecl) :
    D.Keeps w (fun w' out => ∀ found, out.1 = .ok found →
      D.Quantifies w' found.1 ∧ D.Demands w' found.2) (Session.generateDecl limit e d) :=
  keeps_generating (keepsOk_binding limit 0 _ he fun he' => keepsOk_infer limit he')

end Generating

/-! ## Checking -/

section Checking

open Checker

instance : D.Holding Checker := ⟨fun w c => Holding.At w c.session ∧ D.Scopes w c.env⟩

theorem Keeps.inSession {m : StateM Session α} (h : D.Keeps w made m) :
    D.Keeps w made (inSession m) := by
  rintro c ⟨hsession, henv⟩
  obtain ⟨w', hw', hsession', ha⟩ := h c.session hsession
  exact ⟨w', hw', ⟨hsession', henv.later hw'⟩, ha⟩

/-- What checking an expression finds is in order. -/
structure Finds (D : Discipline) (w : D.Stage) (checked : Checked) : Prop where
  ty : D.Ok w checked.ty
  subst : D.Sends w checked.subst

theorem keeps_checkExpr (x : Expr) :
    D.Keeps w (fun w' r => ∀ checked, r = .ok checked → D.Finds w' checked) (checkExpr x) := by
  unfold checkExpr
  refine keeps_get ?_
  rintro c ⟨hsession, henv⟩
  refine (keeps_generate c.limit henv x).inSession.bind fun out w₁ hw₁ hout => ?_
  dsimp only
  split
  · exact keeps_pure (by rintro checked ⟨⟩)
  · next typed htyped =>
      have ht := hout typed htyped
      refine (keeps_solve c.limit ht.constraints).inSession.bind fun solution w₂ hw₂ hs => ?_
      split
      · exact keeps_pure (by rintro checked ⟨⟩)
      · refine keeps_pure ?_
        rintro checked ⟨⟩
        exact ⟨hs.apply (ht.ty.later hw₂), hs⟩

theorem keeps_checkLet (d : LetDecl) :
    D.Keeps w (fun w' out => ∀ scheme, out.1 = .ok scheme → D.Quantifies w' scheme)
      (checkLet d) := by
  unfold checkLet
  refine keeps_get ?_
  rintro c ⟨hsession, henv⟩
  refine (keeps_generateDecl c.limit henv d).inSession.bind fun out w₁ hw₁ hout => ?_
  dsimp only
  split
  · exact keeps_pure (by rintro scheme ⟨⟩)
  · next scheme cs hok =>
      obtain ⟨hscheme, hcs⟩ := hout _ hok
      refine (keeps_solve c.limit hcs).inSession.bind fun solution w₂ hw₂ hs => ?_
      split
      · exact keeps_pure (by rintro scheme ⟨⟩)
      · refine keeps_pure ?_
        rintro scheme ⟨⟩
        exact hscheme.later hw₂

theorem keeps_anything : D.Keeps w D.Quantifies anything := by
  refine Keeps.inSession ?_
  rintro σ ⟨hcount, hregistry, hends⟩
  obtain ⟨w', hw', hcount', hv⟩ := D.exists_var w 0
  rw [hcount] at hcount' hv
  refine ⟨w', hw', ⟨hcount', hregistry.later hw', hends⟩, ⟨fun v hmem => ?_, hv⟩⟩
  rw [List.mem_singleton.1 hmem]
  exact .inl (D.plain_of_var hv)

theorem keeps_declareTypes : ∀ {ds : List Decl} {w : D.Stage},
    (D.headed → ∀ d ∈ ds, d.isOvert = true) → D.Keeps w (fun _ _ => True) (declareTypes ds)
  | [], w, _ => keeps_pure trivial
  | d :: ds, w, hds => by
      have hovert : D.headed → d.isOvert = true := fun hheaded => hds hheaded d List.mem_cons_self
      have hrest : ∀ (failure : Option Diagnostic) (w' : D.Stage),
          D.Keeps w' (fun _ _ => True) (do
            let failures ← declareTypes ds
            pure (failure :: failures)) := fun failure w' =>
        (keeps_declareTypes fun hheaded d hd => hds hheaded d (List.mem_cons_of_mem _ hd)).bind
          fun _ _ _ _ => keeps_pure trivial
      rw [declareTypes.eq_def]
      dsimp only
      split
      · next t =>
          refine (Keeps.inSession (keepsOk_declare hovert)).bind fun r w' _ _ => ?_
          split
          · exact hrest _ _
          · exact hrest _ _
      · exact hrest _ _

theorem keeps_bindName {scheme : Scheme} (h : D.Quantifies w scheme) (name : String) :
    D.Keeps w (fun _ _ => True) (modify fun c : Checker =>
      { c with env := c.env.bind name scheme } : StateM Checker PUnit) :=
  fun _ hc => ⟨w, D.refl w, ⟨hc.1, hc.2.bind h name⟩, trivial⟩

theorem keeps_checkDecl (d : Decl) (declared : Option Diagnostic) :
    D.Keeps w (fun w' out => ∀ scheme, out.1 = .ok (some scheme) → D.Quantifies w' scheme)
      (checkDecl d declared) := by
  unfold checkDecl
  split
  · exact keeps_pure (by rintro scheme ⟨⟩)
  · split
    · exact keeps_pure (by rintro scheme ⟨⟩)
    · exact keeps_pure (by rintro scheme ⟨⟩)
  · next l =>
      refine (keeps_checkLet l).bind fun out w₁ hw₁ hout => ?_
      dsimp only
      split
      · next scheme hok =>
          have hscheme := hout scheme hok
          refine (keeps_bindName hscheme l.name).bind fun _ w₂ hw₂ _ => keeps_pure ?_
          rintro scheme' ⟨⟩
          exact hscheme.later hw₂
      · refine keeps_anything.bind fun scheme w₂ hw₂ hscheme => ?_
        exact (keeps_bindName hscheme l.name).bind fun _ _ _ _ =>
          keeps_pure (by rintro scheme' ⟨⟩)
  · next x =>
      refine (keeps_checkExpr x).bind fun r w₁ _ hr => ?_
      split
      · next checked =>
          refine keeps_pure ?_
          rintro scheme ⟨⟩
          exact quantifies_mono (hr checked rfl).ty
      · exact keeps_pure (by rintro scheme ⟨⟩)

theorem keeps_checkDecls : ∀ {ds : List (Decl × Option Diagnostic)} {w : D.Stage},
    D.Keeps w (fun w' outs => ∀ out ∈ outs, ∀ scheme, out.1 = .ok (some scheme) →
      D.Quantifies w' scheme) (checkDecls ds)
  | [], w => keeps_pure (by simp)
  | (d, declared) :: ds, w => by
      rw [checkDecls]
      refine (keeps_checkDecl d declared).bind fun out w' _ hout => ?_
      exact keeps_checkDecls.bind fun outs _ hw'' houts => keeps_pure (List.forall_mem_cons.2
        ⟨fun scheme hs => (hout scheme hs).later hw'', houts⟩)

/-- What checking a program finds is in order. -/
structure Reports (D : Discipline) (w : D.Stage) (result : ProgramResult) : Prop where
  outcomes : ∀ scheme, .ok (some scheme) ∈ result.outcomes → D.Quantifies w scheme
  env : D.Scopes w result.env

theorem keeps_checkProgram (p : Program) (hp : D.headed → ∀ d ∈ p.decls, d.isOvert = true) :
    D.Keeps w D.Reports (checkProgram p) := by
  unfold checkProgram
  refine (keeps_declareTypes hp).bind fun failures w₁ _ _ => ?_
  refine keeps_checkDecls.bind fun outs w₂ _ houts => keeps_get fun c hc => keeps_pure ⟨?_, hc.2⟩
  intro scheme hscheme
  obtain ⟨out, hout, hok⟩ := List.mem_map.1 hscheme
  exact houts out hout scheme hok

/-- A checker starts in order, with or without the prelude. -/
theorem exists_at_start (hw : D.count w = 0)
    (hends : D.Ending True) (withPrelude : Bool) (maxDepth : Int) :
    ∃ w' : D.Stage, Holding.At w' (start withPrelude maxDepth) := by
  have hregistry : ∀ w : D.Stage, D.Registers w {} := fun _ =>
    ⟨by rintro entry ⟨⟩, by rintro entry ⟨⟩⟩
  cases withPrelude with
  | false => exact ⟨w, ⟨hw, hregistry w, hends⟩, scopes_empty⟩
  | true =>
      obtain ⟨w₁, hw₁, hcount₁, hv₁⟩ := D.exists_var w 0
      obtain ⟨w₂, hw₂, hcount₂, hv₂⟩ := D.exists_var w₁ 0
      obtain ⟨w₃, hw₃, hcount₃, hv₃⟩ := D.exists_var w₂ 0
      rw [hw] at hcount₁ hv₁
      rw [hcount₁] at hcount₂ hv₂
      rw [hcount₂] at hcount₃ hv₃
      have hforAll : ∀ {v : TyVar} {body : Ty}, D.Ok w₃ (.var v) → D.Ok w₃ body →
          D.Quantifies w₃ ⟨[v], body⟩ := fun hv hbody =>
        ⟨fun u hu => .inl (List.mem_singleton.1 hu ▸ D.plain_of_var hv), hbody⟩
      have hv₁' := hv₁.later (hw₂.trans hw₃)
      have hv₂' := hv₂.later hw₃
      refine ⟨w₃, ⟨hcount₃, hregistry w₃, hends⟩, ?_⟩
      exact ((((scopes_empty.bind
        (hforAll hv₁' (D.fn.2 ⟨hv₁', D.prim w₃ _⟩)) "print").bind
        (hforAll hv₂' (D.fn.2 ⟨hv₂', D.prim w₃ _⟩)) "show").bind
        (hforAll hv₃ (D.fn.2 ⟨hv₃, hv₃⟩)) "identity").bindMono
        (D.fn.2 ⟨D.prim w₃ _, D.prim w₃ _⟩) "length").bindMono
        (D.fn.2 ⟨D.prim w₃ _, D.prim w₃ _⟩) "not"

end Checking

end Discipline

end RowTypes
