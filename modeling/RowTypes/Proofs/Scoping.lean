import RowTypes.Proofs.Derivations
import RowTypes.Proofs.HeadExpansion
import RowTypes.Proofs.Resolution

/-!
# Names and their scopes

Inference looks a name up where it stands, in the environment that the binders around it have made,
and stops at the first name that it does not find.  So when it complains about a name, that name is
free in the expression and out of scope, and when it gets through, every free name is in scope.

Environments grow in five places: for the value of a recursive definition, for what follows a
definition, for the parameters of a function, and for the names of a pattern, at its top or below.
At each of them all that matters is which names the new environment has (`Env.Adds`), so one rule
(`LooksUp.under`) takes the names that a binder adds away from those that are looked up in its
scope.  Everything else that inference does on the way, meeting demands early, analysing cases and
resolving annotations, looks no name up and never complains about one.
-/

namespace RowTypes

theorem Table.mem_keys_insert {κ α : Type} [LT κ] [DecidableLT κ] [DecidableEq κ] {j k : κ} {a : α}
    {t : Table κ α} : j ∈ (Table.insert k a t).keys ↔ j = k ∨ j ∈ t.keys := by
  by_cases h : j = k
  · simp [← Table.get?_isSome, h]
  · simp [← Table.get?_isSome, Table.get?_insert_of_ne h, h]

namespace Env

/-- The name is in scope. -/
def Binds (e : Env) (name : String) : Prop := (e.lookup? name).isSome = true

/-- The first environment has the names of the second one, and the given ones. -/
def Adds (e' e : Env) (names : List String) : Prop :=
  ∀ name, e'.Binds name ↔ name ∈ names ∨ e.Binds name

variable {e e' e'' : Env} {xs ys : List String}

theorem binds_bind {name other : String} {s : Scheme} :
    (e.bind name s).Binds other ↔ other = name ∨ e.Binds other := by
  unfold Binds lookup? bind
  rw [Table.get?_isSome, Table.get?_isSome, Table.mem_keys_insert]

theorem adds_nil (e : Env) : e.Adds e [] := by simp [Adds]

theorem adds_bind (e : Env) (name : String) (s : Scheme) : (e.bind name s).Adds e [name] := by
  simp [Adds, binds_bind]

/-- Names are added in any order. -/
theorem Adds.trans (h : e''.Adds e' ys) (h' : e'.Adds e xs) : e''.Adds e (xs ++ ys) := by
  intro name
  rw [h, h', List.mem_append]
  tauto

theorem adds_foldl_bindMono (f : String × Ty → Ty) : ∀ (vars : Table String Ty) (e : Env),
    (vars.foldl (fun e entry => e.bindMono entry.1 (f entry)) e).Adds e vars.keys
  | [], e => adds_nil e
  | entry :: vars, e =>
      (adds_foldl_bindMono f vars (e.bindMono entry.1 (f entry))).trans
        (adds_bind e entry.1 (.mono (f entry)))

end Env

namespace Resolve

/-- Annotations have type variables and names of types, and no variables. -/
theorem Refused.cause_ne {d : Diagnostic} (h : Refused d) (name : String) :
    d.cause ≠ .undefinedVariable name := by
  cases h <;> nofun

end Resolve

namespace Generate

variable {α β : Type} {e e' : Env} {names more : List String} {made : α → Prop} {made' : β → Prop}
  {m : Generate α} {f : α → Generate β}

/-- A step that looks names up in an environment.  It gets through only if all of them are in
scope, with something as described, and complains about an undefined variable only if that is one
of the names and out of scope. -/
def LooksUp (e : Env) (names : List String) (made : α → Prop) (m : Generate α) : Prop :=
  ∀ g, Ends m g (fun a _ => (∀ name ∈ names, e.Binds name) ∧ made a)
    fun d _ => ∀ name, d.cause = .undefinedVariable name → name ∈ names ∧ ¬ e.Binds name

theorem looksUp_pure {a : α} (h : made a) : LooksUp e [] made (pure a) :=
  fun _ => ends_pure ⟨by simp, h⟩

theorem looksUp_throw {d : Diagnostic} (h : ∀ name, d.cause ≠ .undefinedVariable name) :
    LooksUp e names made (throw d) := fun _ => ends_throw fun name hname => absurd hname (h name)

theorem LooksUp.bind (h : LooksUp e names made m) (hf : ∀ a, made a → LooksUp e more made' (f a)) :
    LooksUp e (names ++ more) made' (m >>= f) := by
  refine fun g => Ends.bind ((h g).imp (fun a g₁ ha => ?_) fun d _ hd name hname => ?_)
  · refine (hf a ha.2 g₁).imp (fun b _ hb => ⟨?_, hb.2⟩) fun d _ hd name hname => ?_
    · exact List.forall_mem_append.2 ⟨ha.1, hb.1⟩
    · exact (hd name hname).imp_left (List.mem_append_right _)
  · exact (hd name hname).imp_left (List.mem_append_left _)

/-- Nothing is looked up before. -/
theorem LooksUp.before (h : LooksUp e [] made m) (hf : ∀ a, made a → LooksUp e names made' (f a)) :
    LooksUp e names made' (m >>= f) := h.bind hf

/-- Nothing is looked up afterwards. -/
theorem LooksUp.done (h : LooksUp e names made m) (hf : ∀ a, made a → LooksUp e [] made' (f a)) :
    LooksUp e names made' (m >>= f) := List.append_nil names ▸ h.bind hf

/-- In a scope that has more names, those are not looked up outside. -/
theorem LooksUp.under (hadds : e'.Adds e more) (h : LooksUp e' names made m) :
    LooksUp e (names.filter (· ∉ more)) made m := by
  refine fun g => (h g).imp (fun a _ ha => ⟨fun name hname => ?_, ha.2⟩) fun d _ hd name hname => ?_
  · obtain ⟨hmem, hnot⟩ := List.mem_filter.1 hname
    exact ((hadds name).1 (ha.1 name hmem)).resolve_left (by simpa using hnot)
  · obtain ⟨hmem, hunbound⟩ := hd name hname
    rw [hadds, not_or] at hunbound
    exact ⟨List.mem_filter.2 ⟨hmem, by simpa using hunbound.1⟩, hunbound.2⟩

/-- What is in scope may be looked up as well. -/
theorem LooksUp.found {name : String} (h : LooksUp e [] made m) (hbinds : e.Binds name) :
    LooksUp e [name] made m :=
  fun g => (h g).imp (fun a _ ha => ⟨by simpa using hbinds, ha.2⟩)
    fun _ _ hd other hother => absurd (hd other hother).1 List.not_mem_nil

theorem LooksUp.under_bind {name : String} {s : Scheme} (h : LooksUp (e.bind name s) names made m) :
    LooksUp e (names.filter (· ≠ name)) made m := by
  simpa only [List.mem_singleton] using h.under (e.adds_bind name s)

/-! ## Steps that look nothing up -/

theorem looksUp_ofSession (m : StateM Session α) : LooksUp e [] (fun _ => True) (ofSession m) :=
  fun _ => ends_ofSession ⟨by simp, trivial⟩

theorem looksUp_fresh (level : Int) : LooksUp e [] (fun _ => True) (fresh level) :=
  looksUp_ofSession _

theorem looksUp_ofSessionM {m : SessionM α}
    (h : ∀ s, Ends m s (fun _ _ => True) fun d _ => Resolve.Refused d) :
    LooksUp e [] (fun _ => True) (ofSessionM m) := by
  refine fun g => Ends.bind (ends_ofSession ?_)
  have hends := h g.session
  unfold Ends at hends
  split at hends
  · next a s hrun =>
      rw [StateT.run, hrun]
      exact ends_pure ⟨by simp, trivial⟩
  · next d s hrun =>
      rw [StateT.run, hrun]
      exact ends_throw fun name hname => absurd hname (hends.cause_ne name)

theorem looksUp_resolve (level : Int) (vars : Table String TyVar) (written : TyExpr) :
    LooksUp e [] (fun _ => True) (resolve level vars written) := by
  unfold resolve
  exact (looksUp_ofSession _).before fun registry _ => looksUp_ofSessionM fun _ =>
    Session.ends_resolving (Resolve.refuses_resolve written _)

theorem looksUp_literal (level : Int) (span : Span) (kind : LiteralKind) (value : String)
    (isTag : Bool) : LooksUp e [] (fun _ => True) (literal level span kind value isTag) := by
  have hret : ∀ t : Ty, LooksUp e [] (fun _ => True) (do
      let ret ← fresh level
      pure ⟨.var ret, ConstraintSet.empty.add (equality (.var ret) t span)⟩ : Generate Typed) :=
    fun t => (looksUp_fresh level).before fun _ _ => looksUp_pure trivial
  unfold literal
  split
  · exact hret _
  · exact hret _
  · exact hret _
  · exact hret _
  · exact looksUp_throw fun _ h => by cases h

theorem looksUp_warn (ds : List Diagnostic) : LooksUp e [] (fun _ => True) (warn ds) :=
  fun _ => ends_lift ⟨by simp, trivial⟩

theorem looksUp_needs (ends : Prop) : LooksUp e [] (fun _ => True) (needs ends) :=
  fun _ => ends_needs ⟨by simp, trivial⟩

theorem looksUp_analyse (span : Span) (known : Ty) (patterns : List Pattern) :
    LooksUp e [] (fun _ => True) (analyse span known patterns) := by
  unfold analyse
  refine (looksUp_needs _).before fun _ _ => (looksUp_warn _).before fun _ _ => ?_
  dsimp only
  split
  · exact (looksUp_warn _).before fun _ _ => looksUp_pure trivial
  · exact looksUp_pure trivial

theorem looksUp_settle (limit : Nat) (typed : Typed) :
    LooksUp e [] (fun _ => True) (settle limit e' typed) := by
  refine (looksUp_ofSession _).before fun solution _ => ?_
  split
  · exact looksUp_pure trivial
  · exact looksUp_pure trivial

theorem looksUp_closeMatch (level : Int) (span : Span) (scrutinee : Ty) (patterns : List Pattern)
    (cases : Cases) :
    LooksUp e [] (fun _ => True) (closeMatch level span scrutinee patterns cases) := by
  unfold closeMatch
  dsimp only
  split
  · exact looksUp_pure trivial
  · exact (looksUp_fresh level).before fun _ _ => looksUp_pure trivial

/-! ## Steps that make scopes -/

/-- The parameters of a function are in scope in its body. -/
theorem looksUp_params (level : Int) : ∀ (ps : List Param) (vars : Table String TyVar) (e' : Env),
    LooksUp e [] (fun out => out.2.Adds e' (ps.map (·.name))) (params level ps vars e')
  | [], _, e' => looksUp_pure e'.adds_nil
  | p :: ps, vars, e' => by
      have hrest : ∀ (t : Ty) (vars : Table String TyVar),
          LooksUp e [] (fun out => out.2.Adds e' ((p :: ps).map (·.name))) (do
            let out ← params level ps vars (e'.bindMono p.name t)
            pure (t :: out.1, out.2)) := fun t vars =>
        (looksUp_params level ps vars (e'.bindMono p.name t)).before fun _ hout =>
          looksUp_pure (hout.trans (e'.adds_bind p.name _))
      rw [params]
      refine (looksUp_fresh level).before fun v _ => ?_
      split
      · exact hrest _ _
      · exact (looksUp_resolve level vars _).before fun out _ => hrest _ _

mutual

/-- A pattern adds its names to those met before. -/
theorem looksUp_patternType (level : Int) : ∀ (p : Pattern) (vars : Table String Ty),
    LooksUp e [] (fun out => ∀ name, name ∈ out.2.keys ↔ name ∈ p.vars ∨ name ∈ vars.keys)
      (patternType level p vars)
  | .missing, vars => by
      rw [patternType]
      exact looksUp_throw fun _ h => by cases h
  | .literal span kind value, vars => by
      have hpure : ∀ t : Ty, LooksUp e [] (fun out => ∀ name, name ∈ out.2.keys ↔
          name ∈ (Pattern.literal span kind value).vars ∨ name ∈ vars.keys)
            (pure (t, vars) : Generate (Ty × Table String Ty)) :=
        fun t => looksUp_pure fun name => by simp [Pattern.vars]
      rw [patternType.eq_def]
      dsimp only
      split
      · exact hpure _
      · exact hpure _
      · exact hpure _
      · exact hpure _
      · exact looksUp_throw fun _ h => by cases h
  | .var _ name, vars => by
      rw [patternType]
      refine (looksUp_fresh level).before fun v _ => looksUp_pure fun other => ?_
      rw [Table.mem_keys_insert, Pattern.vars, List.mem_singleton]
  | .wildcard _, vars => by
      rw [patternType]
      exact (looksUp_fresh level).before fun v _ => looksUp_pure fun name => by simp [Pattern.vars]
  | .tuple _ ps, vars => by
      rw [patternType]
      refine (looksUp_patternTypes level ps vars).before fun out hout => looksUp_pure fun name => ?_
      rw [hout, Pattern.vars]
  | .record _ fs, vars => by
      rw [patternType]
      refine (looksUp_fieldPatternTypes level fs [] vars).before fun out hout => ?_
      refine (looksUp_fresh level).before fun row _ => looksUp_pure fun name => ?_
      rw [hout, Pattern.vars]

theorem looksUp_patternTypes (level : Int) : ∀ (ps : List Pattern) (vars : Table String Ty),
    LooksUp e [] (fun out => ∀ name, name ∈ out.2.keys ↔
      name ∈ Pattern.varsAll ps ∨ name ∈ vars.keys) (patternTypes level ps vars)
  | [], vars => by
      rw [patternTypes]
      exact looksUp_pure fun name => by simp [Pattern.varsAll]
  | p :: ps, vars => by
      rw [patternTypes]
      refine (looksUp_patternType level p vars).before fun first hfirst => ?_
      refine (looksUp_patternTypes level ps first.2).before fun out hout =>
        looksUp_pure fun name => ?_
      rw [hout, hfirst, Pattern.varsAll, List.mem_append]
      tauto

theorem looksUp_fieldPatternTypes (level : Int) : ∀ (fs : List (String × Pattern))
    (done vars : Table String Ty),
    LooksUp e [] (fun out => ∀ name, name ∈ out.2.keys ↔
      name ∈ Pattern.varsFields fs ∨ name ∈ vars.keys) (fieldPatternTypes level fs done vars)
  | [], done, vars => by
      rw [fieldPatternTypes]
      exact looksUp_pure fun name => by simp [Pattern.varsFields]
  | (field, p) :: fs, done, vars => by
      rw [fieldPatternTypes]
      refine (looksUp_patternType level p vars).before fun first hfirst => fun g => ?_
      refine (looksUp_fieldPatternTypes level fs _ first.2 g).imp
        (fun out _ hout => ⟨hout.1, fun name => ?_⟩) fun _ _ h => h
      rw [hout.2, hfirst, Pattern.varsFields, List.mem_append]
      tauto

end

/-- The names of a pattern are in scope in its case. -/
theorem looksUp_caseScope (level : Int) (scrutinee : Ty) (refined : Table String Ty) (e' : Env)
    (p : Pattern) :
    LooksUp e [] (fun out => out.1.Adds e' p.vars) (caseScope level scrutinee refined e' p) := by
  unfold caseScope
  split
  · exact looksUp_pure (e'.adds_bind _ _)
  · exact looksUp_pure e'.adds_nil
  · refine (looksUp_patternType level p []).before fun out hout => looksUp_pure fun name => ?_
    rw [Env.adds_foldl_bindMono (fun entry => (Table.get? entry.1 refined).getD entry.2) out.2 e',
      hout]
    simp [Table.keys]

/-- A recursive definition is in scope in its own value. -/
theorem looksUp_binding (limit : Nat) (level : Int) (site : Site) {value : Env → Generate Typed}
    (h : ∀ e', LooksUp e' names (fun _ => True) (value e')) :
    LooksUp e (if site.isRec then names.filter (· ≠ site.name) else names) (fun _ => True)
      (binding limit e level site value) := by
  -- What becomes of the value once it has a type looks nothing up.
  have hvalue : ∀ {typing : Generate Typed} {names : List String} (close : Typed → Typed),
      LooksUp e names (fun _ => True) typing → LooksUp e names (fun _ => True) (do
        let typed ← typing
        let scheme ← settle limit e (close typed)
        pure (scheme, (close typed).constraints)) := fun close htyping =>
    htyping.done fun typed _ => (looksUp_settle limit _).before fun _ _ => looksUp_pure trivial
  have hrest : ∀ declared : Option Ty,
      LooksUp e (if site.isRec then names.filter (· ≠ site.name) else names) (fun _ => True) (do
        let placeholder ← if site.isRec then some <$> Generate.fresh (level + 1) else pure none
        let typed ← value (placeholder.elim e fun v => e.bindMono site.name (.var v))
        let cs := placeholder.elim typed.constraints fun v =>
          typed.constraints.add (equality (.var v) typed.ty site.span)
        let out : Ty × ConstraintSet := declared.elim (typed.ty, cs) fun d =>
          (d, cs.add (.subtype typed.ty d .written site.span))
        let scheme ← settle limit e ⟨out.1, out.2⟩
        pure (scheme, out.2)) := by
    intro declared
    split
    · rw [← bind_pure_comp, bind_assoc]
      refine (looksUp_fresh (level + 1)).before fun v _ => ?_
      exact hvalue (fun typed => ⟨_, _⟩) (h (e.bindMono site.name (.var v))).under_bind
    · exact hvalue (fun typed => ⟨_, _⟩) (h e)
  obtain ⟨span, name, isRec, _ | written⟩ := site
  · exact hrest none
  · exact (looksUp_resolve (level + 1) [] written).before fun out _ => hrest (some out.1)

mutual

/-- Inference looks the free names of an expression up. -/
theorem looksUp_infer (limit : Nat) : ∀ (x : Expr) (e : Env) (level : Int),
    LooksUp e x.free (fun _ => True) (infer limit e level x)
  | .missing, e, level => by
      rw [infer]
      exact looksUp_throw fun _ h => by cases h
  | .literal span kind value, e, level => by
      rw [infer]
      exact looksUp_literal level span kind value false
  | .var span name, e, level => by
      rw [infer, Expr.free]
      split
      · next hnone =>
          refine fun g => ends_throw fun other hother => ?_
          cases hother
          simp [Env.Binds, hnone]
      · next scheme hscheme =>
          have hbinds : e.Binds name := by simp [Env.Binds, hscheme]
          exact LooksUp.found ((looksUp_fresh level).before fun _ _ =>
            (looksUp_ofSession _).before fun _ _ => looksUp_pure trivial) hbinds
  | .call span f args, e, level => by
      rw [infer, Expr.free]
      exact (looksUp_infer limit f e level).bind fun _ _ =>
        (looksUp_inferAll limit args e level _).done fun _ _ =>
          (looksUp_fresh level).before fun _ _ => looksUp_pure trivial
  | .binary span op l r, e, level => by
      rw [infer, Expr.free]
      split
      · exact looksUp_throw fun _ h => by cases h
      · exact (looksUp_infer limit l e level).bind fun _ _ =>
          (looksUp_infer limit r e level).done fun _ _ =>
            (looksUp_fresh level).before fun _ _ => looksUp_pure trivial
  | .unary span op x, e, level => by
      rw [infer, Expr.free]
      refine (looksUp_infer limit x e level).done fun t _ => ?_
      dsimp only
      split
      · exact looksUp_throw fun _ h => by cases h
      · exact (looksUp_fresh level).before fun _ _ => looksUp_pure trivial
  | .cond span c t f, e, level => by
      rw [infer, Expr.free, List.append_assoc]
      exact (looksUp_infer limit c e level).bind fun _ _ =>
        (looksUp_infer limit t e level).bind fun _ _ =>
          (looksUp_infer limit f e level).done fun _ _ =>
            (looksUp_fresh level).before fun _ _ => looksUp_pure trivial
  | .lambda span ps body, e, level => by
      rw [infer, Expr.free]
      exact (looksUp_params level ps [] e).before fun out hout =>
        ((looksUp_infer limit body out.2 level).under hout).done fun _ _ =>
          (looksUp_fresh level).before fun _ _ => looksUp_pure trivial
  | .letIn span name isRec written value body, e, level => by
      rw [infer, Expr.free]
      refine (looksUp_binding limit level ⟨span, name, isRec, written⟩ fun e' =>
        looksUp_infer limit value e' (level + 1)).bind fun out _ => ?_
      exact (looksUp_infer limit body _ level).under_bind.done fun _ _ => looksUp_pure trivial
  | .record span fields spreads, e, level => by
      rw [infer, Expr.free]
      refine (looksUp_inferFields limit fields e level [] .empty).bind fun out _ => ?_
      dsimp only
      split
      · next hempty =>
          rw [List.isEmpty_iff.1 hempty, Expr.freeAll]
          exact looksUp_pure trivial
      · exact (looksUp_inferSpreads limit spreads e level _).done fun _ _ =>
          (looksUp_fresh level).before fun _ _ => looksUp_pure trivial
  | .select span x field, e, level => by
      rw [infer, Expr.free]
      exact (looksUp_infer limit x e level).done fun _ _ =>
        (looksUp_fresh level).before fun _ _ => (looksUp_fresh level).before fun _ _ =>
          looksUp_pure trivial
  | .tuple span xs, e, level => by
      rw [infer, Expr.free]
      exact (looksUp_inferAll limit xs e level .empty).done fun _ _ =>
        (looksUp_fresh level).before fun _ _ => looksUp_pure trivial
  | .caseOf span value arms, e, level => by
      rw [infer, Expr.free]
      exact (looksUp_infer limit value e level).bind fun t _ =>
        (looksUp_ofSession _).before fun known _ =>
          (looksUp_analyse span known _).before fun analysis _ =>
            (looksUp_inferArms limit arms e level t.ty _ _).done fun cases _ =>
              looksUp_closeMatch level span t.ty _ cases
  | .ascribe span x written, e, level => by
      rw [infer, Expr.free]
      exact (looksUp_infer limit x e level).done fun _ _ =>
        (looksUp_resolve level [] written).before fun _ _ => looksUp_pure trivial

theorem looksUp_inferAll (limit : Nat) : ∀ (xs : List Expr) (e : Env) (level : Int)
    (cs : ConstraintSet),
    LooksUp e (Expr.freeAll xs) (fun _ => True) (inferAll limit e level xs cs)
  | [], e, level, cs => by
      rw [inferAll]
      exact looksUp_pure trivial
  | x :: xs, e, level, cs => by
      rw [inferAll, Expr.freeAll]
      exact (looksUp_infer limit x e level).bind fun _ _ =>
        (looksUp_inferAll limit xs e level _).done fun _ _ => looksUp_pure trivial

theorem looksUp_inferSpreads (limit : Nat) : ∀ (xs : List Expr) (e : Env) (level : Int)
    (cs : ConstraintSet),
    LooksUp e (Expr.freeAll xs) (fun _ => True) (inferSpreads limit e level xs cs)
  | [], e, level, cs => by
      rw [inferSpreads]
      exact looksUp_pure trivial
  | x :: xs, e, level, cs => by
      rw [inferSpreads, Expr.freeAll]
      exact (looksUp_infer limit x e level).bind fun _ _ =>
        (looksUp_inferSpreads limit xs e level _).done fun _ _ => looksUp_pure trivial

theorem looksUp_inferFields (limit : Nat) : ∀ (fs : List (Labelled Expr)) (e : Env) (level : Int)
    (done : Table String Ty) (cs : ConstraintSet),
    LooksUp e (Expr.freeFields fs) (fun _ => True) (inferFields limit e level fs done cs)
  | [], e, level, done, cs => by
      rw [inferFields]
      exact looksUp_pure trivial
  | ⟨span, name, x⟩ :: fs, e, level, done, cs => by
      have hrest : ∀ t : Typed, LooksUp e (Expr.freeFields fs) (fun _ => True)
          (inferFields limit e level fs (Table.insert name t.ty done) (cs.union t.constraints)) :=
        fun t => looksUp_inferFields limit fs e level _ _
      rw [inferFields, Expr.freeFields]
      dsimp only
      split
      · exact looksUp_throw fun _ h => by cases h
      · split
        · next span kind value hconstant =>
            -- A constant has no names.
            cases x with
            | literal =>
                exact (looksUp_literal level span kind value true).before fun t _ => hrest t
            | _ => simp [Expr.constant?] at hconstant
        · exact (looksUp_infer limit x e level).bind fun t _ => hrest t

theorem looksUp_inferArms (limit : Nat) : ∀ (arms : List (Arm Expr)) (e : Env) (level : Int)
    (scrutinee : Ty) (refinements : List (Table String Ty)) (cases : Cases),
    LooksUp e (Expr.freeArms arms) (fun _ => True)
      (inferArms limit e level scrutinee refinements arms cases)
  | [], e, level, scrutinee, refinements, cases => by
      rw [inferArms]
      exact looksUp_pure trivial
  | ⟨_, p, x⟩ :: arms, e, level, scrutinee, refinements, cases => by
      rw [inferArms, Expr.freeArms]
      exact (looksUp_caseScope level scrutinee _ e p).before fun scope hscope =>
        ((looksUp_infer limit x scope.1 level).under hscope).bind fun t _ =>
          looksUp_inferArms limit arms e level scrutinee _ _

end

end Generate

namespace Session

/-- A step of inference in a session fails as the step does. -/
theorem generating_looksUp {α : Type} {e : Env} {names : List String} {made : α → Prop}
    {m : Generate α} (h : Generate.LooksUp e names made m) (s : Session) :
    (∀ a, ((generating m).run s).1.1 = .ok a → ∀ name ∈ names, e.Binds name) ∧
      ∀ name span, ((generating m).run s).1.1 = .error ⟨.undefinedVariable name, span⟩ →
        name ∈ names ∧ ¬ e.Binds name := by
  have hends := h { session := s }
  unfold Ends at hends
  rw [show ((generating m).run s).1.1 = (m.run { session := s }).1 from rfl]
  split at hends
  · next a _ hrun => rw [hrun]; exact ⟨fun _ _ => hends.1, nofun⟩
  · next d _ hrun =>
      rw [hrun]
      refine ⟨nofun, fun name span hd => ?_⟩
      cases hd
      exact hends name rfl

/-- Names are resolved by lexical scope.  If an expression gets a type, each of its free names is in
scope.  If a variable is reported as undefined, it is free in the expression and out of scope. -/
theorem generate_scoping (limit : Nat) (e : Env) (x : Expr) (s : Session) :
    (∀ typed, ((generate limit e x).run s).1.1 = .ok typed →
      ∀ name ∈ x.free, (e.lookup? name).isSome = true) ∧
    ∀ name span, ((generate limit e x).run s).1.1 = .error ⟨.undefinedVariable name, span⟩ →
      name ∈ x.free ∧ e.lookup? name = none := by
  simpa [Env.Binds, generate] using generating_looksUp (Generate.looksUp_infer limit x e 0) s

/-- In `fun x -> (x, y)`, `x` is in scope and `y` is not. -/
theorem generate_scoping_pair :
    ((generate 1 .empty (.lambda {} [⟨{}, "x", none⟩] (.tuple {} [.var {} "x", .var {} "y"]))).run
        {}).1.1 = .error ⟨.undefinedVariable "y", {}⟩ ∧
      "y" ∈ (Expr.lambda {} [⟨{}, "x", none⟩] (.tuple {} [.var {} "x", .var {} "y"])).free ∧
        Env.empty.lookup? "y" = none :=
  ⟨by rfl, (generate_scoping 1 .empty _ {}).2 "y" {} (by rfl)⟩

end Session

end RowTypes
