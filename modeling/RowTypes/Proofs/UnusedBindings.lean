import RowTypes.Proofs.Scoping

/-!
# Bindings that nothing uses

A name that is not free in an expression has no part in its type, if its scheme is closed.  The
environment is not only looked up, though.  At every definition the substitution that meets the
constraints so far is applied to all of it, and the unknowns that are then free in it are kept from
being quantified.  A closed scheme stays closed under any substitution, so it keeps nothing
(`Env.Unused.free_apply`).  And a binder further in may use the same name for something else: then
the two environments are the same from there on (`Env.Unused.bind`).

So the two inferences are the same program.  They agree on the type, the constraints and the
failure, on the warnings, and on everything that they leave in the session.
-/

namespace RowTypes

namespace Scheme

/-- A closed scheme stays closed. -/
theorem free_apply_eq_nil {s : Scheme} (h : s.free = []) (subst : Subst) :
    (s.apply subst).free = [] := by
  refine List.eq_nil_iff_forall_not_mem.2 fun v hv => ?_
  have hfree : (s.apply subst).free.has v = true := List.any_eq_true.2 ⟨v, hv, beq_self_eq_true _⟩
  -- What the body mentions afterwards comes from an unknown that it mentioned before.
  obtain ⟨hmentions, hbinds⟩ := has_free.1 hfree
  have hclosed : ∀ id, s.body.Mentions id → s.Binds id := fun id hid => by
    by_contra hnot
    have hfree := (has_free (w := ⟨id, 0⟩)).2 ⟨hid, hnot⟩
    rw [h] at hfree
    cases hfree
  rcases Subst.yields_of_mentions_apply _ _ hmentions with hid | ⟨j, u, hj, hu, -⟩
  · exact hbinds (hclosed _ hid)
  · have hj : j ∈ s.vars.map (·.id) := hclosed j hj
    rw [Subst.get?_without, if_pos hj] at hu
    cases hu

end Scheme

namespace Env

/-- The second environment has at most one more name, which is none of the given ones and has a
closed scheme. -/
inductive Unused (names : List String) (e : Env) : Env → Prop
  | same : Unused names e e
  | bound {x : String} {s : Scheme} : x ∉ names → e.lookup? x = none → s.free = [] →
      Unused names e (e.bind x s)

variable {names more : List String} {e e' : Env}

theorem Unused.mono (h : e.Unused names e') (hsub : ∀ name ∈ more, name ∈ names) :
    e.Unused more e' := by
  cases h with
  | same => exact .same
  | bound hx hnew hs => exact .bound (fun hmem => hx (hsub _ hmem)) hnew hs

theorem Unused.left (h : e.Unused (names ++ more) e') : e.Unused names e' :=
  h.mono fun _ => List.mem_append_left _

theorem Unused.right (h : e.Unused (names ++ more) e') : e.Unused more e' :=
  h.mono fun _ => List.mem_append_right _

theorem Unused.lookup? (h : e.Unused names e') {name : String} (hname : name ∈ names) :
    e'.lookup? name = e.lookup? name := by
  cases h with
  | same => rfl
  | bound hx _ _ =>
      refine Table.get?_insert_of_ne ?_ _ _
      rintro rfl
      exact hx hname

/-- Under a binder the name is still not used, or the binder has taken it. -/
theorem Unused.bind {y : String} (h : e.Unused (names.filter (· ≠ y)) e') (s : Scheme) :
    (e.bind y s).Unused names (e'.bind y s) := by
  cases h with
  | same => exact .same
  | @bound x closed hx hnew hs =>
      by_cases hxy : x = y
      · subst hxy
        rw [bind, bind, bind, Table.insert_insert_self]
        exact .same
      · have hbind : (e.bind x closed).bind y s = (e.bind y s).bind x closed := by
          simp only [bind, Table.insert_comm hxy]
        rw [hbind]
        refine .bound (fun hmem => hx (List.mem_filter.2 ⟨hmem, by simpa using hxy⟩)) ?_ hs
        rw [bind, Env.lookup?, Table.get?_insert_of_ne hxy]
        exact hnew

/-- The same under several binders, one after the other. -/
theorem Unused.foldl_bindMono (f : String × Ty → Ty) : ∀ {vars : Table String Ty} {e e' : Env},
    e.Unused (names.filter (· ∉ vars.keys)) e' →
    (vars.foldl (fun e entry => e.bindMono entry.1 (f entry)) e).Unused names
      (vars.foldl (fun e entry => e.bindMono entry.1 (f entry)) e')
  | [], _, _, h => h.mono fun name hname => List.mem_filter.2 ⟨hname, by simp [Table.keys]⟩
  | entry :: vars, e, e', h => by
      have hentry : e.Unused ((names.filter (· ∉ Table.keys vars)).filter (· ≠ entry.1)) e' :=
        h.mono fun name hname => by
          simp only [List.mem_filter, decide_eq_true_eq] at hname ⊢
          exact ⟨hname.1.1, List.not_mem_cons_of_ne_of_not_mem hname.2 hname.1.2⟩
      have hrest := foldl_bindMono f (hentry.bind (.mono (f entry)))
      exact hrest

/-- No substitution brings an unknown into the scheme that is not used. -/
theorem Unused.free_apply (h : e.Unused names e') (subst : Subst) :
    (e'.apply subst).free = (e.apply subst).free := by
  cases h with
  | same => rfl
  | @bound x s _ hnew hs =>
      obtain ⟨l, r, hl, hinsert⟩ := Table.exists_insert_eq s hnew
      have hclosed := Scheme.free_apply_eq_nil hs subst
      have hbind : (e.bind x s).schemes = l ++ (x, s) :: r := hinsert
      unfold apply
      split
      · rw [free, free, hbind, hl, List.foldl_append, List.foldl_append, List.foldl_cons, hs]
        rfl
      · simp only [free, hbind, hl, List.map_append, List.map_cons, List.foldl_append,
          List.foldl_cons, hclosed]
        rfl

end Env

namespace Generate

variable {α β : Type} {names : List String} {e e' : Env} {m : Generate α}

/-- Programs that start with the same step are the same if they go on in the same way from all that
the step makes. -/
theorem LooksUp.bind_congr {made : α → Prop} {f f' : α → Generate β} (h : LooksUp e names made m)
    (hf : ∀ a, made a → f' a = f a) : m >>= f' = m >>= f := by
  refine funext fun g => ?_
  show (m >>= f').run g = (m >>= f).run g
  have hends := h g
  unfold Ends at hends
  rw [run_bind, run_bind]
  split at hends
  · rw [hf _ hends.2]
  · rfl

/-! ## Steps that make scopes -/

/-- Parameters come into scope in both environments. -/
theorem params_bind_congr (level : Int) : ∀ {ps : List Param} {vars : Table String TyVar}
    {e e' : Env} {k k' : List Ty × Env → Generate β},
    e.Unused (names.filter (· ∉ ps.map (·.name))) e' →
    (∀ ts f f', f.Unused names f' → k' (ts, f') = k (ts, f)) →
    params level ps vars e' >>= k' = params level ps vars e >>= k
  | [], _, _, _, _, _, h, hk => hk [] _ _ (by simpa using h)
  | p :: ps, vars, e, e', k, k', h, hk => by
      have hp : e.Unused ((names.filter (· ∉ ps.map (·.name))).filter (· ≠ p.name)) e' :=
        h.mono fun name hname => by simpa [and_assoc, and_comm] using hname
      have hrest : ∀ (t : Ty) (vars : Table String TyVar),
          (params level ps vars (e'.bindMono p.name t) >>= fun out => k' (t :: out.1, out.2)) =
            params level ps vars (e.bindMono p.name t) >>= fun out => k (t :: out.1, out.2) :=
        fun t vars => params_bind_congr level (hp.bind _) fun ts f f' hf => hk (t :: ts) f f' hf
      obtain ⟨span, name, _ | written⟩ := p
      · simp only [params, bind_assoc, pure_bind, hrest]
      · simp only [params, bind_assoc, pure_bind, hrest]

/-- The names of a pattern come into scope in both environments. -/
theorem caseScope_bind_congr (level : Int) (scrutinee : Ty) (refined : Table String Ty)
    {p : Pattern} {k k' : Env × Option Ty → Generate β}
    (h : e.Unused (names.filter (· ∉ p.vars)) e')
    (hk : ∀ f f' t, f.Unused names f' → k' (f', t) = k (f, t)) :
    caseScope level scrutinee refined e' p >>= k' =
      caseScope level scrutinee refined e p >>= k := by
  unfold caseScope
  split
  · refine hk _ _ _ (Env.Unused.bind ?_ _)
    simpa [Pattern.vars] using h
  · exact hk _ _ _ (by simpa [Pattern.vars] using h)
  · rw [bind_assoc, bind_assoc]
    refine (looksUp_patternType (e := e) level p []).bind_congr fun out hout => hk _ _ _ ?_
    have hvars : e.Unused (names.filter (· ∉ out.2.keys)) e' :=
      h.mono fun name hname => by
        simp only [List.mem_filter, decide_eq_true_eq, hout] at hname ⊢
        exact ⟨hname.1, fun hmem => hname.2 (.inl hmem)⟩
    exact hvars.foldl_bindMono fun entry => (Table.get? entry.1 refined).getD entry.2

/-- A definition gets the same scheme in both environments. -/
theorem binding_congr (limit : Nat) (level : Int) (site : Site) {value : Env → Generate Typed}
    (h : e.Unused (if site.isRec then names.filter (· ≠ site.name) else names) e')
    (hvalue : ∀ {f f' : Env}, f.Unused names f' → value f' = value f) :
    binding limit e' level site value = binding limit e level site value := by
  have hsettle : ∀ typed : Typed, settle limit e' typed = settle limit e typed := fun typed => by
    simp only [settle, Env.generalize, h.free_apply]
  obtain ⟨span, name, isRec, written⟩ := site
  cases isRec with
  | false =>
      simp only [binding, hsettle, Bool.false_eq_true, if_false, pure_bind, hvalue h]
  | true =>
      have hrec : ∀ v : TyVar,
          value (e'.bindMono name (.var v)) = value (e.bindMono name (.var v)) :=
        fun v => hvalue (Env.Unused.bind h _)
      simp only [binding, hsettle, if_true, map_eq_pure_bind, bind_assoc, pure_bind, hrec]

/-! ## Inference -/

mutual

/-- Inference does the same in both environments. -/
theorem infer_congr (limit : Nat) : ∀ (x : Expr) {e e' : Env} (level : Int),
    e.Unused x.free e' → infer limit e' level x = infer limit e level x
  | .missing, _, _, _, _ => by rw [infer, infer]
  | .literal .., _, _, _, _ => by rw [infer, infer]
  | .var span name, e, e', level, h => by
      have hname : e'.lookup? name = e.lookup? name :=
        h.lookup? (by rw [Expr.free]; exact List.mem_singleton_self name)
      rw [infer, infer, hname]
  | .call span f args, e, e', level, h => by
      rw [Expr.free] at h
      simp only [infer, infer_congr limit f level h.left, inferAll_congr limit args level h.right]
  | .binary span op l r, e, e', level, h => by
      rw [Expr.free] at h
      simp only [infer, infer_congr limit l level h.left, infer_congr limit r level h.right]
  | .unary span op x, e, e', level, h => by
      rw [Expr.free] at h
      simp only [infer, infer_congr limit x level h]
  | .cond span c t f, e, e', level, h => by
      rw [Expr.free] at h
      simp only [infer, infer_congr limit c level h.left.left,
        infer_congr limit t level h.left.right, infer_congr limit f level h.right]
  | .lambda span ps body, e, e', level, h => by
      rw [Expr.free] at h
      rw [infer, infer]
      refine params_bind_congr level h fun ts f f' hf => ?_
      simp only [infer_congr limit body level hf]
  | .letIn span name isRec written value body, e, e', level, h => by
      rw [Expr.free] at h
      have hbinding := binding_congr limit level ⟨span, name, isRec, written⟩ h.left
        fun hf => infer_congr limit value (level + 1) hf
      have hbody : ∀ s : Scheme, infer limit (e'.bind name s) level body =
          infer limit (e.bind name s) level body := fun s =>
        infer_congr limit body level (h.right.bind s)
      simp only [infer, hbinding, hbody]
  | .record span fields spreads, e, e', level, h => by
      rw [Expr.free] at h
      simp only [infer, inferFields_congr limit fields level h.left,
        inferSpreads_congr limit spreads level h.right]
  | .select span x field, e, e', level, h => by
      rw [Expr.free] at h
      simp only [infer, infer_congr limit x level h]
  | .tuple span xs, e, e', level, h => by
      rw [Expr.free] at h
      simp only [infer, inferAll_congr limit xs level h]
  | .caseOf span value arms, e, e', level, h => by
      rw [Expr.free] at h
      simp only [infer, infer_congr limit value level h.left,
        inferArms_congr limit arms level h.right]
  | .ascribe span x written, e, e', level, h => by
      rw [Expr.free] at h
      simp only [infer, infer_congr limit x level h]

theorem inferAll_congr (limit : Nat) : ∀ (xs : List Expr) {e e' : Env} (level : Int),
    e.Unused (Expr.freeAll xs) e' → ∀ cs : ConstraintSet,
      inferAll limit e' level xs cs = inferAll limit e level xs cs
  | [], _, _, _, _, _ => by rw [inferAll, inferAll]
  | x :: xs, e, e', level, h, cs => by
      rw [Expr.freeAll] at h
      simp only [inferAll, infer_congr limit x level h.left, inferAll_congr limit xs level h.right]

theorem inferSpreads_congr (limit : Nat) : ∀ (xs : List Expr) {e e' : Env} (level : Int),
    e.Unused (Expr.freeAll xs) e' → ∀ cs : ConstraintSet,
      inferSpreads limit e' level xs cs = inferSpreads limit e level xs cs
  | [], _, _, _, _, _ => by rw [inferSpreads, inferSpreads]
  | x :: xs, e, e', level, h, cs => by
      rw [Expr.freeAll] at h
      simp only [inferSpreads, infer_congr limit x level h.left,
        inferSpreads_congr limit xs level h.right]

theorem inferFields_congr (limit : Nat) : ∀ (fs : List (Labelled Expr)) {e e' : Env} (level : Int),
    e.Unused (Expr.freeFields fs) e' → ∀ (done : Table String Ty) (cs : ConstraintSet),
      inferFields limit e' level fs done cs = inferFields limit e level fs done cs
  | [], _, _, _, _, _, _ => by rw [inferFields, inferFields]
  | ⟨span, name, x⟩ :: fs, e, e', level, h, done, cs => by
      rw [Expr.freeFields] at h
      simp only [inferFields, infer_congr limit x level h.left,
        inferFields_congr limit fs level h.right]

theorem inferArms_congr (limit : Nat) : ∀ (arms : List (Arm Expr)) {e e' : Env} (level : Int),
    e.Unused (Expr.freeArms arms) e' →
      ∀ (scrutinee : Ty) (refinements : List (Table String Ty)) (cases : Cases),
        inferArms limit e' level scrutinee refinements arms cases =
          inferArms limit e level scrutinee refinements arms cases
  | [], _, _, _, _, _, _, _ => by rw [inferArms, inferArms]
  | ⟨_, p, x⟩ :: arms, e, e', level, h, scrutinee, refinements, cases => by
      rw [Expr.freeArms] at h
      have harms := inferArms_congr limit arms level h.right scrutinee refinements.tail
      rw [inferArms, inferArms]
      refine caseScope_bind_congr level scrutinee _ h.left fun f f' t hf => ?_
      simp only [infer_congr limit x level hf, harms]

end

end Generate

namespace Session

/-- Bindings that are not used have no part in inference.  With one more name in the environment,
which is not free in the expression, was not bound before and has a closed scheme, the same run
comes to the same type and constraints, or to the same failure, with the same warnings, and leaves
the same session. -/
theorem generate_bind_unused (limit : Nat) (e : Env) (x : Expr) (s : Session) {name : String}
    {scheme : Scheme} (hname : name ∉ x.free) (hnew : e.lookup? name = none)
    (hclosed : scheme.free = []) :
    (generate limit (e.bind name scheme) x).run s = (generate limit e x).run s := by
  rw [generate, generate, Generate.infer_congr limit x 0 (.bound hname hnew hclosed)]

/-- In `let y = f in (y, f)` the `y` is another one than the identity of that name outside, and the
type of `f`, which is not known yet, is not quantified. -/
theorem generate_bind_unused_shadowed :
    let a : TyVar := { id := 1 }
    let identity : Scheme := ⟨[a], .fn (.var a) (.var a)⟩
    let e := Env.empty.bindMono "f" (.var { id := 2 })
    let x : Expr := .letIn {} "y" false none (.var {} "f") (.tuple {} [.var {} "y", .var {} "f"])
    let s : Session := { supply := { count := 2 } }
    "y" ∉ x.free ∧ e.lookup? "y" = none ∧ identity.free = [] ∧
      ((generate 8 e x).run s).1.1.isOk = true ∧
        (generate 8 (e.bind "y" identity) x).run s = (generate 8 e x).run s := by
  intro a identity e x s
  have hname : "y" ∉ x.free := by decide +kernel
  exact ⟨hname, rfl, rfl, by decide +kernel, generate_bind_unused 8 e x s hname rfl rfl⟩

end Session

end RowTypes
