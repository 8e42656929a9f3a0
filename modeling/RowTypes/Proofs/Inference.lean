import RowTypes.Proofs.Definitions

/-!
# Runs of inference

Inference of an expression of the core language ends with what the forms of expressions call for,
or fails on a name that is not in scope or an operator that there is not.  An expression with such
a part has no type in any context.
-/

namespace RowTypes

open Equations Milner

/-- The context has no more names than the environment. -/
def Scopes (e : Env) (Γ : Milner.Context) : Prop := ∀ name, e.lookup? name = none → Γ name = none

/-- The expression has no type in any context that has no more names than the environment. -/
def Unscoped (e : Env) (x : Expr) : Prop := ∀ Γ ρ, Scopes e Γ → ¬ HasType Γ x ρ

/-- Not all of the expressions have a type. -/
def UnscopedAll (e : Env) (xs : List Expr) : Prop := ∀ Γ ρs, Scopes e Γ → ¬ HasTypes Γ xs ρs

section Scopes

variable {e : Env} {Γ : Milner.Context}

theorem Scopes.bind (h : Scopes e Γ) (name : String) (s : Scheme) (p : Poly) :
    Scopes (e.bind name s) (Γ.bind name p) := by
  intro y hy
  unfold Milner.Context.bind
  split
  · next hname =>
      rw [Env.lookup?, Env.bind, hname, Table.get?_insert_self] at hy
      cases hy
  · next hname =>
      rw [Env.lookup?, Env.bind, Table.get?_insert_of_ne hname] at hy
      exact h y hy

end Scopes

namespace Generate

-- The equations of inference are worked out here, before many proofs ask for them at once.
attribute [grind =] infer inferAll

variable {e : Env} {level : Int} {g : Generating} {x : Expr}

/-- Inference of an expression ends as it should, in every environment. -/
def Infers (limit : Nat) (x : Expr) : Prop :=
  ∀ {e : Env} {level : Int} {g : Generating}, e.Fits g.session.supply.count →
    Ends (infer limit e level x) g
      (fun typed g' => ∃ E, Inferred e x g.session g'.session typed E) fun _ _ => Unscoped e x

variable {limit : Nat}

/-- A last unknown for the type of an expression. -/
theorem ends_ret {ok : Typed → Generating → Prop} {err : Diagnostic → Generating → Prop}
    {f : TyVar → Typed} (h : ok (f ⟨(g.session.supply.count : Int) + 1, level⟩)
      { g with session := g.session.next }) :
    Ends (fresh level >>= fun v => pure (f v)) g ok err := Ends.bind (ends_fresh h)

theorem infers_literal (span : Span) {kind : LiteralKind} (value : String)
    (hkind : (literalType? kind).isSome = true) : Infers limit (.literal span kind value) := by
  intro e level g hfits
  rw [infer]
  cases kind with
  | other => cases hkind
  | int => exact inferred_literal hfits value rfl
  | string => exact inferred_literal hfits value rfl
  | bool => exact inferred_literal hfits value rfl
  | unit => exact inferred_literal hfits value rfl

theorem infers_var (span : Span) (name : String) : Infers limit (.var span name) := by
  intro e level g hfits
  rw [infer]
  split
  · next hnone =>
      refine ends_throw fun Γ ρ hscopes hρ => ?_
      cases hρ with
      | var hp _ =>
          rw [hscopes name hnone] at hp
          cases hp
  · next scheme hs => exact inferred_var hfits hs

/-- Inference of several expressions, one after the other. -/
theorem ends_inferAll {limit : Nat} : ∀ {xs : List Expr}, (∀ x ∈ xs, Infers limit x) →
    ∀ {cs₀ : ConstraintSet} {g : Generating}, e.Fits g.session.supply.count →
      Ends (inferAll limit e level xs cs₀) g
        (fun out g' => ∃ E, InferredAll e xs g.session g'.session cs₀ out.1 out.2 E)
        fun _ _ => UnscopedAll e xs
  | [], _, cs₀, g, _ => ⟨_, inferredAll_nil e g.session cs₀⟩
  | x :: xs, hxs, cs₀, g, hfits => by
      rw [inferAll]
      refine Ends.bind ((hxs x List.mem_cons_self hfits).imp ?_ ?_)
      · rintro ⟨t, xcs⟩ g₁ ⟨E₁, hx⟩
        refine Ends.bind ((ends_inferAll (fun y hy => hxs y (List.mem_cons_of_mem _ hy))
          (hfits.mono hx.advances.count)).imp ?_ ?_)
        · rintro ⟨ts, cs⟩ g₂ ⟨E₂, hall⟩
          exact ⟨_, InferredAll.cons hfits hx hall⟩
        · intro _ _ hun Γ ρs hscopes hρs
          cases hρs with
          | cons _ hρs => exact hun Γ _ hscopes hρs
      · intro _ _ hun Γ ρs hscopes hρs
        cases hρs with
        | cons hρ _ => exact hun Γ _ hscopes hρ

theorem infers_tuple (span : Span) {xs : List Expr} (hxs : ∀ x ∈ xs, Infers limit x) :
    Infers limit (.tuple span xs) := by
  intro e level g hfits
  rw [infer]
  refine Ends.bind ((ends_inferAll hxs hfits).imp ?_ ?_)
  · rintro ⟨ts, cs⟩ g₁ ⟨E, hall⟩
    exact ends_ret (inferred_tuple hfits hall.parts)
  · intro _ _ hun Γ ρ hscopes hρ
    cases hρ with
    | tuple hρs => exact hun Γ _ hscopes hρs

theorem infers_call (span : Span) {f : Expr} {args : List Expr} (hf : Infers limit f)
    (hargs : ∀ x ∈ args, Infers limit x) : Infers limit (.call span f args) := by
  intro e level g hfits
  rw [infer]
  refine Ends.bind ((hf hfits).imp ?_ ?_)
  · rintro ⟨ft, fcs⟩ g₁ ⟨E₁, hf⟩
    refine Ends.bind ((ends_inferAll hargs (hfits.mono hf.advances.count)).imp ?_ ?_)
    · rintro ⟨ts, cs⟩ g₂ ⟨E₂, hall⟩
      exact ends_ret (inferred_call hfits (hf.parts hfits hall))
    · intro _ _ hun Γ ρ hscopes hρ
      cases hρ with
      | call _ hρs => exact hun Γ _ hscopes hρs
  · intro _ _ hun Γ ρ hscopes hρ
    cases hρ with
    | call hρ _ => exact hun Γ _ hscopes hρ

theorem exists_prim_of_unaryType? {op : String} {t : Ty} (h : unaryType? op = some t) :
    ∃ name, t = .prim name := by
  unfold unaryType? at h
  split at h
  · exact ⟨_, (Option.some.inj h).symm⟩
  · split at h
    · exact ⟨_, (Option.some.inj h).symm⟩
    · cases h

theorem exists_prims_of_binaryRule? {op : String} {rule : BinaryRule}
    (hop : op ∉ ["==", "!="]) (h : binaryRule? op = some rule) :
    ∃ operand result, rule = .typed (.prim operand) (.prim result) := by
  unfold binaryRule? at h
  split_ifs at h
  · exact ⟨_, _, (Option.some.inj h).symm⟩
  · exact ⟨_, _, (Option.some.inj h).symm⟩
  · exact ⟨_, _, (Option.some.inj h).symm⟩
  · exact ⟨_, _, (Option.some.inj h).symm⟩

theorem infers_unary (span : Span) (op : String) (hx : Infers limit x) :
    Infers limit (.unary span op x) := by
  intro e level g hfits
  rw [infer]
  refine Ends.bind ((hx hfits).imp ?_ ?_)
  · rintro ⟨t, cs⟩ g₁ ⟨E, hx⟩
    dsimp only
    split
    · next hop =>
        refine ends_throw fun Γ ρ _ hρ => ?_
        cases hρ with
        | unary hop' _ =>
            rw [hop] at hop'
            cases hop'
    · next u hop =>
        obtain ⟨name, rfl⟩ := exists_prim_of_unaryType? hop
        refine ends_ret ?_
        exact (inferred_unary hfits hop (hx.parts hfits (inferredAll_nil ..)) :)
  · intro _ _ hun Γ ρ hscopes hρ
    cases hρ with
    | unary _ hρ => exact hun Γ _ hscopes hρ

theorem infers_binary (span : Span) {op : String} {l r : Expr} (hop : op ∉ ["==", "!="])
    (hl : Infers limit l) (hr : Infers limit r) : Infers limit (.binary span op l r) := by
  intro e level g hfits
  rw [infer]
  split
  · next hnone =>
      refine ends_throw fun Γ ρ _ hρ => ?_
      cases hρ with
      | binary hop' _ _ =>
          rw [hnone] at hop'
          cases hop'
  · next rule hrule =>
      obtain ⟨operand, result, rfl⟩ := exists_prims_of_binaryRule? hop hrule
      refine Ends.bind ((hl hfits).imp ?_ ?_)
      · rintro ⟨lt, lcs⟩ g₁ ⟨E₁, hl⟩
        refine Ends.bind ((hr (hfits.mono hl.advances.count)).imp ?_ ?_)
        · rintro ⟨rt, rcs⟩ g₂ ⟨E₂, hr⟩
          refine ends_ret ?_
          simp only [operatorConstraints, List.foldl_cons, List.foldl_nil]
          have hrest : InferredAll e [r] _ _ lcs [rt] _ _ :=
            .cons (hfits.mono hl.advances.count) hr (inferredAll_nil ..)
          exact (inferred_binary hfits hrule (hl.parts hfits hrest) :)
        · intro _ _ hun Γ ρ hscopes hρ
          cases hρ with
          | binary _ _ hρ => exact hun Γ _ hscopes hρ
      · intro _ _ hun Γ ρ hscopes hρ
        cases hρ with
        | binary _ hρ _ => exact hun Γ _ hscopes hρ

theorem infers_cond (span : Span) {c t f : Expr} (hc : Infers limit c) (ht : Infers limit t)
    (hf : Infers limit f) : Infers limit (.cond span c t f) := by
  intro e level g hfits
  rw [infer]
  refine Ends.bind ((hc hfits).imp ?_ ?_)
  · rintro ⟨ct, ccs⟩ g₁ ⟨E₁, hc⟩
    have hfits₁ := hfits.mono hc.advances.count
    refine Ends.bind ((ht hfits₁).imp ?_ ?_)
    · rintro ⟨tt, tcs⟩ g₂ ⟨E₂, ht⟩
      refine Ends.bind ((hf (hfits₁.mono ht.advances.count)).imp ?_ ?_)
      · rintro ⟨ft, fcs⟩ g₃ ⟨E₃, hf⟩
        refine ends_ret ?_
        have hbranches : InferredAll e [t, f] _ _ ccs [tt, ft] _ _ := .cons hfits₁ ht
          (.cons (hfits₁.mono ht.advances.count) hf (inferredAll_nil ..))
        exact (inferred_cond hfits (hc.parts hfits hbranches) :)
      · intro _ _ hun Γ ρ hscopes hρ
        cases hρ with
        | cond _ _ hρ => exact hun Γ _ hscopes hρ
    · intro _ _ hun Γ ρ hscopes hρ
      cases hρ with
      | cond _ hρ _ => exact hun Γ _ hscopes hρ
  · intro _ _ hun Γ ρ hscopes hρ
    cases hρ with
    | cond hρ _ _ => exact hun Γ _ hscopes hρ

/-- Parameters without annotations are given fresh unknowns. -/
theorem ends_params : ∀ {ps : List Param}, (∀ p ∈ ps, p.typed = none) →
    ∀ {vars : Table String TyVar} {e : Env} {g : Generating}, e.Fits g.session.supply.count →
      Ends (params level ps vars e) g
        (fun out g' => BoundParams e ps g.session g'.session out.1 out.2 ∧
          ∀ Γ ρs, ps.length = ρs.length → Scopes e Γ →
            Scopes out.2 (Γ.bindAll (ps.map (·.name)) ρs))
        fun _ _ => False
  | [], _, _, e, g, hfits => ⟨boundParams_nil hfits, fun _ _ _ hscopes => hscopes⟩
  | p :: ps, hps, vars, e, g, hfits => by
      rw [params, hps p List.mem_cons_self]
      refine Ends.bind (ends_fresh (Ends.bind (ends_pure (Ends.bind ?_))))
      refine (ends_params (fun q hq => hps q (List.mem_cons_of_mem _ hq))
        (fits_param hfits p.name)).imp ?_ fun _ _ h => h
      rintro ⟨ts, e'⟩ g' ⟨hbound, hscopes⟩
      refine ends_pure ⟨hbound.cons, fun Γ ρs hlen hΓ => ?_⟩
      cases ρs with
      | nil => cases hlen
      | cons ρ ρs => exact hscopes _ ρs (Nat.succ.inj hlen) (hΓ.bind p.name _ _)

theorem infers_lambda (span : Span) {ps : List Param} {body : Expr}
    (hps : ∀ p ∈ ps, p.typed = none) (hbody : Infers limit body) :
    Infers limit (.lambda span ps body) := by
  intro e level g hfits
  rw [infer]
  refine Ends.bind ((ends_params hps hfits).imp ?_ fun _ _ h => h.elim)
  rintro ⟨ts, e'⟩ g₁ ⟨hbound, hscopes⟩
  refine Ends.bind ((hbody hbound.fits).imp ?_ ?_)
  · rintro ⟨t, cs⟩ g₂ ⟨E, hbody⟩
    refine ends_ret ?_
    exact (inferred_lambda hfits hbound hbody :)
  · intro _ _ hun Γ ρ hΓ hρ
    cases hρ with
    | lambda hlen hρ => exact hun _ _ (hscopes Γ _ hlen hΓ) hρ

/-! ## Definitions -/

/-- The last step of a definition: its demands are met on the spot, and its name gets a scheme. -/
theorem ends_settle {isRec : Bool} {name : String} {value : Expr} {σ : Session} {typed : Typed}
    {E : Equations} (hfits : e.Fits σ.supply.count)
    (hvalue : Made e (valueDemands isRec value) (ValueHasType isRec name value) σ g.session typed
      E) {err : Diagnostic → Generating → Prop} :
    Ends (settle limit e typed) g
      (fun scheme g' => Defined e isRec name value σ g'.session scheme typed.constraints E) err := by
  have hsettled := hvalue.settled hfits limit
  refine Ends.bind (ends_ofSession ?_)
  generalize (Session.solve limit typed.constraints).run g.session = out at hsettled ⊢
  obtain ⟨⟨s, failure⟩, τ⟩ := out
  obtain ⟨hadv, hout⟩ := hsettled
  cases failure with
  | none => exact hvalue.defined_closing hfits hadv (hvalue.posed hfits) hout
  | some d => exact hvalue.defined_mono hfits hadv fun θ hr hu => (hout θ hr hu).1

/-- A definition without an annotation. -/
theorem ends_binding (span : Span) (name : String) (isRec : Bool) {value : Expr}
    (hvalue : Infers limit value) (hfits : e.Fits g.session.supply.count) :
    Ends (binding limit e level ⟨span, name, isRec, none⟩
        fun valueEnv => infer limit valueEnv (level + 1) value) g
      (fun out g' => ∃ E, Defined e isRec name value g.session g'.session out.1 out.2 E)
      fun _ _ => ∀ Γ ρ, Scopes e Γ → ¬ ValueHasType isRec name value Γ ρ := by
  unfold binding
  refine Ends.bind (ends_pure ?_)
  cases isRec with
  | false =>
      refine Ends.bind (ends_pure (Ends.bind ((hvalue hfits).imp ?_ ?_)))
      · rintro ⟨t, cs⟩ g₁ ⟨E, hx⟩
        have hmade : Made e (valueDemands false value) (ValueHasType false name value) g.session
            g₁.session ⟨t, cs⟩ E := hx
        exact Ends.bind ((ends_settle hfits hmade).imp (fun _ _ hdef => ⟨E, hdef⟩) fun _ _ h => h)
      · exact fun _ _ hun Γ ρ hscopes hρ => hun Γ ρ hscopes hρ
  | true =>
      refine Ends.bind (Ends.bind (ends_fresh (ends_pure (Ends.bind ?_))))
      refine (hvalue (fits_param hfits name)).imp ?_ ?_
      · rintro ⟨t, cs⟩ g₁ ⟨E, hx⟩
        have hmade := made_rec span hfits hx
        exact Ends.bind ((ends_settle hfits hmade).imp (fun _ _ hdef => ⟨_, hdef⟩) fun _ _ h => h)
      · exact fun _ _ hun Γ ρ hscopes hρ => hun _ ρ (hscopes.bind name _ _) hρ

theorem infers_let (span : Span) (name : String) (isRec : Bool) {value body : Expr}
    (hvalue : Infers limit value) (hbody : Infers limit body) :
    Infers limit (.letIn span name isRec none value body) := by
  intro e level g hfits
  rw [infer]
  refine Ends.bind ((ends_binding span name isRec hvalue hfits).imp ?_ ?_)
  · rintro ⟨scheme, cs⟩ g₁ ⟨E₁, hdef⟩
    refine Ends.bind ((hbody hdef.fits).imp ?_ ?_)
    · rintro ⟨t, bcs⟩ g₂ ⟨E₂, hbody⟩
      exact ⟨_, inferred_let hfits hdef hbody⟩
    · intro _ _ hun Γ ρ hscopes hρ
      obtain ⟨_, _, _, _, hρ⟩ := hasType_let.1 hρ
      exact hun _ ρ (hscopes.bind name _ _) hρ
  · intro _ _ hun Γ ρ hscopes hρ
    obtain ⟨_, _, hρ, _, _⟩ := hasType_let.1 hρ
    exact hun Γ _ hscopes hρ

/-- Inference of every expression of the core language ends as it should. -/
theorem infers_core (limit : Nat) {x : Expr} (hx : x.Core) : Infers limit x := by
  induction hx with
  | literal span value hkind => exact infers_literal span value hkind
  | var span name => exact infers_var span name
  | call span _ _ ihf ihargs => exact infers_call span ihf ihargs
  | binary span hop _ _ ihl ihr => exact infers_binary span hop ihl ihr
  | unary span op _ ih => exact infers_unary span op ih
  | cond span _ _ _ ihc iht ihf => exact infers_cond span ihc iht ihf
  | lambda span hps _ ih => exact infers_lambda span hps ih
  | letIn span name isRec _ _ ihvalue ihbody => exact infers_let span name isRec ihvalue ihbody
  | tuple span _ ih => exact infers_tuple span ih

end Generate

end RowTypes
