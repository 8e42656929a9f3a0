import RowTypes.Proofs.Inference

/-!
# What a derivation depends on

A derivation in the Damas–Milner system looks at the schemes of the names that are free in its
expression and at nothing else, and it stays one when types are put for the names of its types.
Both are the same induction (`HasType.transfer`).  A definition is where there is something to do:
the names that its scheme is closed over were chosen to be free nowhere in the old context, and the
new one may have them, so they are chosen again.  That takes names that are not in use, hence
contexts that use only names below some bound.
-/

namespace RowTypes

/-! ## Free names of expressions -/

namespace Expr

mutual

/-- The names that are free in an expression. -/
def free : Expr → List String
  | .missing | .literal .. => []
  | .var _ name => [name]
  | .call _ f args => f.free ++ freeAll args
  | .binary _ _ l r => l.free ++ r.free
  | .unary _ _ e | .select _ e _ | .ascribe _ e _ => e.free
  | .cond _ c t e => c.free ++ t.free ++ e.free
  | .lambda _ ps b => b.free.filter (· ∉ ps.map (·.name))
  | .letIn _ name isRec _ v b =>
    (if isRec then v.free.filter (· ≠ name) else v.free) ++ b.free.filter (· ≠ name)
  | .record _ fs ss => freeFields fs ++ freeAll ss
  | .tuple _ es => freeAll es
  | .caseOf _ v arms => v.free ++ freeArms arms

/-- The names that are free in several expressions. -/
def freeAll : List Expr → List String
  | [] => []
  | e :: es => e.free ++ freeAll es

/-- The names that are free in the values of fields. -/
def freeFields : List (Labelled Expr) → List String
  | [] => []
  | ⟨_, _, e⟩ :: fs => e.free ++ freeFields fs

/-- The names that are free in cases, of which each binds the names of its pattern. -/
def freeArms : List (Arm Expr) → List String
  | [] => []
  | ⟨_, p, e⟩ :: arms => e.free.filter (· ∉ p.vars) ++ freeArms arms

end

end Expr

namespace Milner

/-! ## Types in place of names -/

namespace Poly

variable {p : Poly} {θ θ' : Int → Mono Int}

/-- The free names of a scheme are below some bound. -/
theorem exists_bound (p : Poly) : ∃ n : Int, ∀ a, p.Free a → a < n := by
  obtain ⟨n, hn⟩ := (p.bind (Sum.elim .var fun _ => .prim "Unit")).exists_bound
  exact ⟨n, fun a ha => hn a (Mono.occurs_bind.2 ⟨.inl a, ha, .var⟩)⟩

/-- Puts types for the free names of a scheme. -/
def map (θ : Int → Mono Int) (p : Poly) : Poly :=
  p.bind (Sum.elim (fun a => mono (θ a)) fun b => .var (.inr b))

theorem map_congr (h : ∀ a, p.Free a → θ a = θ' a) : p.map θ = p.map θ' := by
  refine Mono.bind_congr p fun a ha => ?_
  cases a with
  | inl a => rw [Sum.elim_inl, Sum.elim_inl, h a ha]
  | inr b => rfl

theorem map_var (p : Poly) : p.map .var = p := by
  rw [map]
  refine (Mono.bind_congr p fun a _ => ?_).trans (Mono.bind_var p)
  cases a <;> rfl

theorem map_mono (τ : Mono Int) : (mono τ).map θ = mono (τ.bind θ) := by
  rw [map, mono, mono, Mono.bind_bind, Mono.bind_bind]
  rfl

theorem instance_map {ρ : Mono Int} :
    (p.map θ).Instance ρ ↔ ∃ r : Int → Mono Int, ρ = p.bind (Sum.elim θ r) := by
  refine exists_congr fun r => ?_
  have hfun : (fun a => ((Sum.elim (fun a => mono (θ a)) fun b => .var (.inr b)) a : Poly).bind
      (Sum.elim .var r)) = Sum.elim θ r := by
    funext a
    cases a with
    | inl a => rw [Sum.elim_inl, Sum.elim_inl, mono, Mono.bind_bind]; exact Mono.bind_var _
    | inr b => rfl
  rw [map, Mono.bind_bind, hfun]

theorem Instance.map {ρ : Mono Int} (h : p.Instance ρ) (θ : Int → Mono Int) :
    (p.map θ).Instance (ρ.bind θ) := by
  obtain ⟨r, rfl⟩ := h
  refine instance_map.2 ⟨fun b => (r b).bind θ, ?_⟩
  rw [Mono.bind_bind]
  refine Mono.bind_congr p fun a _ => ?_
  cases a <;> rfl

/-- What a closed type becomes when the names it is closed over are chosen again. The new names
must not be among those that are put for its other names. -/
theorem above_quantify {A : List Int} {σ : Mono Int} {k : Int}
    (hk : ∀ a, σ.Occurs a → a ∉ A → ∀ b, (θ a).Occurs b → b ∉ A.map (· + k)) :
    (quantify (A.map (· + k)) (σ.bind fun a => if a ∈ A then .var (a + k) else θ a)).Above
      ((quantify A σ).map θ) := by
  intro ρ hρ
  obtain ⟨r, rfl⟩ := instance_map.1 hρ
  refine instance_quantify.2 ⟨fun b => r (b - k), ?_⟩
  rw [quantify, Mono.bind_bind, Mono.bind_bind]
  refine Mono.bind_congr σ fun a ha => ?_
  by_cases hA : a ∈ A
  · simp [Mono.bind, hA]
  · rw [if_neg hA, if_neg hA, Mono.bind, Sum.elim_inl]
    refine (Mono.bind_var (θ a)).symm.trans (Mono.bind_congr (θ a) fun b hb => ?_)
    rw [if_neg (hk a ha hA b hb)]

end Poly

namespace Context

variable {Γ Δ : Context} {θ θ' : Int → Mono Int}

/-- The free names of a context are below some bound. -/
def Bounded (Γ : Context) : Prop := ∃ n : Int, ∀ a, Γ.Free a → a < n

theorem Bounded.bind (h : Γ.Bounded) (name : String) (p : Poly) : (Γ.bind name p).Bounded := by
  obtain ⟨n, hn⟩ := h
  obtain ⟨m, hm⟩ := Poly.exists_bound p
  refine ⟨max n m, ?_⟩
  rintro a ⟨x, q, hq, ha⟩
  unfold Context.bind at hq
  split at hq
  · cases hq
    have := hm a ha
    omega
  · have := hn a ⟨x, q, hq, ha⟩
    omega

theorem Bounded.bindAll (h : Γ.Bounded) (names : List String) (τs : List (Mono Int)) :
    (Γ.bindAll names τs).Bounded := by
  unfold Context.bindAll
  generalize names.zip τs = entries
  induction entries generalizing Γ with
  | nil => exact h
  | cons entry entries ih => exact ih (h.bind _ _)

/-- A context has schemes for some names that are above those of another one, where types are put
for the free names of the latter. -/
def Supports (Δ Γ : Context) (θ : Int → Mono Int) (names : List String) : Prop :=
  ∀ y ∈ names, Option.Rel Poly.Above (Δ y) ((Γ y).map (Poly.map θ))

theorem supports_self (Γ : Context) (names : List String) : Γ.Supports Γ .var names := by
  intro y _
  cases Γ y with
  | none => exact .none
  | some p =>
      rw [Option.map_some, Poly.map_var]
      exact .some (.refl p)

theorem Supports.mono {names names' : List String} (h : Δ.Supports Γ θ names')
    (hsub : names ⊆ names') : Δ.Supports Γ θ names := fun y hy => h y (hsub hy)

theorem Supports.congr {names : List String} (h : Δ.Supports Γ θ names)
    (hθ : ∀ a, Γ.Free a → θ' a = θ a) : Δ.Supports Γ θ' names := by
  intro y hy
  have hrel := h y hy
  cases hp : Γ y with
  | none => rwa [hp] at hrel
  | some p =>
      rw [hp, Option.map_some] at hrel
      rwa [Option.map_some, Poly.map_congr fun a ha => hθ a ⟨y, p, hp, ha⟩]

theorem Supports.bind {names : List String} {name : String} {p q : Poly}
    (h : Δ.Supports Γ θ (names.filter (· ≠ name))) (hpq : q.Above (p.map θ)) :
    (Δ.bind name q).Supports (Γ.bind name p) θ names := by
  intro y hy
  unfold Context.bind
  by_cases hname : y = name
  · simp only [hname, if_true, Option.map_some]
    exact .some hpq
  · simp only [hname, if_false]
    exact h y (List.mem_filter.2 ⟨hy, by simpa using hname⟩)

theorem Supports.bindMono {names : List String} {name : String}
    (h : Δ.Supports Γ θ (names.filter (· ≠ name))) (τ : Mono Int) :
    (Δ.bind name (.mono (τ.bind θ))).Supports (Γ.bind name (.mono τ)) θ names :=
  h.bind (Poly.map_mono (θ := θ) τ ▸ .refl _)

theorem Supports.bindAll {params : List String} {names : List String} {τs : List (Mono Int)}
    (hlen : params.length = τs.length) (h : Δ.Supports Γ θ (names.filter (· ∉ params))) :
    (Δ.bindAll params (τs.map (Mono.bind θ))).Supports (Γ.bindAll params τs) θ names := by
  induction params generalizing τs Γ Δ with
  | nil => simpa [Context.bindAll] using h
  | cons name params ih =>
      cases τs with
      | nil => cases hlen
      | cons τ τs =>
          refine ih (Nat.succ.inj hlen) (Supports.bindMono (h.mono fun y hy => ?_) τ)
          simpa [and_assoc, and_comm, and_left_comm] using hy

end Context

/-- The names that a definition is closed over can be chosen again, above any bound, and so that
types are put for the other names of its type. -/
theorem exists_regeneralize {Γ : Context} {A : List Int} (hA : ∀ a ∈ A, ¬ Γ.Free a)
    (θ : Int → Mono Int) (σ : Mono Int) (n : Int) :
    ∃ (θ' : Int → Mono Int) (B : List Int), (∀ a, Γ.Free a → θ' a = θ a) ∧ (∀ b ∈ B, n ≤ b) ∧
      (Poly.quantify B (σ.bind θ')).Above ((Poly.quantify A σ).map θ) := by
  obtain ⟨m, hm⟩ := (σ.bind θ).exists_bound
  obtain ⟨l, hl⟩ := exists_bound (l := A) (P := fun a b => b = -a)
    fun a _ => ⟨-a + 1, fun b hb => by omega⟩
  obtain ⟨k, hk⟩ : ∃ k : Int, ∀ a ∈ A, max n m ≤ a + k := by
    refine ⟨max n m + l, fun a ha => ?_⟩
    have := hl a ha (-a) rfl
    omega
  refine ⟨_, A.map (· + k), fun a ha => if_neg fun hmem => hA a hmem ha, ?_,
    Poly.above_quantify fun a ha _ b hb hmem => ?_⟩
  · intro b hb
    obtain ⟨a, ha, rfl⟩ := List.mem_map.1 hb
    have := hk a ha
    omega
  · obtain ⟨c, hc, rfl⟩ := List.mem_map.1 hmem
    have hlow : c + k < m := hm (c + k) (Mono.occurs_bind.2 ⟨a, ha, hb⟩)
    have := hk c hc
    omega

/-! ## Derivations in other contexts -/

theorem bind_literalType? {kind : LiteralKind} {τ : Mono Int} (h : literalType? kind = some τ)
    (θ : Int → Mono Int) : τ.bind θ = τ := by
  cases kind <;> cases h <;> rfl

theorem bind_unaryType? {op : String} {τ : Mono Int} (h : unaryType? op = some τ.toTy)
    (θ : Int → Mono Int) : τ.bind θ = τ := by
  obtain ⟨name, hname⟩ := Generate.exists_prim_of_unaryType? h
  rw [eq_prim_of_toTy hname, Mono.bind]

theorem bind_binaryRule? {op : String} {σ τ : Mono Int}
    (h : binaryRule? op = some (.typed σ.toTy τ.toTy)) (θ : Int → Mono Int) :
    σ.bind θ = σ ∧ τ.bind θ = τ := by
  have hop : op ∉ ["==", "!="] := by
    intro hop
    rcases List.mem_pair.1 hop with rfl | rfl <;> cases h
  obtain ⟨operand, result, hrule⟩ := Generate.exists_prims_of_binaryRule? hop h
  injection hrule with hσ hτ
  rw [eq_prim_of_toTy hσ, eq_prim_of_toTy hτ, Mono.bind, Mono.bind]
  exact ⟨rfl, rfl⟩

mutual

/-- What has a type still has it where types are put for names, in every context that supports the
free names of the expression. -/
theorem HasType.transfer {Γ : Context} {x : Expr} {τ : Mono Int} : HasType Γ x τ →
    ∀ {Δ : Context} {θ : Int → Mono Int}, Δ.Bounded → Δ.Supports Γ θ x.free →
      HasType Δ x (τ.bind θ)
  | .literal h, _, θ, _, _ => by
      rw [bind_literalType? h θ]
      exact .literal h
  | @HasType.var _ _ name p _ hp hτ, Δ, θ, _, hsup => by
      have hrel := hsup name (by simp [Expr.free])
      rw [hp, Option.map_some] at hrel
      cases hq : Δ name with
      | none => rw [hq] at hrel; cases hrel
      | some q =>
          rw [hq] at hrel
          cases hrel with
          | some habove => exact .var hq (habove _ (hτ.map θ))
  | .call hf hargs, _, θ, hΔ, hsup => by
      rw [Expr.free] at hsup
      have hf := hf.transfer hΔ (hsup.mono (List.subset_append_left ..))
      rw [Mono.bind_curried] at hf
      exact .call hf (hargs.transfer hΔ (hsup.mono (List.subset_append_right ..)))
  | .binary hop hl hr, _, θ, hΔ, hsup => by
      rw [Expr.free] at hsup
      obtain ⟨hσ, hτ⟩ := bind_binaryRule? hop θ
      have hl := hl.transfer hΔ (hsup.mono (List.subset_append_left ..))
      have hr := hr.transfer hΔ (hsup.mono (List.subset_append_right ..))
      rw [hσ] at hl hr
      exact hτ.symm ▸ .binary hop hl hr
  | .unary hop hx, _, θ, hΔ, hsup => by
      rw [Expr.free] at hsup
      have hx := hx.transfer hΔ hsup
      rw [bind_unaryType? hop θ] at hx ⊢
      exact .unary hop hx
  | .cond hc ht hf, _, θ, hΔ, hsup => by
      rw [Expr.free, List.append_assoc] at hsup
      have hrest := hsup.mono (List.subset_append_right ..)
      exact .cond (hc.transfer hΔ (hsup.mono (List.subset_append_left ..)))
        (ht.transfer hΔ (hrest.mono (List.subset_append_left ..)))
        (hf.transfer hΔ (hrest.mono (List.subset_append_right ..)))
  | .lambda hlen hbody, _, θ, hΔ, hsup => by
      rw [Expr.free] at hsup
      rw [Mono.bind_curried]
      refine .lambda (by simpa using hlen) (hbody.transfer (hΔ.bindAll _ _) ?_)
      exact hsup.bindAll (by simpa using hlen)
  | .tuple hxs, _, θ, hΔ, hsup => by
      rw [Expr.free] at hsup
      rw [Mono.bind, Mono.bindAll_eq_map]
      exact .tuple (hxs.transfer hΔ hsup)
  | .letIn hvalue hA hbody, _, θ, hΔ, hsup => by
      rw [Expr.free, if_neg (by decide)] at hsup
      obtain ⟨n, hn⟩ := hΔ
      -- `Δ` may have free what `A` quantifies: the quantified variables are chosen anew above `n`.
      obtain ⟨θ', B, hθ', hB, habove⟩ := exists_regeneralize hA θ _ n
      have hvalue := hvalue.transfer ⟨n, hn⟩
        ((hsup.mono (List.subset_append_left ..)).congr hθ')
      refine .letIn hvalue (fun b hb hfree => ?_) (hbody.transfer (Context.Bounded.bind ⟨n, hn⟩ _ _)
        ((hsup.mono (List.subset_append_right ..)).bind habove))
      have := hB b hb
      have := hn b hfree
      omega
  | .letRec hvalue hA hbody, _, θ, hΔ, hsup => by
      rw [Expr.free, if_pos rfl] at hsup
      obtain ⟨n, hn⟩ := hΔ
      obtain ⟨θ', B, hθ', hB, habove⟩ := exists_regeneralize hA θ _ n
      have hvalue := hvalue.transfer (Context.Bounded.bind ⟨n, hn⟩ _ _)
        (((hsup.mono (List.subset_append_left ..)).congr hθ').bindMono _)
      refine .letRec hvalue (fun b hb hfree => ?_)
        (hbody.transfer (Context.Bounded.bind ⟨n, hn⟩ _ _)
          ((hsup.mono (List.subset_append_right ..)).bind habove))
      have := hB b hb
      have := hn b hfree
      omega

theorem HasTypes.transfer {Γ : Context} {xs : List Expr} {τs : List (Mono Int)} :
    HasTypes Γ xs τs → ∀ {Δ : Context} {θ : Int → Mono Int}, Δ.Bounded →
      Δ.Supports Γ θ (Expr.freeAll xs) → HasTypes Δ xs (τs.map (Mono.bind θ))
  | .nil, _, _, _, _ => .nil
  | .cons hx hxs, _, _, hΔ, hsup => by
      rw [Expr.freeAll] at hsup
      exact .cons (hx.transfer hΔ (hsup.mono (List.subset_append_left ..)))
        (hxs.transfer hΔ (hsup.mono (List.subset_append_right ..)))

end

end Milner

end RowTypes
