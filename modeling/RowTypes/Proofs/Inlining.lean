import Mathlib.Algebra.GroupWithZero.Nat
import Mathlib.Algebra.Order.BigOperators.Group.List
import RowTypes.Proofs.Derivations
import RowTypes.Proofs.Principality

/-!
# Inlining a definition

Putting the value of a definition for its name, in the core language, keeps what checks: the name
has a scheme, each use of it has an instance of that scheme, and the value has that instance as a
type, wherever the use stands.  The value keeps its meaning there because a binder on the way is
renamed when it would capture one of the value's free names.

This is about types only, which is all that a scheme holds.  In the whole language the value may
make other demands on its parameters, such as that they can be compared; those are made once, of
the value, and not again of its uses.
-/

namespace RowTypes

/-! ## Putting expressions for names -/

namespace Pattern

mutual

/-- The pattern with other names. -/
def rename (f : String → String) : Pattern → Pattern
  | .var span name => .var span (f name)
  | .tuple span ps => .tuple span (renameAll f ps)
  | .record span fs => .record span (renameFields f fs)
  | p => p

/-- Several patterns with other names. -/
def renameAll (f : String → String) : List Pattern → List Pattern
  | [] => []
  | p :: ps => p.rename f :: renameAll f ps

/-- The patterns of fields with other names. -/
def renameFields (f : String → String) : List (String × Pattern) → List (String × Pattern)
  | [] => []
  | (name, p) :: fs => (name, p.rename f) :: renameFields f fs

end

end Pattern

namespace Expr

/-- A name that is not among those to avoid: the name itself, or one longer than all of them. -/
def freshName (avoid : List String) (name : String) : String :=
  if name ∈ avoid then
    name ++ String.ofList (List.replicate ((avoid.map String.length).sum + 1) '_')
  else name

/-- The new name of a binder: none of those that what is put for the other names in its scope has
free. -/
def newName (σ : String → Expr) (scope : List String) (name : String) : String :=
  freshName ((scope.filter (· ≠ name)).flatMap fun y => (σ y).free) name

/-- Puts a name for a name, and for the others what was put for them. -/
def rebind (σ : String → Expr) (name name' : String) : String → Expr :=
  fun y => if y = name then .var {} name' else σ y

/-- The new names of several binders, the outermost one first, and what is put for names in their
scope. -/
def underAll (σ : String → Expr) (scope : List String) :
    List String → List String × (String → Expr)
  | [] => ([], σ)
  | name :: names =>
    let name' := newName σ (scope.filter (· ∉ names)) name
    let (names', σ') := underAll (rebind σ name name') scope names
    (name' :: names', σ')

/-- Parameters with new names. -/
def renamed (ps : List Param) (names : List String) : List Param :=
  List.zipWith (fun p name => { p with name }) ps names

mutual

/-- The expression with expressions in place of its free names. -/
def subst (σ : String → Expr) : Expr → Expr
  | .missing => .missing
  | .literal s kind value => .literal s kind value
  | .var s name => (σ name).relocate s
  | .call s f args => .call s (f.subst σ) (substAll σ args)
  | .binary s op l r => .binary s op (l.subst σ) (r.subst σ)
  | .unary s op e => .unary s op (e.subst σ)
  | .cond s c t e => .cond s (c.subst σ) (t.subst σ) (e.subst σ)
  | .lambda s ps b =>
    let under := underAll σ b.free (ps.map (·.name))
    .lambda s (renamed ps under.1) (b.subst under.2)
  | .letIn s name isRec a v b =>
    let name' := newName σ ((if isRec then v.free else []) ++ b.free) name
    let σ' := rebind σ name name'
    .letIn s name' isRec a (v.subst (if isRec then σ' else σ)) (b.subst σ')
  | .record s fs ss => .record s (substFields σ fs) (substAll σ ss)
  | .select s e field => .select s (e.subst σ) field
  | .tuple s es => .tuple s (substAll σ es)
  | .caseOf s v arms => .caseOf s (v.subst σ) (substArms σ arms)
  | .ascribe s e a => .ascribe s (e.subst σ) a

/-- Several expressions with expressions in place of their free names. -/
def substAll (σ : String → Expr) : List Expr → List Expr
  | [] => []
  | e :: es => e.subst σ :: substAll σ es

/-- Fields with expressions in place of the free names of their values. -/
def substFields (σ : String → Expr) : List (Labelled Expr) → List (Labelled Expr)
  | [] => []
  | ⟨s, name, e⟩ :: fs => ⟨s, name, e.subst σ⟩ :: substFields σ fs

/-- Cases with expressions in place of their free names. -/
def substArms (σ : String → Expr) : List (Arm Expr) → List (Arm Expr)
  | [] => []
  | ⟨s, p, e⟩ :: arms =>
    let names := p.vars.eraseDups
    let under := underAll σ e.free names
    ⟨s, p.rename fun name => ((names.zip under.1).lookup name).getD name, e.subst under.2⟩
      :: substArms σ arms

end

/-- The expression with a value in place of a name. -/
def inline (body : Expr) (name : String) (value : Expr) : Expr :=
  body.subst fun y => if y = name then value else .var {} y

theorem freshName_not_mem (avoid : List String) (name : String) : freshName avoid name ∉ avoid := by
  unfold freshName
  split
  · intro hmem
    have hle : ∀ {l : List String} {s : String}, s ∈ l → s.length ≤ (l.map String.length).sum :=
      fun hs => List.single_le_sum (by simp) _ (List.mem_map_of_mem hs)
    have := hle hmem
    simp only [String.length_append, String.length_ofList, List.length_replicate] at this
    omega
  · assumption

/-- A binder's new name captures nothing. -/
theorem newName_not_free {σ : String → Expr} {scope : List String} {name y : String}
    (hy : y ∈ scope) (hne : y ≠ name) : newName σ scope name ∉ (σ y).free := by
  intro hfree
  refine freshName_not_mem _ name (List.mem_flatMap.2 ⟨y, List.mem_filter.2 ⟨hy, ?_⟩, hfree⟩)
  simpa using hne

theorem length_underAll (scope : List String) : ∀ (σ : String → Expr) (names : List String),
    (underAll σ scope names).1.length = names.length
  | _, [] => rfl
  | σ, name :: names => by
      rw [underAll, List.length_cons, List.length_cons, length_underAll scope]

theorem names_renamed : ∀ {ps : List Param} {names : List String}, names.length = ps.length →
    (renamed ps names).map (·.name) = names
  | [], [], _ => rfl
  | p :: ps, name :: names, h => by
      rw [renamed, List.zipWith_cons_cons, List.map_cons]
      exact congrArg (name :: ·) (names_renamed (Nat.succ.inj h))

theorem typed_renamed : ∀ {ps : List Param} {names : List String}, (∀ p ∈ ps, p.typed = none) →
    ∀ p ∈ renamed ps names, p.typed = none
  | [], _, _ => by simp [renamed]
  | _ :: _, [], _ => by simp [renamed]
  | p :: ps, name :: names, h => by
      rw [List.forall_mem_cons] at h
      exact List.forall_mem_cons.2 ⟨h.1, typed_renamed h.2⟩

end Expr

/-! ## What has a type has it after -/

namespace Milner

theorem HasType.relocate {Γ : Context} {x : Expr} {τ : Mono Int} (h : HasType Γ x τ) (s : Span) :
    HasType Γ (x.relocate s) τ := by
  cases h with
  | literal h => exact .literal h
  | var hp hτ => exact .var hp hτ
  | call hf hargs => exact .call hf hargs
  | binary hop hl hr => exact .binary hop hl hr
  | unary hop hx => exact .unary hop hx
  | cond hc ht hf => exact .cond hc ht hf
  | lambda hlen hbody => exact .lambda hlen hbody
  | tuple hxs => exact .tuple hxs
  | letIn hvalue hA hbody => exact .letIn hvalue hA hbody
  | letRec hvalue hA hbody => exact .letRec hvalue hA hbody

/-- A binding of a name that is not free changes nothing. -/
theorem HasType.bind_of_not_free {Δ : Context} {x : Expr} {τ : Mono Int} (h : HasType Δ x τ)
    (hΔ : Δ.Bounded) {name : String} (hname : name ∉ x.free) (p : Poly) :
    HasType (Δ.bind name p) x τ := by
  rw [← Mono.bind_var τ]
  refine h.transfer (hΔ.bind name p) fun y hy => ?_
  have hne : y ≠ name := fun heq => hname (heq ▸ hy)
  rw [Context.bind, if_neg hne]
  cases Δ y with
  | none => exact .none
  | some q =>
      rw [Option.map_some, Poly.map_var]
      exact .some (.refl q)

/-- What is put for names has the types of the names, where types are put for the free names of
their schemes. -/
def Realizes (Δ Γ : Context) (θ : Int → Mono Int) (σ : String → Expr) (names : List String) :
    Prop :=
  ∀ y ∈ names, ∀ p, Γ y = some p → ∀ ρ, (p.map θ).Instance ρ → HasType Δ (σ y) ρ

namespace Realizes

variable {Δ Γ : Context} {θ θ' : Int → Mono Int} {σ : String → Expr} {names : List String}

theorem mono {names' : List String} (h : Realizes Δ Γ θ σ names') (hsub : names ⊆ names') :
    Realizes Δ Γ θ σ names := fun y hy => h y (hsub hy)

theorem congr (h : Realizes Δ Γ θ σ names) (hθ : ∀ a, Γ.Free a → θ' a = θ a) :
    Realizes Δ Γ θ' σ names := by
  intro y hy p hp ρ hρ
  rw [Poly.map_congr fun a ha => hθ a ⟨y, p, hp, ha⟩] at hρ
  exact h y hy p hp ρ hρ

theorem bind {name name' : String} {p q : Poly} (h : Realizes Δ Γ θ σ (names.filter (· ≠ name)))
    (hΔ : Δ.Bounded) (hfresh : ∀ y ∈ names, y ≠ name → name' ∉ (σ y).free)
    (hpq : q.Above (p.map θ)) :
    Realizes (Δ.bind name' q) (Γ.bind name p) θ (Expr.rebind σ name name') names := by
  intro y hy p' hp' ρ hρ
  unfold Context.bind at hp'
  unfold Expr.rebind
  by_cases hname : y = name
  · rw [if_pos hname] at hp' ⊢
    cases hp'
    exact .var (if_pos rfl) (hpq ρ hρ)
  · rw [if_neg hname] at hp' ⊢
    have hσ := h y (List.mem_filter.2 ⟨hy, by simpa using hname⟩) p' hp' ρ hρ
    exact hσ.bind_of_not_free hΔ (hfresh y hy hname) q

theorem bindMono {name name' : String} (h : Realizes Δ Γ θ σ (names.filter (· ≠ name)))
    (hΔ : Δ.Bounded) (hfresh : ∀ y ∈ names, y ≠ name → name' ∉ (σ y).free) (τ : Mono Int) :
    Realizes (Δ.bind name' (.mono (τ.bind θ))) (Γ.bind name (.mono τ)) θ
      (Expr.rebind σ name name') names :=
  h.bind hΔ hfresh (Poly.map_mono (θ := θ) τ ▸ .refl _)

theorem bindAll {params : List String} {τs : List (Mono Int)} (hlen : params.length = τs.length)
    (hΔ : Δ.Bounded) (h : Realizes Δ Γ θ σ (names.filter (· ∉ params))) :
    Realizes (Δ.bindAll (Expr.underAll σ names params).1 (τs.map (Mono.bind θ)))
      (Γ.bindAll params τs) θ (Expr.underAll σ names params).2 names := by
  induction params generalizing τs Γ Δ σ with
  | nil => simpa [Context.bindAll, Expr.underAll] using h
  | cons name params ih =>
      cases τs with
      | nil => cases hlen
      | cons τ τs =>
          refine ih (Nat.succ.inj hlen) (hΔ.bind _ _) (bindMono (h.mono fun y hy => ?_) hΔ ?_ τ)
          · simpa [and_assoc, and_comm, and_left_comm] using hy
          · exact fun y hy hne => Expr.newName_not_free hy hne

end Realizes

mutual

/-- An expression keeps its type when expressions of the right types are put for its names. -/
theorem HasType.subst {Γ : Context} {x : Expr} {τ : Mono Int} : HasType Γ x τ →
    ∀ {Δ : Context} {θ : Int → Mono Int} {σ : String → Expr}, Δ.Bounded →
      Realizes Δ Γ θ σ x.free → HasType Δ (x.subst σ) (τ.bind θ)
  | .literal h, _, θ, _, _, _ => by
      rw [bind_literalType? h θ]
      exact .literal h
  | @HasType.var _ span name p _ hp hτ, Δ, θ, σ, _, hσ =>
      (hσ name (by simp [Expr.free]) p hp _ (hτ.map θ)).relocate span
  | .call hf hargs, _, θ, _, hΔ, hσ => by
      rw [Expr.free] at hσ
      have hf := hf.subst hΔ (hσ.mono (List.subset_append_left ..))
      rw [Mono.bind_curried] at hf
      exact .call hf (hargs.subst hΔ (hσ.mono (List.subset_append_right ..)))
  | .binary hop hl hr, _, θ, _, hΔ, hσ => by
      rw [Expr.free] at hσ
      obtain ⟨hoperand, hresult⟩ := bind_binaryRule? hop θ
      have hl := hl.subst hΔ (hσ.mono (List.subset_append_left ..))
      have hr := hr.subst hΔ (hσ.mono (List.subset_append_right ..))
      rw [hoperand] at hl hr
      exact hresult.symm ▸ .binary hop hl hr
  | .unary hop hx, _, θ, _, hΔ, hσ => by
      rw [Expr.free] at hσ
      have hx := hx.subst hΔ hσ
      rw [bind_unaryType? hop θ] at hx ⊢
      exact .unary hop hx
  | .cond hc ht hf, _, θ, _, hΔ, hσ => by
      rw [Expr.free, List.append_assoc] at hσ
      have hrest := hσ.mono (List.subset_append_right ..)
      exact .cond (hc.subst hΔ (hσ.mono (List.subset_append_left ..)))
        (ht.subst hΔ (hrest.mono (List.subset_append_left ..)))
        (hf.subst hΔ (hrest.mono (List.subset_append_right ..)))
  | @HasType.lambda _ _ params body _ _ hlen hbody, _, θ, σ, hΔ, hσ => by
      rw [Expr.free] at hσ
      rw [Mono.bind_curried, Expr.subst]
      have hlength := (Expr.length_underAll body.free σ (params.map (·.name))).trans
        (List.length_map ..)
      have hnames := Expr.names_renamed hlength
      refine .lambda ?_ ?_
      · rw [← List.length_map (f := (·.name)), hnames, Expr.length_underAll]
        simpa using hlen
      · rw [hnames]
        exact hbody.subst (hΔ.bindAll _ _) (hσ.bindAll (by simpa using hlen) hΔ)
  | .tuple hxs, _, θ, _, hΔ, hσ => by
      rw [Expr.free] at hσ
      rw [Mono.bind, Mono.bindAll_eq_map]
      exact .tuple (hxs.subst hΔ hσ)
  | .letIn hvalue hA hbody, _, θ, σ, hΔ, hσ => by
      rw [Expr.free, if_neg (by decide)] at hσ
      rw [Expr.subst, if_neg (by decide), if_neg (by decide), List.nil_append]
      obtain ⟨n, hn⟩ := hΔ
      -- What is quantified is chosen anew above `n`, so that `Δ` has none of it free.
      obtain ⟨θ', B, hθ', hB, habove⟩ := exists_regeneralize hA θ _ n
      have hvalue := hvalue.subst ⟨n, hn⟩ ((hσ.mono (List.subset_append_left ..)).congr hθ')
      refine .letIn hvalue (fun b hb hfree => ?_) (hbody.subst (Context.Bounded.bind ⟨n, hn⟩ _ _)
        ((hσ.mono (List.subset_append_right ..)).bind ⟨n, hn⟩ ?_ habove))
      · have := hB b hb
        have := hn b hfree
        omega
      · exact fun y hy hne => Expr.newName_not_free hy hne
  | @HasType.letRec _ _ name value body _ _ _ hvalue hA hbody, _, θ, σ, hΔ, hσ => by
      rw [Expr.free, if_pos rfl] at hσ
      rw [Expr.subst, if_pos rfl, if_pos rfl]
      obtain ⟨n, hn⟩ := hΔ
      obtain ⟨θ', B, hθ', hB, habove⟩ := exists_regeneralize hA θ _ n
      have hvalue := hvalue.subst (Context.Bounded.bind ⟨n, hn⟩ _ _)
        (((hσ.mono (List.subset_append_left ..)).congr hθ').bindMono ⟨n, hn⟩
          (fun y hy hne => Expr.newName_not_free (List.mem_append_left body.free hy) hne) _)
      refine .letRec hvalue (fun b hb hfree => ?_) (hbody.subst (Context.Bounded.bind ⟨n, hn⟩ _ _)
        ((hσ.mono (List.subset_append_right ..)).bind ⟨n, hn⟩ ?_ habove))
      · have := hB b hb
        have := hn b hfree
        omega
      · exact fun y hy hne => Expr.newName_not_free (List.mem_append_right _ hy) hne

theorem HasTypes.subst {Γ : Context} {xs : List Expr} {τs : List (Mono Int)} :
    HasTypes Γ xs τs → ∀ {Δ : Context} {θ : Int → Mono Int} {σ : String → Expr}, Δ.Bounded →
      Realizes Δ Γ θ σ (Expr.freeAll xs) →
      HasTypes Δ (Expr.substAll σ xs) (τs.map (Mono.bind θ))
  | .nil, _, _, _, _, _ => .nil
  | .cons hx hxs, _, _, _, hΔ, hσ => by
      rw [Expr.freeAll] at hσ
      exact .cons (hx.subst hΔ (hσ.mono (List.subset_append_left ..)))
        (hxs.subst hΔ (hσ.mono (List.subset_append_right ..)))

end

end Milner

/-! ## Checking what is inlined -/

namespace Expr

theorem Core.relocate {x : Expr} (h : x.Core) (s : Span) : (x.relocate s).Core := by
  cases h with
  | literal _ value hkind => exact .literal s value hkind
  | var _ name => exact .var s name
  | call _ hf hargs => exact .call s hf hargs
  | binary _ hop hl hr => exact .binary s hop hl hr
  | unary _ op hx => exact .unary s op hx
  | cond _ hc ht hf => exact .cond s hc ht hf
  | lambda _ hps hb => exact .lambda s hps hb
  | letIn _ name isRec hv hb => exact .letIn s name isRec hv hb
  | tuple _ hxs => exact .tuple s hxs

theorem core_rebind {σ : String → Expr} (h : ∀ y, (σ y).Core) (name name' : String) (y : String) :
    (rebind σ name name' y).Core := by
  unfold rebind
  split
  · exact .var _ _
  · exact h y

theorem core_underAll {scope : List String} : ∀ {σ : String → Expr} {names : List String},
    (∀ y, (σ y).Core) → ∀ y, ((underAll σ scope names).2 y).Core
  | _, [], h => h
  | σ, name :: names, h => by
      rw [underAll]
      exact core_underAll (core_rebind h _ _)

theorem core_of_mem_substAll {σ : String → Expr} : ∀ {xs : List Expr},
    (∀ x ∈ xs, (x.subst σ).Core) → ∀ x ∈ substAll σ xs, x.Core
  | [], _ => by simp [substAll]
  | x :: xs, h => by
      rw [List.forall_mem_cons] at h
      exact List.forall_mem_cons.2 ⟨h.1, core_of_mem_substAll h.2⟩

theorem Core.subst {x : Expr} (hx : x.Core) : ∀ {σ : String → Expr}, (∀ y, (σ y).Core) →
    (x.subst σ).Core := by
  induction hx with
  | literal span value hkind => exact fun _ => .literal span value hkind
  | var span name => exact fun hσ => (hσ name).relocate span
  | call span _ _ ihf ihargs =>
      exact fun hσ => .call span (ihf hσ) (core_of_mem_substAll fun x hx => ihargs x hx hσ)
  | binary span hop _ _ ihl ihr => exact fun hσ => .binary span hop (ihl hσ) (ihr hσ)
  | unary span op _ ih => exact fun hσ => .unary span op (ih hσ)
  | cond span _ _ _ ihc iht ihf => exact fun hσ => .cond span (ihc hσ) (iht hσ) (ihf hσ)
  | lambda span hps _ ih => exact fun hσ => .lambda span (typed_renamed hps) (ih (core_underAll hσ))
  | letIn span name isRec _ _ ihv ihb =>
      intro σ hσ
      refine .letIn span _ isRec (ihv ?_) (ihb (core_rebind hσ _ _))
      cases isRec with
      | false => exact hσ
      | true => exact core_rebind hσ _ _
  | tuple span _ ih => exact fun hσ => .tuple span (core_of_mem_substAll fun x hx => ih x hx hσ)

theorem Core.inline {value body : Expr} (hbody : body.Core) (hvalue : value.Core) (name : String) :
    (body.inline name value).Core := by
  refine hbody.subst fun y => ?_
  split
  · exact hvalue
  · exact .var _ _

end Expr

namespace Milner

/-- The value of a definition has every instance of its scheme as a type, so it can stand for its
name. -/
theorem HasType.inline {Γ : Context} {span : Span} {name : String} {value body : Expr}
    {τ : Mono Int} (h : HasType Γ (.letIn span name false none value body) τ) (hΓ : Γ.Bounded) :
    HasType Γ (body.inline name value) τ := by
  cases h with
  | @letIn _ _ _ _ _ σ _ A hvalue hA hbody =>
      rw [← Mono.bind_var τ]
      refine hbody.subst hΓ fun y _ p hp ρ hρ => ?_
      rw [Poly.map_var] at hρ
      unfold Context.bind at hp
      split at hp
      · next hname =>
          cases hp
          obtain ⟨r, rfl⟩ := Poly.instance_quantify.1 hρ
          rw [if_pos hname]
          -- Nothing is put for the free names of the context, which are none that were bound.
          refine hvalue.transfer hΓ ((Context.supports_self Γ _).congr fun a ha => ?_)
          exact if_neg fun hmem => hA a hmem ha
      · next hname =>
          rw [if_neg hname]
          exact .var hp hρ

end Milner

namespace Generate

end Generate

namespace Checker

open Milner

/-- A use of a name where a parameter hides the one of the prelude. -/
def shadowing : Expr := .lambda {} [⟨{}, "length", none⟩] (.var {} "f")

end Checker

end RowTypes
