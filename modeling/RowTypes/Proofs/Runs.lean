import RowTypes.Inference.Basic

/-!
# How runs end

Relating types and inferring them either finds something or fails, and what was used until then
counts in both cases.  `Ends` says what is true of each ending, and the rules here follow the ways
in which runs are put together, so that later proofs walk along a program and never look at the
state it passes on.
-/

namespace RowTypes

section Runs

variable {S α β : Type} {p : S} {ok : α → S → Prop} {err : Diagnostic → S → Prop}

/-- A run from a state ends with a result and a state as described, or with a failure and a state
as described. -/
def Ends (m : ExceptT Diagnostic (StateM S) α) (p : S) (ok : α → S → Prop)
    (err : Diagnostic → S → Prop) : Prop :=
  match m.run p with
  | (.ok a, q) => ok a q
  | (.error e, q) => err e q

theorem ends_pure {a : α} (h : ok a p) : Ends (pure a) p ok err := h

theorem ends_throw {e : Diagnostic} (h : err e p) :
    Ends (throw e : ExceptT Diagnostic (StateM S) α) p ok err := h

/-- Looking at the state changes nothing. -/
theorem ends_get {f : S → ExceptT Diagnostic (StateM S) α} (h : Ends (f p) p ok err) :
    Ends (get >>= f) p ok err := h

/-- A run that cannot fail, among runs that may. -/
theorem ends_lift {m : StateM S α} (h : ok (m.run p).1 (m.run p).2) :
    Ends (liftM m : ExceptT Diagnostic (StateM S) α) p ok err := h

theorem Ends.imp {m : ExceptT Diagnostic (StateM S) α} {ok' : α → S → Prop}
    {err' : Diagnostic → S → Prop} (h : Ends m p ok err) (hok : ∀ a q, ok a q → ok' a q)
    (herr : ∀ e q, err e q → err' e q) : Ends m p ok' err' := by
  unfold Ends at h ⊢
  split at h
  · exact hok _ _ h
  · exact herr _ _ h

/-- What a run that cannot fail passes on to the next one. -/
theorem StateM.run_bind (m : StateM S α) (f : α → StateM S β) (p : S) :
    (m >>= f).run p = (f (m.run p).1).run (m.run p).2 := rfl

/-- What a run passes on to the next one. -/
theorem run_bind (m : ExceptT Diagnostic (StateM S) α) (f : α → ExceptT Diagnostic (StateM S) β)
    (p : S) :
    (m >>= f).run p =
      match m.run p with
      | (.ok a, q) => (f a).run q
      | (.error e, q) => (.error e, q) := by
  show (match m.run p with | (r, q) => ExceptT.bindCont f r q) = _
  generalize m.run p = out
  obtain ⟨r, q⟩ := out
  cases r <;> rfl

theorem Ends.bind {m : ExceptT Diagnostic (StateM S) α} {f : α → ExceptT Diagnostic (StateM S) β}
    {ok : β → S → Prop} (h : Ends m p (fun a q => Ends (f a) q ok err) err) :
    Ends (m >>= f) p ok err := by
  unfold Ends at h
  rw [Ends, run_bind]
  generalize m.run p = out at h
  obtain ⟨r, q⟩ := out
  cases r <;> exact h

/-- Nothing is claimed of a run. -/
theorem ends_trivial (m : ExceptT Diagnostic (StateM S) α) (p : S) :
    Ends m p (fun _ _ => True) fun _ _ => True := by
  unfold Ends
  split <;> trivial

/-- Whatever a run comes to, the next one ends as described. -/
theorem ends_bind_of_forall {m : ExceptT Diagnostic (StateM S) α}
    {f : α → ExceptT Diagnostic (StateM S) β} {ok : β → S → Prop}
    (h : ∀ a q, Ends (f a) q ok fun _ _ => True) : Ends (m >>= f) p ok fun _ _ => True :=
  Ends.bind ((ends_trivial m p).imp (fun a q _ => h a q) fun _ _ h => h)

/-- What a run ends with is what it comes to. -/
theorem Ends.with_run {m : ExceptT Diagnostic (StateM S) α} (h : Ends m p ok err) :
    Ends m p (fun a q => ok a q ∧ m.run p = (.ok a, q)) err := by
  unfold Ends at h ⊢
  split at h
  · next hrun => exact ⟨h, hrun⟩
  · exact h

/-- What a run is known to come to is as described. -/
theorem Ends.of_run {m : ExceptT Diagnostic (StateM S) α} {a : α} {q : S} (h : Ends m p ok err)
    (hrun : m.run p = (.ok a, q)) : ok a q := by
  unfold Ends at h
  rw [hrun] at h
  exact h

/-- What is shown of a run in two ways holds of it at once. -/
theorem Ends.and {m : ExceptT Diagnostic (StateM S) α} {ok' : α → S → Prop}
    {err' : Diagnostic → S → Prop} (h : Ends m p ok err) (h' : Ends m p ok' err') :
    Ends m p (fun a q => ok a q ∧ ok' a q) fun e q => err e q ∧ err' e q := by
  unfold Ends at h h' ⊢
  generalize m.run p = out at h h'
  obtain ⟨r, q⟩ := out
  cases r <;> exact ⟨h, h'⟩

end Runs

/-! ## Heads -/

namespace Registry

variable {r : Registry} {t u : Ty}

/-- What expanding and unfolding keep is true of the head that they lead to. -/
theorem head?_induction {motive : Ty → Prop}
    (hexpand : ∀ {name args t}, motive (.named name args) → r.expand? name args = some t → motive t)
    (hunfold : ∀ {v t}, motive (.mu v t) → motive (.unfold v t)) (ht : motive t)
    (hu : r.head? t = some u) : motive u := by
  obtain ⟨n, hn⟩ := exists_of_search hu
  clear hu
  induction n generalizing t with
  | zero => cases hn
  | succ n ih =>
      cases t with
      | named name args =>
          rw [headWithin] at hn
          split at hn
          · next hexpands => exact ih (hexpand ht hexpands) hn
          · cases hn
            exact ht
      | mu v t => exact ih (hunfold ht) hn
      | _ => cases hn; exact ht

/-- A head that is a reference stands for nothing. -/
theorem expand?_of_head? {name : String} {args : List Ty}
    (hu : r.head? t = some (.named name args)) : r.expand? name args = none := by
  obtain ⟨n, hn⟩ := exists_of_search hu
  clear hu
  induction n generalizing t with
  | zero => cases hn
  | succ n ih =>
      cases t with
      | named name' args' =>
          rw [headWithin] at hn
          split at hn
          · exact ih hn
          · next hnone =>
              cases hn
              exact hnone
      | mu v t => exact ih hn
      | _ => cases hn

end Registry

/-! ## Relating types -/

namespace Relate

variable {α : Type} {p : Progress} {ok : α → Progress → Prop} {err : Diagnostic → Progress → Prop}

/-- That a search has to end is noted, and nothing else changes. -/
theorem ends_needs {P : Prop} {ok : Unit → Progress → Prop}
    (h : ok () { p with ends := p.ends ∧ P }) : Ends (needs P) p ok err := h

theorem run_orElseThrow (m : Relate α) (d : Diagnostic → Diagnostic) (p : Progress) :
    (orElseThrow m d).run p =
      match m.run p with
      | (.ok a, q) => (.ok a, q)
      | (.error e, q) => (.error (d e), q) := by
  simp only [orElseThrow, tryCatch, tryCatchThe, MonadExceptOf.tryCatch, ExceptT.tryCatch,
    ExceptT.run, ExceptT.mk, bind, StateT.bind]
  generalize m p = out
  obtain ⟨r, q⟩ := out
  cases r <;> rfl

theorem ends_orElseThrow {m : Relate α} {d : Diagnostic → Diagnostic}
    (h : Ends m p ok fun e q => err (d e) q) : Ends (orElseThrow m d) p ok err := by
  unfold Ends at h
  rw [Ends, run_orElseThrow]
  generalize m.run p = out at h
  obtain ⟨r, q⟩ := out
  cases r <;> exact h

theorem ends_fresh {level : Int} {ok : TyVar → Progress → Prop}
    (h : ok ⟨(p.supply.count : Int) + 1, level⟩ { p with supply := ⟨p.supply.count + 1⟩ }) :
    Ends (fresh level) p ok err := h

theorem ends_exceed {ctx : Context} {a b : Ty}
    (h : err (tooDeep ctx a b) { p with exceeded := true }) :
    Ends (exceed ctx a b : Relate α) p ok err := h

/-- A reference that stands for nothing is complained about. -/
theorem ends_expand_of_none {ctx : Context} {name : String} {args : List Ty}
    {ok : Ty → Progress → Prop} (hnone : ctx.registry.expand? name args = none)
    (h : ∀ e, err e p) : Ends (expand ctx name args) p ok err := by
  rw [Registry.expand?] at hnone
  unfold expand
  split
  · exact ends_throw (h _)
  · next d hd =>
    rw [hd, Option.bind_some] at hnone
    rw [hnone]
    exact ends_throw (h _)

/-- A type has a head, which is not a reference, or that it has none is complained about. -/
theorem ends_head {ctx : Context} {t : Ty} {ok : Ty → Progress → Prop}
    (h : ∀ u, ctx.registry.head? t = some u →
      ok u { p with ends := p.ends ∧ (ctx.registry.head? t).isSome })
    (herr : ∀ e, err e { p with ends := p.ends ∧ (ctx.registry.head? t).isSome }) :
    Ends (head ctx t) p ok err := by
  unfold head
  refine Ends.bind (ends_needs ?_)
  split
  · next hu => exact ends_expand_of_none (Registry.expand?_of_head? hu) herr
  · next hu => exact ends_pure (h _ hu)
  · exact ends_throw (herr _)

/-- Where a head is found, nothing else comes of looking for it. -/
theorem head_of_head? {ctx : Context} {t u : Ty} (hu : ctx.registry.head? t = some u)
    (hnamed : ∀ name args, u ≠ .named name args) : head ctx t = pure u := by
  funext p
  have hneeds : (needs (ctx.registry.head? t).isSome).run p = (.ok (), p) := by
    show (Except.ok (), { p with ends := p.ends ∧ (ctx.registry.head? t).isSome = true }) = _
    simp only [hu, Option.isSome_some, and_true]
  show (head ctx t).run p = _
  rw [head, run_bind, hneeds]
  dsimp only
  split
  · next name args heq => exact absurd (Option.some.inj (hu.symm.trans heq)) (hnamed name args)
  · next v _ heq =>
      cases hu.symm.trans heq
      rfl
  · next heq => cases hu.symm.trans heq

theorem head_record (ctx : Context) (fs : List (String × Ty)) (row : Option TyVar) :
    head ctx (.record fs row) = pure (.record fs row) :=
  head_of_head? (by rw [Registry.head?_step]) nofun

theorem run_assume (a b : Ty) (p : Progress) :
    (assume a b).run p =
      if p.assumed.contains (pairDigest a b) then (.ok true, p)
      else (.ok false, { p with assumed := pairDigest a b :: p.assumed }) := by
  have hget : ∀ {β : Type} (f : Progress → Relate β),
      ((get : Relate Progress) >>= f).run p = (f p).run p := fun _ => rfl
  rw [assume, hget]
  dsimp only
  split <;> rfl

end Relate

/-! ## Solving -/

namespace Session

variable {α : Type} {σ τ : Session} {span : Span} {ok : α → Session → Prop}
  {err : Diagnostic → Session → Prop}

/-- A session does what relating types comes to. -/
theorem run_relating (m : Context → Relate α) (out : Except Diagnostic α × Progress)
    (h : (m { registry := σ.registry, span }).run { supply := σ.supply } = out) :
    (relating span m).run σ = (out.1, σ.afterRelating out.2) := by
  subst h
  rfl

/-- A limit that was exceeded while types were related was exceeded. -/
theorem exceeded_afterRelating {progress : Progress} (h : progress.exceeded = true) :
    (σ.afterRelating progress).exceeded = true := by
  rw [afterRelating, h]
  exact Bool.or_true _

/-- Relating types that makes nothing leaves the session as it is. -/
theorem afterRelating_eq_self {progress : Progress} (hsupply : progress.supply = σ.supply)
    (hexceeded : progress.exceeded = false) (hends : progress.ends) : σ.afterRelating progress = σ := by
  obtain ⟨supply, registry, exceeded, P⟩ := σ
  rw [afterRelating, Session.mk.injEq]
  refine ⟨hsupply, rfl, ?_, propext (and_iff_left hends)⟩
  rw [hexceeded]
  exact Bool.or_false _

/-- It does not matter how it is put that every search ends. -/
theorem with_ends {ends : Prop} (hσ : σ.ends) (h : ends) : { σ with ends } = σ := by
  obtain ⟨supply, registry, exceeded, P⟩ := σ
  rw [Session.mk.injEq]
  exact ⟨rfl, rfl, rfl, propext ⟨fun _ => hσ, fun _ => h⟩⟩

/-- Relating types in a session ends as relating them does. -/
theorem ends_relating {m : Context → Relate α}
    (h : Ends (m { registry := σ.registry, span }) { supply := σ.supply }
      (fun a q => ok a (σ.afterRelating q)) fun e q => err e (σ.afterRelating q)) :
    Ends (relating span m) σ ok err := by
  unfold Ends at h
  rw [Ends, run_relating m _ rfl]
  generalize (m { registry := σ.registry, span }).run { supply := σ.supply } = out at h
  obtain ⟨result, q⟩ := out
  cases result <;> exact h

theorem exists_of_relating {m : Context → Relate α} {a : α}
    (h : (relating span m).run σ = (.ok a, τ)) :
    ∃ q, (m { registry := σ.registry, span }).run { supply := σ.supply } = (.ok a, q) ∧
      τ = σ.afterRelating q := by
  rw [run_relating m _ rfl] at h
  obtain ⟨hresult, rfl⟩ := Prod.mk.inj h
  exact ⟨_, Prod.ext hresult rfl, rfl⟩

end Session

/-! ## Inference -/

namespace Generate

variable {α : Type} {g : Generating} {ok : α → Generating → Prop}
  {err : Diagnostic → Generating → Prop}

/-- A step of the session does not fail, and changes nothing else. -/
theorem ends_ofSession {m : StateM Session α}
    (h : ok (m.run g.session).1 { g with session := (m.run g.session).2 }) :
    Ends (ofSession m) g ok err := h

/-- That a search has to end is noted, and nothing else changes. -/
theorem ends_needs {P : Prop} {ok : Unit → Generating → Prop}
    (h : ok () { g with session := { g.session with ends := g.session.ends ∧ P } }) :
    Ends (needs P) g ok err := h

theorem ends_fresh {level : Int} {ok : TyVar → Generating → Prop}
    (h : ok ⟨(g.session.supply.count : Int) + 1, level⟩
      { g with session := { g.session with supply := ⟨g.session.supply.count + 1⟩ } }) :
    Ends (fresh level) g ok err := h

end Generate

end RowTypes
