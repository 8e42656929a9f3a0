import Mathlib.Logic.Relation
import RowTypes.Proofs.HeadCovering
import RowTypes.Proofs.Runs
import RowTypes.Registry.Resolve

/-!
# Expanding the head of a type

Comparing types expands the references at their heads until a constructor shows, with nothing else
to stop it.  A definition is therefore refused when following the references from its body comes
back to a name that was followed before.  The walk sees the body with its parameters unknown, and it
is made once, when the definition is added.

That is enough for a definition without parameters: nothing is put into its body later, and an
expansion that did not end would have to come back to it from its own body.  With parameters two
things can go wrong that the walk does not see.  A definition made earlier may be waiting for the
new one and put itself in for a parameter (`A = F[A]`, and then `F[a] = a`).  And a union that
stands between two references may collapse when its alternatives become the same
(`D[a, b] = D[a, b] | D[b, a]`, at two equal arguments).  So of definitions with parameters it is
asked that none made before waits for them, and that their unions are anchored.

Then the expansion of an instance follows the expansion of the body, as far as that goes, and goes
on in an argument where the body ends in a parameter; so instances at arguments that settle do so.
-/

namespace RowTypes

namespace Registry

/-- One of the references at the head of a type is replaced by what it stands for. -/
def HeadStep (r : Registry) (t u : Ty) : Prop :=
  ∃ name args, (name, args) ∈ t.headRefs ∧ r.expand? name args = some u

/-- Expanding the head of a type ends, whichever references are followed. -/
def Settles (r : Registry) (t : Ty) : Prop := Acc (fun u t => r.HeadStep t u) t

/-- Expanding the head of a type can come to a reference to a name with a number of arguments. -/
def Meets (r : Registry) (t : Ty) (name : String) (arity : Nat) : Prop :=
  ∃ u args, Relation.ReflTransGen r.HeadStep t u ∧ (name, args) ∈ u.headRefs ∧ args.length = arity

variable {r : Registry} {d : Definition} {t u : Ty} {name : String} {args : List Ty}

theorem Settles.expand (h : r.Settles t) (href : (name, args) ∈ t.headRefs)
    (hu : r.expand? name args = some u) : r.Settles u := h.inv ⟨name, args, href, hu⟩

/-- A reference settles with any type at whose head it stands. -/
theorem Settles.ref (h : r.Settles t) (href : (name, args) ∈ t.headRefs) :
    r.Settles (.named name args) := by
  refine Acc.intro _ ?_
  rintro u ⟨name', args', href', hu⟩
  rw [Ty.headRefs, List.mem_singleton] at href'
  cases href'
  exact h.expand href hu

theorem settles_of_refs (h : ∀ name args, (name, args) ∈ t.headRefs → ∀ u,
    r.expand? name args = some u → r.Settles u) : r.Settles t :=
  Acc.intro t fun u ⟨name, args, href, hu⟩ => h name args href u hu

theorem Meets.step {arity : Nat} (h : r.Meets u name arity) (hstep : r.HeadStep t u) :
    r.Meets t name arity := by
  obtain ⟨v, args, hpath, hv⟩ := h
  exact ⟨v, args, .head hstep hpath, hv⟩

theorem lookup?_insert (r : Registry) (d : Definition) (name : String) :
    (r.insert d).lookup? name = if name = d.name then some d else r.lookup? name := by
  unfold insert lookup?
  split
  · next h => rw [h, Table.get?_insert_self]
  · next h => rw [Table.get?_insert_of_ne h]

theorem expand?_insert_of_ne (h : name ≠ d.name) (args : List Ty) :
    (r.insert d).expand? name args = r.expand? name args := by
  rw [expand?, expand?, lookup?_insert, if_neg h]

theorem expand?_insert_self (r : Registry) (d : Definition) (args : List Ty) :
    (r.insert d).expand? d.name args = d.expand? args := by
  rw [expand?, lookup?_insert, if_pos rfl, Option.bind_some]

theorem mem_names_of_expand? (h : r.expand? name args = some u) : name ∈ r.names := by
  cases hd : r.lookup? name with
  | none => rw [expand?, hd] at h; cases h
  | some d => exact Table.get?_isSome.1 (by rw [← lookup?, hd]; rfl)

/-! ## The walk that looks for cycles -/

theorem cycleWithin_succ {n : Nat} {trail : Trail String}
    (h : r.cycleWithin (n + 1) trail t = none) (href : (name, args) ∈ t.headRefs) :
    name ∉ trail.items ∧
      ∀ u, r.expand? name args = some u → r.cycleWithin n (trail.push name) u = none := by
  rw [cycleWithin, List.findSome?_eq_none_iff] at h
  have h := h _ href
  simp only [Trail.contains, decide_eq_true_eq] at h
  split at h
  · cases h
  · next hmem =>
      refine ⟨hmem, fun u hu => ?_⟩
      rw [hu] at h
      exact h

/-- The names on a trail are different names of the registry. -/
structure OnWay (r : Registry) (trail : Trail String) : Prop where
  nodup : trail.items.Nodup
  names : ∀ name ∈ trail.items, name ∈ r.names

theorem OnWay.length_le {trail : Trail String} (h : r.OnWay trail) :
    trail.items.length ≤ r.names.length := (List.subperm_of_subset h.nodup h.names).length_le

theorem OnWay.push {trail : Trail String} (h : r.OnWay trail) (hnew : name ∉ trail.items)
    (hu : r.expand? name args = some u) : r.OnWay (trail.push name) where
  nodup := by
    refine List.nodup_append.2 ⟨h.nodup, List.pairwise_singleton _ name, fun a ha b hb => ?_⟩
    rintro rfl
    exact hnew (List.mem_singleton.1 hb ▸ ha)
  names := by
    intro x hx
    rcases List.mem_append.1 hx with hx | hx
    · exact h.names x hx
    · rw [List.mem_singleton.1 hx]
      exact mem_names_of_expand? hu

theorem onWay_start (r : Registry) (d : Definition) :
    (r.insert d).OnWay (({} : Trail String).push d.name) where
  nodup := by simp [Trail.push]
  names := by
    intro x hx
    rw [show x = d.name by simpa [Trail.push] using hx]
    exact Table.get?_isSome.1 (by rw [← lookup?, lookup?_insert, if_pos rfl]; rfl)

/-- A walk that ends without a cycle never comes back to the names on its trail, and it does not run
out of steps before. -/
theorem not_meets_of_cycleWithin {arity : Nat} : ∀ {n : Nat} {trail : Trail String} {t : Ty},
    r.cycleWithin n trail t = none → r.OnWay trail →
    trail.items.length + n = r.names.length + 2 → name ∈ trail.items → ¬ r.Meets t name arity := by
  intro n
  induction n with
  | zero =>
      intro trail t _ hway hlen _ _
      have := hway.length_le
      omega
  | succ n ih =>
      intro trail t h hway hlen hname hmeets
      obtain ⟨v, args, hpath, hv, harity⟩ := hmeets
      rcases Relation.ReflTransGen.cases_head hpath with rfl | ⟨u, ⟨next, args', href, hu⟩, hpath⟩
      · exact (cycleWithin_succ h hv).1 hname
      · obtain ⟨hnext, hwalk⟩ := cycleWithin_succ h href
        refine ih (hwalk u hu) (hway.push hnext hu) ?_ ?_ ⟨v, args, hpath, hv, harity⟩
        · simp only [Trail.push, List.length_append, List.length_singleton]
          omega
        · exact List.mem_append_left _ hname

theorem Meets.mono {r' : Registry} {arity : Nat} (h : r.Meets t name arity)
    (hr : ∀ t u, r.HeadStep t u → r'.HeadStep t u) : r'.Meets t name arity := by
  obtain ⟨u, args, hpath, hu⟩ := h
  exact ⟨u, args, Relation.ReflTransGen.mono hr _ _ hpath, hu⟩

/-- What is accepted does not come back to itself from its own body. -/
theorem not_meets_body {arity : Nat} (hnew : r.lookup? d.name = none) (hcycle : r.cycle? d = none) :
    ¬ r.Meets d.body d.name arity := by
  intro hmeets
  have hstep : ∀ t u, r.HeadStep t u → (r.insert d).HeadStep t u := by
    rintro t u ⟨name, args, href, hu⟩
    refine ⟨name, args, href, ?_⟩
    rw [expand?_insert_of_ne ?_, hu]
    rintro rfl
    rw [expand?, hnew] at hu
    cases hu
  refine not_meets_of_cycleWithin hcycle (onWay_start r d) ?_ ?_ (hmeets.mono hstep)
  · simp only [Trail.push, List.nil_append, List.length_singleton, names, Table.keys, List.length_map]
    omega
  · simp [Trail.push]

/-! ## What one more definition changes -/

/-- Every definition is steady. -/
def Steady (r : Registry) : Prop := ∀ name d, r.lookup? name = some d → d.Steady

/-- What is covered by a type that never comes to a new definition settles with it: each step
below is one that the type above takes too. -/
theorem Settles.of_covers (hsteady : (r.insert d).Steady) (hu : r.Settles u)
    (hmeets : ¬ r.Meets u d.name d.params.length) (h : Ty.Covers (r.insert d).Settles u t) :
    (r.insert d).Settles t := by
  induction hu generalizing t with
  | intro u _ ih =>
      refine settles_of_refs fun name bs href t' ht' => ?_
      rcases Ty.covers_iff.1 h name bs href with hsettled | ⟨as, has, hcov⟩
      · exact hsettled.expand (List.mem_singleton.2 rfl) ht'
      by_cases hname : name = d.name
      · subst hname
        rw [expand?_insert_self, Definition.expand?] at ht'
        split at ht'
        · next hlen =>
            exact absurd ⟨u, as, .refl, has, hcov.length_eq.trans hlen⟩ hmeets
        · cases ht'
      · cases hd : r.lookup? name with
        | none => rw [expand?_insert_of_ne hname, expand?, hd] at ht'; cases ht'
        | some e =>
            have he : e.Steady := hsteady name e (by rw [lookup?_insert, if_neg hname, hd])
            rw [expand?_insert_of_ne hname, expand?, hd] at ht'
            obtain ⟨u', hu', hcov'⟩ := he.covers_expand? hcov ht'
            have hstep : r.HeadStep u u' := ⟨name, as, has, by rw [expand?, hd]; exact hu'⟩
            exact ih u' hstep (fun hm => hmeets (hm.step hstep)) hcov'

/-- The instances of a definition at arguments that settle do so, if its body settled before and
does not come to the new definition. -/
theorem settles_instance (hsteady : (r.insert d).Steady) {e : Definition} (he : e.Steady)
    (hbody : r.Settles e.body) (hmeets : ¬ r.Meets e.body d.name d.params.length)
    (hargs : ∀ a ∈ args, (r.insert d).Settles a) (ht : e.expand? args = some t) :
    (r.insert d).Settles t := by
  refine hbody.of_covers hsteady hmeets (he.covers_body (fun a ha u => ?_) ht)
  exact Ty.covers_iff.2 fun name bs href => .inl ((hargs a ha).ref href)

/-- A definition of the registry is waiting for a name with a number of parameters. -/
def Awaits (r : Registry) (name : String) (arity : Nat) : Prop :=
  ∃ other d, r.lookup? other = some d ∧ r.Meets d.body name arity

/-- A definition that is accepted leaves every expansion finite, if it has no parameters or none
made before waits for it. -/
theorem settles_insert (hnew : r.lookup? d.name = none) (hcycle : r.cycle? d = none)
    (hsteady : (r.insert d).Steady) (hr : ∀ t, r.Settles t)
    (hawaits : d.params ≠ [] → ¬ r.Awaits d.name d.params.length) (t : Ty) :
    (r.insert d).Settles t := by
  have hd : d.Steady := hsteady d.name d (by rw [lookup?_insert, if_pos rfl])
  by_cases hparams : d.params = []
  · -- The body itself settles, so a reference to the new definition ends every expansion.
    have hbody : (r.insert d).Settles d.body :=
      (hr d.body).of_covers hsteady (not_meets_body hnew hcycle) (Ty.covers_refl _)
    induction hr t with
    | intro t _ ih =>
        refine settles_of_refs fun name args href u hu => ?_
        by_cases hname : name = d.name
        · subst hname
          rw [expand?_insert_self, Definition.expand?, hparams] at hu
          split at hu
          · cases hu
            rw [List.zip_nil_left, Subst.apply_of_isEmpty rfl]
            exact hbody
          · cases hu
        · rw [expand?_insert_of_ne hname] at hu
          exact ih u ⟨name, args, href, hu⟩
  · -- Arguments may come to the new definition, bodies do not.
    induction t using Ty.head_induction with
    | h t ih =>
        refine settles_of_refs fun name args href u hu => ?_
        have hargs := ih name args href
        by_cases hname : name = d.name
        · subst hname
          rw [expand?_insert_self] at hu
          exact settles_instance hsteady hd (hr d.body) (not_meets_body hnew hcycle) hargs hu
        · cases he : r.lookup? name with
          | none => rw [expand?_insert_of_ne hname, expand?, he] at hu; cases hu
          | some e =>
              rw [expand?_insert_of_ne hname, expand?, he] at hu
              refine settles_instance hsteady (hsteady name e ?_) (hr e.body) ?_ hargs hu
              · rw [lookup?_insert, if_neg hname, he]
              · exact fun hm => hawaits hparams ⟨name, e, he, hm⟩

theorem define_eq_ok {r' : Registry} (h : r.define d = .ok r') :
    r.lookup? d.name = none ∧ r.cycle? d = none ∧ r' = r.insert d := by
  unfold define at h
  split at h
  · cases h
  · next hnew =>
      split at h
      · cases h
      · next hcycle =>
          cases h
          rw [Bool.or_eq_true, not_or] at hnew
          exact ⟨by simpa using hnew.2, hcycle, rfl⟩

theorem isOk_define : (r.define d).isOk = true ↔
    Ty.primitive? d.name = none ∧ r.lookup? d.name = none ∧ r.cycle? d = none := by
  unfold define
  cases Ty.primitive? d.name <;> cases r.lookup? d.name <;> cases r.cycle? d <;>
    simp [Except.isOk, Except.toBool]

theorem define_of_isOk (h : (r.define d).isOk = true) : r.define d = .ok (r.insert d) := by
  cases hdefine : r.define d with
  | ok r' => rw [(define_eq_ok hdefine).2.2]
  | error err =>
      rw [hdefine] at h
      cases h

end Registry

/-! ## Runs of declarations -/

/-- Each parameter of a declaration gets one unknown. -/
theorem Resolve.ends_declareParams {span : Span} : ∀ {names : List String} {st : Resolving},
    Ends (declareParams span names) st (fun vs _ => vs.length = names.length) fun _ _ => True
  | [], _ => rfl
  | name :: names, st => by
      unfold declareParams
      refine Ends.bind ?_
      show Ends (if Table.has name st.vars = true then _ else _) st _ _
      split
      · exact Ends.bind (ends_throw trivial)
      · -- The unknown is made and entered, and then the other parameters follow.
        refine Ends.bind (show Ends _ st _ _ from Ends.bind (show Ends _ _ _ _ from ?_))
        refine Ends.bind (ends_declareParams.imp (fun vs q hvs => ?_) fun _ _ h => h)
        show (_ :: vs).length = (name :: names).length
        rw [List.length_cons, hvs, List.length_cons]

theorem Resolve.ends_definition (r : Registry) (d : TypeDecl) (st : Resolving) :
    Ends (definition r d) st
      (fun e _ => e.name = d.name ∧ e.params.length = d.params.length) fun _ _ => True := by
  unfold definition
  refine Ends.bind (ends_declareParams.imp (fun params q hparams => Ends.bind ?_) fun _ _ h => h)
  unfold Ends
  split
  · exact ⟨rfl, hparams⟩
  · trivial

namespace Session

/-- A declaration changes no definition, or adds the one it resolves to. -/
def Declared (d : TypeDecl) (s q : Session) : Prop :=
  q.registry = s.registry ∨ ∃ e : Definition, e.name = d.name ∧
    e.params.length = d.params.length ∧ s.registry.define e = .ok q.registry

theorem run_define (e : Definition) (s : Session) :
    (define e).run s =
      match s.registry.define e with
      | .ok registry => (.ok (), { s with registry })
      | .error d => (.error d, s) := by
  have hget : (get : ExceptT Diagnostic (StateM Session) Session).run s = (.ok s, s) := rfl
  rw [define, run_bind, hget]
  dsimp only
  cases s.registry.define e <;> rfl

theorem ends_resolving {α : Type} {m : Resolve α} {vars : Table String TyVar} {s : Session}
    {ok : α × Table String TyVar → Session → Prop} {err : Diagnostic → Session → Prop}
    (h : Ends m { supply := s.supply, vars }
      (fun a made => ok (a, made.vars) { s with supply := made.supply })
      fun e made => err e { s with supply := made.supply }) :
    Ends (resolving vars m) s ok err := by
  unfold Ends at h ⊢
  unfold resolving
  dsimp only [ExceptT.run] at h ⊢
  generalize m _ = out at h ⊢
  obtain ⟨_ | _, made⟩ := out
  · exact h
  · exact h

/-- An accepted declaration adds a definition of which all is known that is known of what the
declaration resolves to. -/
theorem ends_declare_of {d : TypeDecl} {s : Session} {Q : Definition → Prop}
    (h : Ends (Resolve.definition s.registry d) { supply := s.supply }
      (fun e _ => Q e) fun _ _ => True) :
    Ends (declare d) s (fun _ q => ∃ e, Q e ∧ s.registry.define e = .ok q.registry)
      fun _ q => q.registry = s.registry := by
  unfold declare
  refine Ends.bind ?_
  show Ends (resolving [] (Resolve.definition s.registry d) >>= _) s _ _
  refine Ends.bind (ends_resolving (h.imp (fun e made he => ?_) fun _ _ _ => rfl))
  rw [Ends, run_define]
  dsimp only
  cases hdef : s.registry.define e with
  | ok registry => exact ⟨e, he, hdef⟩
  | error d => rfl

theorem ends_declare (d : TypeDecl) (s : Session) :
    Ends (declare d) s (fun _ q => Declared d s q) fun _ q => Declared d s q :=
  (ends_declare_of (Resolve.ends_definition s.registry d _)).imp
    (fun _ _ ⟨e, he, hdef⟩ => .inr ⟨e, he.1, he.2, hdef⟩) fun _ _ => .inl

theorem declared_run (d : TypeDecl) (s : Session) : Declared d s ((declare d).run s).2 := by
  have h := ends_declare d s
  unfold Ends at h
  split at h <;> (next heq => rw [heq]; exact h)

/-- The session after some declarations, those that failed included. -/
def declareAll : List TypeDecl → Session → Session
  | [], s => s
  | d :: ds, s => declareAll ds ((declare d).run s).2

/-- No declaration with parameters comes after a definition that is waiting for it. -/
def Orderly : List TypeDecl → Session → Prop
  | [], _ => True
  | d :: ds, s =>
    (d.params ≠ [] → ¬ s.registry.Awaits d.name d.params.length) ∧
      Orderly ds ((declare d).run s).2

theorem lookup?_declare {d : TypeDecl} {s : Session} {name : String} {e : Definition}
    (h : s.registry.lookup? name = some e) :
    ((declare d).run s).2.registry.lookup? name = some e := by
  rcases declared_run d s with hq | ⟨e', -, -, hdef⟩
  · rw [hq, h]
  · obtain ⟨hnew, -, hq⟩ := Registry.define_eq_ok hdef
    rw [hq, Registry.lookup?_insert, if_neg ?_, h]
    rintro rfl
    rw [hnew] at h
    cases h

/-- Definitions stay. -/
theorem lookup?_declareAll {name : String} {e : Definition} : ∀ (ds : List TypeDecl) {s : Session},
    s.registry.lookup? name = some e → (declareAll ds s).registry.lookup? name = some e
  | [], _, h => h
  | _ :: ds, _, h => lookup?_declareAll ds (lookup?_declare h)

theorem settles_declareAll : ∀ (ds : List TypeDecl) {s : Session},
    (declareAll ds s).registry.Steady → Orderly ds s → (∀ t, s.registry.Settles t) →
    ∀ t, (declareAll ds s).registry.Settles t
  | [], _, _, _, h => h
  | d :: ds, s, hsteady, ⟨hawaits, horderly⟩, h => by
      refine settles_declareAll ds hsteady horderly ?_
      rcases declared_run d s with hq | ⟨e, hname, hparams, hdef⟩
      · rw [hq]
        exact h
      · obtain ⟨hnew, hcycle, hq⟩ := Registry.define_eq_ok hdef
        rw [hq]
        refine Registry.settles_insert hnew hcycle (fun name e' he' => ?_) h fun he => ?_
        · exact hsteady name e' (lookup?_declareAll ds (by rw [hq]; exact he'))
        · rw [hname, hparams]
          refine hawaits fun hnil => he ?_
          rw [hnil] at hparams
          exact List.length_eq_zero_iff.1 hparams

/-- After any declarations, some of which may have failed, expanding the head of any type ends:
provided that no definition was waiting for one with parameters, and that the unions in
definitions with parameters are anchored. -/
theorem head_expansion_ends (supply : Supply) (ds : List TypeDecl)
    (horderly : Orderly ds { supply }) (hsteady : (declareAll ds { supply }).registry.Steady)
    (t : Ty) : (declareAll ds { supply }).registry.Settles t := by
  refine settles_declareAll ds hsteady horderly (fun u => ?_) t
  exact Registry.settles_of_refs fun name args _ v hv => by cases hv

/-- An option type and two definitions that use it, one of them before it is there, and a
definition that is refused. -/
def optionDecls : List TypeDecl := [
  { name := "Option", params := ["a"],
    body := .union {} [.tuple {} [.ref {} "a"], .name {} "Unit" []] },
  { name := "A", body := .inter {} [.name {} "B" [], .name {} "Unit" []] },
  { name := "B", body := .name {} "Option" [.name {} "A" []] },
  { name := "C", body := .name {} "C" [] }]

theorem option_expansion_ends :
    (declareAll optionDecls {}).registry.names = ["A", "B", "Option"] ∧
      Orderly optionDecls {} ∧ (declareAll optionDecls {}).registry.Steady ∧
      (declareAll optionDecls {}).registry.Settles (.named "A" []) := by
  have horderly : Orderly optionDecls {} := by
    refine ⟨?_, fun h => absurd rfl h, fun h => absurd rfl h, fun h => absurd rfl h, trivial⟩
    rintro - ⟨other, d, hd, -⟩
    cases hd
  have hsteady : (declareAll optionDecls {}).registry.Steady := by
    have hdefs : (declareAll optionDecls {}).registry.definitions.all
        (fun e => e.2.params.isEmpty || e.2.body.steady) = true := by decide +kernel
    intro name d hd
    have := List.all_eq_true.1 hdefs _ (Table.mem_of_get? hd)
    rw [Bool.or_eq_true, List.isEmpty_iff] at this
    exact this
  exact ⟨by decide +kernel, horderly, hsteady, head_expansion_ends {} optionDecls horderly hsteady _⟩

end Session

end RowTypes
