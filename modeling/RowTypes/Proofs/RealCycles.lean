import RowTypes.Proofs.HeadExpansion

/-!
# Only real cycles are reported

A declaration is refused as circular when the walk from its body meets a name twice.  The walk
remembers names and not references, so the second reference may have other arguments than the first,
and expanding it may come to an end where the first one is met again.  Three things can make a
return to a name harmless.  An argument leads back to it, as in `Id[Id[Int]]` with `Id[a] = a`: the
return is to the reference inside and not to the one outside.  The reference that is met again has
the wrong number of arguments and does not expand.  Or a union became a reference, because the
arguments made its alternatives the same, and other arguments do not.

Apart from these a return is a cycle.  The way from an instance of a definition back to its name is
then a way through the body, which every other instance of the definition has too, and so the
expansion never ends.  Read the other way round: where the expansion of a new definition ends, and
no return is of one of the three kinds, there is no return, and the definition is not refused.
-/

namespace RowTypes

namespace Registry

open Relation

variable {r : Registry} {t u v : Ty} {name : String} {args : List Ty} {e : Definition}

/-! ## What the walk finds -/

/-- A reference is met on the way from a type, and stands for another type. -/
def Enters (r : Registry) (start : Ty) (name : String) (args : List Ty) (t : Ty) : Prop :=
  ∃ u, ReflTransGen r.HeadStep start u ∧ (name, args) ∈ u.headRefs ∧ r.expand? name args = some t

/-- A walk that finds a cycle has met a reference from which it came back to the name, if that is
how the names on its trail were met. -/
theorem exists_return_of_cycleWithin {start : Ty} {cycle : List String} :
    ∀ {n : Nat} {trail : Trail String} {t : Ty}, r.cycleWithin n trail t = some cycle →
    ReflTransGen r.HeadStep start t →
    (∀ x ∈ trail.items, ∃ args v, r.Enters start x args v ∧ ReflTransGen r.HeadStep v t) →
    ∃ name args v arity, r.Enters start name args v ∧ r.Meets v name arity
  | n + 1, trail, t, h, hstart, htrail => by
      rw [cycleWithin, List.findSome?_eq_some_iff] at h
      obtain ⟨before, ⟨name, args⟩, after, hrefs, hfound, -⟩ := h
      have href : (name, args) ∈ t.headRefs := by
        rw [hrefs]
        exact List.mem_append_right _ List.mem_cons_self
      dsimp only at hfound
      split at hfound
      · next hcontains =>
          obtain ⟨args', v, henters, hpath⟩ := htrail name (by simpa [Trail.contains] using hcontains)
          exact ⟨name, args', v, args.length, henters, t, args, hpath, href, rfl⟩
      · obtain ⟨u, hu, hfound⟩ := Option.bind_eq_some_iff.1 hfound
        have hstep : r.HeadStep t u := ⟨name, args, href, hu⟩
        refine exists_return_of_cycleWithin hfound (hstart.tail hstep) fun x hx => ?_
        rcases List.mem_append.1 hx with hx | hx
        · obtain ⟨args', v, henters, hpath⟩ := htrail x hx
          exact ⟨args', v, henters, hpath.tail hstep⟩
        · rw [List.mem_singleton.1 hx]
          exact ⟨args, u, ⟨t, hstart, href, hu⟩, .refl⟩

/-! ## Paths from references -/

variable {other : String} {bs : List Ty} {arity : Nat}

theorem headStep_named : r.HeadStep (.named other bs) u ↔ r.expand? other bs = some u := by
  constructor
  · rintro ⟨_, _, href, hu⟩
    rw [Ty.headRefs, List.mem_singleton] at href
    cases href
    exact hu
  · exact fun hu => ⟨other, bs, List.mem_singleton.2 rfl, hu⟩

theorem Settles.named (hu : r.expand? other bs = some u) (h : r.Settles u) :
    r.Settles (.named other bs) := by
  refine Acc.intro _ fun v hv => ?_
  rw [headStep_named, hu] at hv
  exact Option.some.inj hv ▸ h

theorem Settles.of_path (h : r.Settles t) (hpath : ReflTransGen r.HeadStep t u) : r.Settles u := by
  induction hpath with
  | refl => exact h
  | tail _ hstep ih => exact ih.inv hstep

/-- What is met from a reference is the reference, or is met from what it stands for. -/
theorem meets_named (hu : r.expand? other bs = some u) : r.Meets (.named other bs) name arity ↔
    (name = other ∧ arity = bs.length) ∨ r.Meets u name arity := by
  constructor
  · rintro ⟨v, args, hpath, hv, rfl⟩
    rcases ReflTransGen.cases_head hpath with rfl | ⟨w, hstep, hpath⟩
    · rw [Ty.headRefs, List.mem_singleton] at hv
      cases hv
      exact .inl ⟨rfl, rfl⟩
    · rw [headStep_named, hu] at hstep
      cases hstep
      exact .inr ⟨v, args, hpath, hv, rfl⟩
  · rintro (⟨rfl, rfl⟩ | h)
    · exact ⟨_, bs, .refl, List.mem_singleton.2 rfl, rfl⟩
    · exact h.step (headStep_named.2 hu)

theorem enters_named (hu : r.expand? other bs = some u) : r.Enters (.named other bs) name args t ↔
    (name = other ∧ args = bs ∧ u = t) ∨ r.Enters u name args t := by
  constructor
  · rintro ⟨v, hpath, href, ht⟩
    rcases ReflTransGen.cases_head hpath with rfl | ⟨w, hstep, hpath⟩
    · rw [Ty.headRefs, List.mem_singleton] at href
      cases href
      exact .inl ⟨rfl, rfl, Option.some.inj (hu.symm.trans ht)⟩
    · rw [headStep_named, hu] at hstep
      cases hstep
      exact .inr ⟨v, hpath, href, ht⟩
  · rintro (⟨rfl, rfl, rfl⟩ | ⟨v, hpath, href, ht⟩)
    · exact ⟨_, .refl, List.mem_singleton.2 rfl, hu⟩
    · exact ⟨v, .head (headStep_named.2 hu) hpath, href, ht⟩

/-- From a type without references at its head nothing is met. -/
theorem eq_of_path (h : t.headRefs = []) (hpath : ReflTransGen r.HeadStep t u) : u = t := by
  rcases ReflTransGen.cases_head hpath with rfl | ⟨w, ⟨_, _, href, -⟩, -⟩
  · rfl
  · rw [h] at href
    cases href

theorem not_meets_of_nil (h : t.headRefs = []) : ¬ r.Meets t name arity := by
  rintro ⟨v, args, hpath, hv, -⟩
  rw [eq_of_path h hpath, h] at hv
  cases hv

theorem not_enters_of_nil (h : t.headRefs = []) : ¬ r.Enters t name args u := by
  rintro ⟨v, hpath, href, -⟩
  rw [eq_of_path h hpath, h] at href
  cases href

/-! ## Returns that are cycles -/

/-- Every definition that a type comes to is steady. -/
def SteadyBelow (r : Registry) (t : Ty) : Prop :=
  ∀ name arity e, r.Meets t name arity → r.lookup? name = some e → e.Steady

theorem SteadyBelow.step (h : r.SteadyBelow t) (hstep : r.HeadStep t u) : r.SteadyBelow u :=
  fun name arity e hmeets => h name arity e (hmeets.step hstep)

theorem meets_of_headRefs (href : (name, args) ∈ t.headRefs) : r.Meets t name args.length :=
  ⟨t, args, .refl, href, rfl⟩

/-- A reference at the head of a type comes to no name that the type does not come to. -/
theorem Meets.of_ref (h : r.Meets (.named other bs) name arity)
    (href : (other, bs) ∈ t.headRefs) : r.Meets t name arity := by
  obtain ⟨v, args, hpath, hv, harity⟩ := h
  rcases ReflTransGen.cases_head hpath with rfl | ⟨u, hstep, hpath⟩
  · rw [Ty.headRefs, List.mem_singleton] at hv
    cases hv
    exact ⟨t, bs, .refl, href, harity⟩
  · exact ⟨v, args, .head ⟨other, bs, href, headStep_named.1 hstep⟩ hpath, hv, harity⟩

/-- What covers a type comes to the names that the type comes to, apart from what only arguments
come to. -/
theorem Meets.of_covers {P : Ty → Prop} (hP : ∀ x, P x → ¬ r.Meets x name arity)
    (h : r.Meets t name arity) (hsteady : r.SteadyBelow t) (hcov : Ty.Covers P u t) :
    r.Meets u name arity := by
  obtain ⟨v, args, hpath, hv, rfl⟩ := h
  induction hpath using ReflTransGen.head_induction_on generalizing u with
  | refl =>
      rcases Ty.covers_iff.1 hcov name args hv with hself | ⟨as, has, hcov⟩
      · exact absurd (meets_of_headRefs (List.mem_singleton.2 rfl)) (hP _ hself)
      · exact ⟨u, as, .refl, has, hcov.length_eq⟩
  | @head t t' hstep hpath ih =>
      obtain ⟨other, bs, href, ht'⟩ := hstep
      rcases Ty.covers_iff.1 hcov other bs href with hself | ⟨as, has, hargs⟩
      · have hmeets : r.Meets t' name args.length := ⟨v, args, hpath, hv, rfl⟩
        exact absurd (hmeets.step ⟨other, bs, List.mem_singleton.2 rfl, ht'⟩) (hP _ hself)
      · obtain ⟨f, hf, hexpand⟩ := Option.bind_eq_some_iff.1 ht'
        obtain ⟨u', hu', hcov'⟩ :=
          (hsteady other _ f (meets_of_headRefs href) hf).covers_expand? hargs hexpand
        have hstep' : r.HeadStep u u' := ⟨other, as, has, by rw [expand?, hf]; exact hu'⟩
        exact (ih (hsteady.step ⟨other, bs, href, ht'⟩) hcov').step hstep'

/-- An expansion that comes back to the name of its definition does so by itself: not because an
argument leads there, with the right number of arguments, and past no union that arguments can turn
into a reference. -/
structure ReturnsByItself (r : Registry) (e : Definition) (name : String) (args : List Ty)
    (t : Ty) : Prop where
  args : ∀ a ∈ args, ∀ arity, ¬ r.Meets a name arity
  arity : ∀ arity, r.Meets t name arity → arity = e.params.length
  steady : e.Steady
  below : r.SteadyBelow t

/-- If an instance of a definition comes back to its name by itself, so does every instance. -/
theorem ReturnsByItself.meets {bs : List Ty} (h : r.ReturnsByItself e name args t)
    (ht : e.expand? args = some t) (hreturns : r.Meets t name e.params.length)
    (hu : e.expand? bs = some u) : r.Meets u name e.params.length := by
  have hlength : ∀ {as : List Ty} {v : Ty}, e.expand? as = some v → as.length = e.params.length := by
    intro as v hv
    unfold Definition.expand? at hv
    split at hv
    · assumption
    · cases hv
  -- Nothing that stands at the head of an argument comes to the name.
  have hargs : List.Forall₂ (Ty.Covers fun x => ¬ r.Meets x name e.params.length) bs args := by
    rw [List.forall₂_iff_get]
    refine ⟨(hlength hu).trans (hlength ht).symm, fun i _ hi => Ty.covers_iff.2 fun other cs href => ?_⟩
    exact .inl fun hmeets => h.args _ (List.get_mem _ ⟨i, hi⟩) _ (hmeets.of_ref href)
  obtain ⟨u', hu', hcov⟩ := h.steady.covers_expand? hargs ht
  obtain rfl : u = u' := Option.some.inj (hu.symm.trans hu')
  exact hreturns.of_covers (fun _ => id) h.below hcov

/-- An expansion that comes back by itself does not end. -/
theorem not_settles_of_returns (hlookup : r.lookup? name = some e)
    (h : r.ReturnsByItself e name args t) (ht : e.expand? args = some t)
    (hreturns : r.Meets t name arity) : ¬ r.Settles t := by
  have hreturns : r.Meets t name e.params.length := h.arity arity hreturns ▸ hreturns
  intro hsettles
  have general : ∀ u, Acc (TransGen fun u t => r.HeadStep t u) u → ∀ bs, e.expand? bs = some u →
      False := by
    intro u hu
    induction hu with
    | intro u _ ih =>
        intro bs hbs
        obtain ⟨v, cs, hpath, hcs, hlen⟩ := h.meets ht hreturns hbs
        have hnext : e.expand? cs = some ((Subst.ofList (e.params.zip cs)).apply e.body) := by
          rw [Definition.expand?, if_pos hlen]
        have hstep : r.HeadStep v _ := ⟨name, cs, hcs, by rw [expand?, hlookup]; exact hnext⟩
        exact ih _ (transGen_swap.1 (TransGen.tail' hpath hstep)) cs hnext
  exact general t hsettles.transGen args ht

/-! ## New definitions -/

variable {d : Definition}

theorem expand?_self (r : Registry) (d : Definition) :
    (r.insert d).expand? d.name (d.params.map .var) = some d.body := by
  rw [expand?_insert_self, Definition.expand?, if_pos (List.length_map ..), Subst.ofList_self,
    Subst.apply_of_isEmpty rfl]

/-- Whatever is met on the way from a definition comes back to its name by itself, if at all. -/
def ReturnsAlone (r : Registry) (d : Definition) : Prop :=
  ∀ name args e t, r.Enters (.named d.name (d.params.map .var)) name args t →
    r.lookup? name = some e → (∃ arity, r.Meets t name arity) → r.ReturnsByItself e name args t

/-- No cycle is found from a definition whose expansion ends, if what comes back on the way does so
by itself. -/
theorem cycle?_eq_none (hsettles : (r.insert d).Settles d.body)
    (hreturns : (r.insert d).ReturnsAlone d) : r.cycle? d = none := by
  refine Option.eq_none_iff_forall_ne_some.2 fun cycle hcycle => ?_
  obtain ⟨name, args, t, arity, henters, hmeets⟩ :=
    exists_return_of_cycleWithin hcycle (.single (headStep_named.2 (expand?_self r d))) fun x hx => by
      rw [show x = d.name by simpa [Trail.push] using hx]
      exact ⟨_, d.body, ⟨_, .refl, List.mem_singleton.2 rfl, expand?_self r d⟩, .refl⟩
  obtain ⟨u, hpath, href, ht⟩ := henters
  obtain ⟨e, he, hexpand⟩ := Option.bind_eq_some_iff.1 ht
  have hstart : (r.insert d).Settles (.named d.name (d.params.map .var)) :=
    .named (expand?_self r d) hsettles
  have hby := hreturns name args e t ⟨u, hpath, href, ht⟩ he ⟨arity, hmeets⟩
  exact not_settles_of_returns he hby hexpand hmeets ((hstart.of_path hpath).expand href ht)

end Registry

namespace Session

open Registry

variable {σ τ : Session} {d : TypeDecl} {e : Definition} {made : Resolving} {err : Diagnostic}

theorem run_declare
    (hresolved : (Resolve.definition σ.registry d).run { supply := σ.supply } = (.ok e, made)) :
    (declare d).run σ = (define e).run { σ with supply := made.supply } := by
  have hresolving : (resolving [] (Resolve.definition σ.registry d)).run σ =
      (.ok (e, made.vars), { σ with supply := made.supply }) := by
    unfold resolving
    dsimp only [ExceptT.run] at hresolved ⊢
    rw [show Resolve.definition σ.registry d { supply := σ.supply } = (.ok e, made) from hresolved]
  show (resolving [] (Resolve.definition σ.registry d) >>= _).run σ = _
  rw [run_bind, hresolving]

/-- A declaration is not refused as circular if the expansion of its head ends, where what comes
back on the way does so by itself. -/
theorem declare_not_circular
    (hresolved : (Resolve.definition σ.registry d).run { supply := σ.supply } = (.ok e, made))
    (hsettles : (σ.registry.insert e).Settles e.body)
    (hreturns : (σ.registry.insert e).ReturnsAlone e)
    (h : (declare d).run σ = (.error err, τ)) (name : String) (cycle : List String) :
    err.cause ≠ .circularTypeDefinition name cycle := by
  rw [run_declare hresolved, run_define, Registry.define, cycle?_eq_none hsettles hreturns] at h
  dsimp only at h
  split at h
  · cases h
  · next hdefined =>
      cases h
      split at hdefined
      · cases hdefined
        exact nofun
      · cases hdefined

/-- The identity on types, and boxes. -/
def idDecl : TypeDecl := { name := "Id", params := ["a"], body := .ref {} "a" }

def boxDecl : TypeDecl :=
  { name := "Box", params := ["a"], body := .record {} [("value", .ref {} "a")] false }

/-- A declaration that uses `Id` twice, the second time inside a box. -/
def boxedDecl : TypeDecl :=
  { name := "Boxed"
    body := .name {} "Id" [.name {} "Box" [.name {} "Id" [.name {} "Int" []]]] }

/-- The session that knows `Id` and `Box`. -/
def boxes : Session := ((declare boxDecl).run ((declare idDecl).run {}).2).2

/-- What the declaration resolves to. -/
def boxed : Definition :=
  { name := "Boxed", body := .named "Id" [.named "Box" [.named "Id" [.prim "Int"]]] }

theorem declare_not_circular_boxed :
    (Resolve.definition boxes.registry boxedDecl).run { supply := boxes.supply } =
        (.ok boxed, { supply := boxes.supply }) ∧
      (boxes.registry.insert boxed).Settles boxed.body ∧
      (boxes.registry.insert boxed).ReturnsAlone boxed ∧
      ∀ err τ, (declare boxedDecl).run boxes = (.error err, τ) →
        ∀ name cycle, err.cause ≠ .circularTypeDefinition name cycle := by
  have hresolved : (Resolve.definition boxes.registry boxedDecl).run { supply := boxes.supply } =
      (.ok boxed, { supply := boxes.supply }) := by rfl
  -- The expansion goes from the name to `Id`, from there to `Box`, and stops at the record.
  have hboxed : (boxes.registry.insert boxed).expand? "Boxed" [] = some boxed.body := by rfl
  have hid : (boxes.registry.insert boxed).expand? "Id" [.named "Box" [.named "Id" [.prim "Int"]]] =
      some (.named "Box" [.named "Id" [.prim "Int"]]) := by rfl
  have hbox : (boxes.registry.insert boxed).expand? "Box" [.named "Id" [.prim "Int"]] =
      some (.record [("value", .named "Id" [.prim "Int"])] none) := by rfl
  have hsettles : (boxes.registry.insert boxed).Settles boxed.body :=
    .named hid (.named hbox (settles_of_refs (by simp [Ty.headRefs])))
  have hreturns : (boxes.registry.insert boxed).ReturnsAlone boxed := by
    rintro name args e t henters - ⟨arity, hmeets⟩
    exfalso
    have hstops : ∀ {name : String} {arity : Nat}, ¬ (boxes.registry.insert boxed).Meets
        (.record [("value", .named "Id" [.prim "Int"])] none) name arity := not_meets_of_nil rfl
    rcases (enters_named hboxed).1 henters with ⟨rfl, -, rfl⟩ | henters
    · have hmeets := ((meets_named hid).1 hmeets).resolve_left (by simp)
      exact hstops (((meets_named hbox).1 hmeets).resolve_left (by simp))
    rcases (enters_named hid).1 henters with ⟨rfl, -, rfl⟩ | henters
    · exact hstops (((meets_named hbox).1 hmeets).resolve_left (by simp))
    rcases (enters_named hbox).1 henters with ⟨rfl, -, rfl⟩ | henters
    · exact hstops hmeets
    · exact not_enters_of_nil rfl henters
  exact ⟨hresolved, hsettles, hreturns, fun err τ h =>
    declare_not_circular hresolved hsettles hreturns h⟩

/-- Outside of a box it is refused, although the expansion ends as well. -/
example :
    let nested : TypeDecl :=
      { name := "Nested", body := .name {} "Id" [.name {} "Id" [.name {} "Int" []]] }
    ((declare nested).run boxes).1 = .error ⟨.circularTypeDefinition "Nested" ["Id", "Id"], {}⟩ := by
  rfl

end Session

end RowTypes
