import RowTypes.Proofs.HeadExpansion
import RowTypes.Proofs.Resolution

/-!
# The order of declarations

Declarations may use each other ahead of their definitions, so the order in which they are made
should not decide whether they are accepted.  Two of the checks depend on it all the same.  The
number of arguments is compared only with definitions that are there already.  And the walk that
looks for cycles starts from the body that is being added, with its parameters unknown, so it does
not see what an earlier definition puts in for a parameter: `F[a] = a` is accepted after
`A = F[A]`, and `A = F[A]` is refused after `F[a] = a`.

Where neither comes up, the order makes no difference.  It is asked that declarations refer to each
other with the right numbers of arguments, and that the declarations with parameters that stand at
the head of another one are firm: nothing of what is put in for a parameter can come to stand at
their head.  Then the names at the head of an instance are those at the head of the body, and what
the checks find out about a set of declarations is a property of a graph on names: each can be
resolved by itself, and the graph that leads from each name to the names at its head has no cycle.
The declaration that is refused is the last one of a cycle, whichever that is.
-/

namespace RowTypes

namespace Ty

/-! ## The names at the head of an instance -/

/-- A name stands at the head of a type, with a number of arguments. -/
def HeadAt (t : Ty) (name : String) (arity : Nat) : Prop :=
  ∃ args, (name, args) ∈ t.headRefs ∧ args.length = arity

mutual

/-- Whether the head of every instance of a type refers to the same names as its own. -/
def firm : Ty → Bool
  | .var _ | .mu _ _ => false
  | .inter ts => firmAll ts
  | .union ts => anchored ts
  | _ => true

def firmAll : List Ty → Bool
  | [] => true
  | t :: ts => firm t && firmAll ts

end

variable {t u : Ty} {ts : List Ty} {name : String} {arity : Nat}

theorem headAt_inter : (Ty.inter ts).HeadAt name arity ↔ ∃ t ∈ ts, t.HeadAt name arity := by
  unfold HeadAt
  rw [headRefs]
  simp only [mem_headRefsAll]
  constructor
  · rintro ⟨args, ⟨t, ht, href⟩, hlen⟩
    exact ⟨t, ht, args, href, hlen⟩
  · rintro ⟨t, ht, args, href, hlen⟩
    exact ⟨args, ⟨t, ht, href⟩, hlen⟩

theorem headAt_named {other : String} {args : List Ty} :
    (Ty.named other args).HeadAt name arity ↔ name = other ∧ arity = args.length := by
  unfold HeadAt
  rw [headRefs]
  simp only [List.mem_singleton, Prod.mk.injEq]
  constructor
  · rintro ⟨_, ⟨rfl, rfl⟩, rfl⟩
    exact ⟨rfl, rfl⟩
  · rintro ⟨rfl, rfl⟩
    exact ⟨args, ⟨rfl, rfl⟩, rfl⟩

theorem not_headAt_of_nil (h : t.headRefs = []) : ¬ t.HeadAt name arity := by
  rintro ⟨args, href, -⟩
  rw [h] at href
  cases href

/-- The names at the head of a type are at the head of what covers it. -/
theorem HeadAt.of_covers (h : t.HeadAt name arity) (hcov : Covers (fun _ => False) u t) :
    u.HeadAt name arity := by
  obtain ⟨args, href, hlen⟩ := h
  obtain ⟨args', href', hargs⟩ := (covers_iff.1 hcov name args href).resolve_left id
  exact ⟨args', href', hargs.length_eq.trans hlen⟩

/-- The names at the head of an intersection are those of its members, however many of them were
dropped. -/
theorem headAt_interOf : (interOf ts).HeadAt name arity ↔ ∃ t ∈ ts, t.HeadAt name arity := by
  constructor
  · intro h
    by_contra hnone
    have hall : ¬ (interOf ts).HeadAt name arity := by
      refine of_interOf (fun us => ?_) fun t ht h => hnone ⟨t, ht, h⟩
      rw [headAt_inter]
      exact ⟨fun h t ht hat => h ⟨t, ht, hat⟩, fun h ⟨t, ht, hat⟩ => h t ht hat⟩
    exact hall h
  · rintro ⟨t, ht, h⟩
    exact h.of_covers (covers_interOf_mem ht)

mutual

theorem headAt_apply (s : Subst) : ∀ {b : Ty}, b.firm = true →
    ((s.apply b).HeadAt name arity ↔ b.HeadAt name arity)
  | .named name' ts, _ => by
      rw [Subst.apply_named, headAt_named, headAt_named, List.length_map]
  | .inter ts, h => by
      by_cases hs : s.isEmpty = true
      · rw [Subst.apply_of_isEmpty hs]
      · rw [Subst.apply_inter (by simpa using hs), headAt_interOf, headAt_inter]
        rw [firm] at h
        refine Iff.trans ?_ (headAt_applyAll s h)
        simp only [List.mem_map, exists_exists_and_eq_and]
  | .union ts, h => by
      rw [firm] at h
      exact iff_of_false (not_headAt_of_nil (headRefs_apply_union h)) (not_headAt_of_nil rfl)
  | .prim _, _ | .lit _, _ | .fn _ _, _ | .record _ _, _ | .tuple _, _ =>
      iff_of_false
        (not_headAt_of_nil (headRefs_of_isConstructed (isConstructed_apply rfl)))
        (not_headAt_of_nil rfl)

theorem headAt_applyAll (s : Subst) : ∀ {ts : List Ty}, firmAll ts = true →
    ((∃ t ∈ ts, (s.apply t).HeadAt name arity) ↔ ∃ t ∈ ts, t.HeadAt name arity)
  | [], _ => by simp
  | t :: ts, h => by
      rw [firmAll, Bool.and_eq_true] at h
      rw [List.exists_mem_cons_iff, List.exists_mem_cons_iff, headAt_apply s h.1,
        headAt_applyAll s h.2]

end

/-! ## Heads and numbers -/

variable {F : Int → Int → Prop}

mutual

theorem Alike.headAt_iff : ∀ {t t' : Ty}, Alike F t t' →
    (t.HeadAt name arity ↔ t'.HeadAt name arity)
  | _, _, .named _ hts => by rw [headAt_named, headAt_named, hts.length_eq]
  | _, _, .inter hts => by rw [headAt_inter, headAt_inter, hts.headAt_iff]
  | _, _, .mu _ ht => ht.headAt_iff
  | _, _, .var _ | _, _, .prim _ | _, _, .lit _ | _, _, .fn _ _ | _, _, .record _ _
  | _, _, .tuple _ | _, _, .union _ =>
      iff_of_false (not_headAt_of_nil rfl) (not_headAt_of_nil rfl)

theorem AlikeAll.headAt_iff : ∀ {ts ts' : List Ty}, AlikeAll F ts ts' →
    ((∃ t ∈ ts, t.HeadAt name arity) ↔ ∃ t ∈ ts', t.HeadAt name arity)
  | _, _, .nil => Iff.rfl
  | _, _, .cons ht hts => by
      rw [List.exists_mem_cons_iff, List.exists_mem_cons_iff, ht.headAt_iff, hts.headAt_iff]

end

theorem AlikeAll.anchored_eq {ts ts' : List Ty} (h : AlikeAll F ts ts') :
    anchored ts = anchored ts' := by
  have hcons : ∀ {t t' : Ty}, Alike F t t' → t.isConstructed = t'.isConstructed :=
    fun ht => by cases ht <;> rfl
  have hapart : ∀ {t t' u u' : Ty}, Alike F t t' → Alike F u u' →
      namedApart t u = namedApart t' u' := fun ht hu => by cases ht <;> cases hu <;> rfl
  unfold anchored
  rw [h.any_eq hcons, h.any_eq fun ht => h.any_eq fun hu => hapart ht hu]

mutual

theorem Alike.firm_eq : ∀ {t t' : Ty}, Alike F t t' → t.firm = t'.firm
  | _, _, .inter hts => by rw [firm, firm, hts.firmAll_eq]
  | _, _, .union hts => by rw [firm, firm, hts.anchored_eq]
  | _, _, .var _ | _, _, .prim _ | _, _, .lit _ | _, _, .fn _ _ | _, _, .record _ _
  | _, _, .tuple _ | _, _, .named _ _ | _, _, .mu _ _ => rfl

theorem AlikeAll.firmAll_eq : ∀ {ts ts' : List Ty}, AlikeAll F ts ts' → firmAll ts = firmAll ts'
  | _, _, .nil => rfl
  | _, _, .cons ht hts => by rw [firmAll, firmAll, ht.firm_eq, hts.firmAll_eq]

end

/-! ## Heads and annotations -/

mutual

/-- Every reference that can be at the head of a type, be it by dropping alternatives, satisfies a
predicate. -/
def HeadsIn (P : String → Nat → Prop) : Ty → Prop
  | .named name args => P name args.length
  | .union ts | .inter ts => HeadsInAll P ts
  | .mu _ t => HeadsIn P t
  | _ => True

def HeadsInAll (P : String → Nat → Prop) : List Ty → Prop
  | [] => True
  | t :: ts => HeadsIn P t ∧ HeadsInAll P ts

end

variable {P Q : String → Nat → Prop}

theorem headsInAll_iff : HeadsInAll P ts ↔ ∀ t ∈ ts, HeadsIn P t := by
  induction ts with
  | nil => simp [HeadsInAll]
  | cons t ts ih => rw [HeadsInAll, ih, List.forall_mem_cons]

theorem headsIn_union : HeadsIn P (.union ts) ↔ ∀ t ∈ ts, HeadsIn P t := by
  rw [HeadsIn, headsInAll_iff]

theorem headsIn_inter : HeadsIn P (.inter ts) ↔ ∀ t ∈ ts, HeadsIn P t := by
  rw [HeadsIn, headsInAll_iff]

mutual

theorem HeadsIn.mono (hPQ : ∀ name n, P name n → Q name n) : ∀ {t : Ty}, HeadsIn P t → HeadsIn Q t
  | .named _ _, h => hPQ _ _ h
  | .union _, h | .inter _, h => HeadsInAll.mono hPQ h
  | .mu _ t, h => HeadsIn.mono (t := t) hPQ h
  | .var _, _ | .prim _, _ | .lit _, _ | .fn _ _, _ | .record _ _, _ | .tuple _, _ => trivial

theorem HeadsInAll.mono (hPQ : ∀ name n, P name n → Q name n) : ∀ {ts : List Ty},
    HeadsInAll P ts → HeadsInAll Q ts
  | [], _ => trivial
  | _ :: _, h => ⟨HeadsIn.mono hPQ h.1, HeadsInAll.mono hPQ h.2⟩

end

mutual

theorem HeadsIn.of_headAt : ∀ {t : Ty}, HeadsIn P t → t.HeadAt name arity → P name arity
  | .named _ _, h, hat => by
      obtain ⟨rfl, rfl⟩ := headAt_named.1 hat
      exact h
  | .inter ts, h, hat => HeadsInAll.of_headAt h (headAt_inter.1 hat)
  | .mu _ t, h, hat => HeadsIn.of_headAt (t := t) h hat
  | .var _, _, hat | .prim _, _, hat | .lit _, _, hat | .fn _ _, _, hat | .record _ _, _, hat
  | .tuple _, _, hat | .union _, _, hat => absurd hat (not_headAt_of_nil rfl)

theorem HeadsInAll.of_headAt : ∀ {ts : List Ty}, HeadsInAll P ts →
    (∃ t ∈ ts, t.HeadAt name arity) → P name arity
  | _ :: _, h, hat => by
      rw [List.exists_mem_cons_iff] at hat
      rcases hat with hat | hat
      · exact h.1.of_headAt hat
      · exact HeadsInAll.of_headAt h.2 hat

end

end Ty

namespace Resolve

open Ty

theorem ends_typeVar (rules : ScopeRules) (span : Span) (name : String) (s : Resolving) :
    Ends (typeVar rules span name) s (fun t _ => ∃ v, t = .var v) fun _ _ => True := by
  unfold typeVar
  refine ends_get ?_
  split
  · exact ends_pure ⟨_, rfl⟩
  · split
    · exact Ends.bind (ends_throw trivial)
    · refine Ends.bind ((ends_trivial _ s).imp (fun v q _ => ?_) fun _ _ h => h)
      refine Ends.bind ((ends_trivial _ q).imp (fun _ q' _ => ?_) fun _ _ h => h)
      exact ends_pure ⟨v, rfl⟩

variable {r : Registry} {rules : ScopeRules}

mutual

/-- The names at the head of a type are among those that its annotation refers to. -/
theorem ends_resolve : ∀ {e : TyExpr} {s : Resolving}, Ends (resolve r rules e) s
    (fun t _ => t.HeadsIn fun name n => (name, n) ∈ e.refs) fun _ _ => True
  | .missing, s => by
      rw [resolve]
      exact ends_throw trivial
  | .name span name args, s => by
      rw [resolve]
      split
      · next t ht =>
          split
          · unfold Ty.primitive? at ht
            split at ht
            · cases ht
              exact ends_pure trivial
            · cases ht
          · exact ends_throw trivial
      · refine Ends.bind (ends_resolveAll.imp (fun ts q hts => ?_) fun _ _ h => h)
        have href : (Ty.named name ts).HeadsIn
            fun name' n => (name', n) ∈ (TyExpr.name span name args).refs := by
          rw [HeadsIn, TyExpr.refs, hts.1]
          exact List.mem_cons_self
        unfold reference
        split
        · split
          · exact ends_pure href
          · exact ends_throw trivial
        · split
          · exact ends_throw trivial
          · exact ends_pure href
  | .ref span name, s => by
      rw [resolve]
      refine (ends_typeVar rules span name s).imp (fun t q ht => ?_) fun _ _ h => h
      obtain ⟨v, rfl⟩ := ht
      trivial
  | .fn _ p q, s => by
      rw [resolve]
      refine Ends.bind ((ends_trivial _ s).imp (fun p' q _ => ?_) fun _ _ h => h)
      exact Ends.bind ((ends_trivial _ q).imp (fun _ _ _ => ends_pure trivial) fun _ _ h => h)
  | .record span fields isOpen, s => by
      rw [resolve]
      refine Ends.bind ((ends_trivial _ s).imp (fun fs q _ => ?_) fun _ _ h => h)
      dsimp only
      split
      · exact Ends.bind ((ends_trivial _ q).imp (fun _ _ _ => ends_pure trivial) fun _ _ h => h)
      · exact ends_pure trivial
  | .tuple _ es, s => by
      rw [resolve]
      exact Ends.bind ((ends_trivial _ s).imp (fun _ _ _ => ends_pure trivial) fun _ _ h => h)
  | .union span es, s => by
      rw [resolve]
      refine Ends.bind (ends_resolveAll.imp (fun ts q hts => ?_) fun _ _ h => h)
      split
      · next t ht => exact ends_pure (of_unionOf? (fun _ => headsIn_union) hts.2 ht)
      · exact ends_throw trivial
  | .inter span es, s => by
      rw [resolve]
      refine Ends.bind (ends_resolveAll.imp (fun ts q hts => ?_) fun _ _ h => h)
      split
      · next t ht =>
          have hinter : Ty.interOf ts = t := by rw [Ty.interOf, ht]; rfl
          exact ends_pure (hinter ▸ of_interOf (fun _ => headsIn_inter) hts.2)
      · exact ends_throw trivial
  | .lit _ value, s => by
      rw [resolve]
      exact ends_pure trivial

theorem ends_resolveAll : ∀ {es : List TyExpr} {s : Resolving}, Ends (resolveAll r rules es) s
    (fun ts _ => ts.length = es.length ∧
      ∀ t ∈ ts, t.HeadsIn fun name n => (name, n) ∈ TyExpr.refsAll es) fun _ _ => True
  | [], s => by
      rw [resolveAll]
      exact ends_pure ⟨rfl, by simp⟩
  | e :: es, s => by
      rw [resolveAll]
      refine Ends.bind (ends_resolve.imp (fun t q ht => ?_) fun _ _ h => h)
      refine Ends.bind (ends_resolveAll.imp (fun ts q' hts => ends_pure ?_) fun _ _ h => h)
      rw [TyExpr.refsAll]
      refine ⟨by rw [List.length_cons, List.length_cons, hts.1], List.forall_mem_cons.2 ⟨?_, ?_⟩⟩
      · exact ht.mono fun _ _ h => List.mem_append_left _ h
      · exact fun u hu => (hts.2 u hu).mono fun _ _ h => List.mem_append_right _ h

end

theorem ends_definition_heads (d : TypeDecl) (s : Resolving) : Ends (definition r d) s
    (fun e _ => e.body.HeadsIn fun name n => (name, n) ∈ d.body.refs) fun _ _ => True := by
  unfold definition
  refine Ends.bind ((ends_trivial _ s).imp (fun params q _ => ?_) fun _ _ h => h)
  exact Ends.bind (ends_resolve.imp (fun body q' hbody => ends_pure hbody) fun _ _ h => h)

end Resolve

/-! ## The graph of names -/

/-- The definition that a declaration comes to by itself, if it can be resolved. -/
def TypeDecl.resolved? (d : TypeDecl) : Option Definition :=
  ((Resolve.definition {} d).run {}).1.toOption

namespace TypeDecl

variable {d : TypeDecl} {e : Definition} {name : String} {n : Nat}

theorem run_of_resolved? (h : d.resolved? = some e) :
    ∃ made, (Resolve.definition {} d).run {} = (.ok e, made) := by
  unfold resolved? at h
  generalize (Resolve.definition {} d).run {} = out at h
  obtain ⟨_ | e', made⟩ := out
  · cases h
  · cases h
    exact ⟨made, rfl⟩

theorem length_params (h : d.resolved? = some e) : e.params.length = d.params.length := by
  obtain ⟨made, hrun⟩ := run_of_resolved? h
  have hends := Resolve.ends_definition {} d {}
  rw [Ends, hrun] at hends
  exact hends.2

theorem mem_refs_of_headAt (h : d.resolved? = some e) (hat : e.body.HeadAt name n) :
    (name, n) ∈ d.body.refs := by
  obtain ⟨made, hrun⟩ := run_of_resolved? h
  have hends := Resolve.ends_definition_heads (r := {}) d {}
  rw [Ends, hrun] at hends
  exact hends.of_headAt hat

end TypeDecl

namespace Session

open Relation

/-- One declared name leads to another: that one stands at the head of its definition. -/
def Leads (ds : List TypeDecl) (x y : String) : Prop :=
  ∃ d ∈ ds, d.name = x ∧ ∃ e, d.resolved? = some e ∧ ∃ n, e.body.HeadAt y n

/-- No declared name leads back to itself. -/
def NoCycle (ds : List TypeDecl) : Prop := ∀ x, ¬ TransGen (Leads ds) x x

/-- What is asked of declarations for their order to make no difference. -/
structure Commuting (ds : List TypeDecl) : Prop where
  /-- They refer to each other with the right numbers of arguments. -/
  arity : ∀ d ∈ ds, ∀ d' ∈ ds, d'.name ≠ d.name → ∀ ref ∈ d.body.refs, ref.1 = d'.name →
    ref.2 = d'.params.length
  /-- Those with parameters that stand at the head of another one are firm. -/
  firm : ∀ d ∈ ds, d.params ≠ [] → (∃ x, Leads ds x d.name) →
    ∀ e, d.resolved? = some e → e.body.firm = true

/-- A registry holds the definitions of some declarations, and no others. -/
structure Holds (ds : List TypeDecl) (r : Registry) : Prop where
  declared : ∀ name e', r.lookup? name = some e' → ∃ d ∈ ds, d.name = name
  defined : ∀ d ∈ ds, ∃ e e' F, d.resolved? = some e ∧ r.lookup? d.name = some e' ∧ e.Alike F e'

variable {ds all : List TypeDecl} {d : TypeDecl} {r : Registry} {e e' : Definition}
  {F : Int → Int → Prop} {x y name : String} {args : List Ty} {u : Ty} {n : Nat}

theorem Leads.mono (h : Leads ds x y) (hsub : ds ⊆ all) : Leads all x y := by
  obtain ⟨d, hd, h⟩ := h
  exact ⟨d, hsub hd, h⟩

theorem NoCycle.mono (h : NoCycle all) (hsub : ds ⊆ all) : NoCycle ds :=
  fun x hx => h x (TransGen.mono (fun _ _ hxy => hxy.mono hsub) _ _ hx)

theorem leads_concat (he : d.resolved? = some e) :
    Leads (ds ++ [d]) x y ↔ Leads ds x y ∨ x = d.name ∧ ∃ n, e.body.HeadAt y n := by
  constructor
  · rintro ⟨d', hd', rfl, e', he', hat⟩
    rcases List.mem_append.1 hd' with hd' | hd'
    · exact .inl ⟨d', hd', rfl, e', he', hat⟩
    · obtain rfl := List.mem_singleton.1 hd'
      rw [he] at he'
      cases he'
      exact .inr ⟨rfl, hat⟩
  · rintro (h | ⟨rfl, hat⟩)
    · exact h.mono (List.subset_append_left ds [d])
    · exact ⟨d, List.mem_append_right _ (List.mem_singleton.2 rfl), rfl, e, he, hat⟩

theorem Holds.lookup?_eq_none (hr : Holds ds r) (hnew : ∀ d' ∈ ds, d'.name ≠ d.name) :
    r.lookup? d.name = none := by
  cases hl : r.lookup? d.name with
  | none => rfl
  | some e =>
      obtain ⟨d', hd', hname⟩ := hr.declared _ _ hl
      exact absurd hname (hnew d' hd')

/-- What stands at the head of an expanded reference is what stands at the head of its
declaration. -/
theorem Holds.headAt_expand? (hall : Commuting all) (hsub : ds ⊆ all) (hr : Holds ds r)
    (hd : d ∈ ds) (hlead : Leads all x d.name) (hu : r.expand? d.name args = some u) :
    ∃ e, d.resolved? = some e ∧ ∀ y n, u.HeadAt y n ↔ e.body.HeadAt y n := by
  obtain ⟨e, e', F, he, he', halike⟩ := hr.defined d hd
  refine ⟨e, he, fun y n => ?_⟩
  rw [Registry.expand?, he', Option.bind_some, Definition.expand?] at hu
  split at hu
  · cases hu
    rw [halike.body.headAt_iff]
    by_cases hparams : e'.params = []
    · rw [hparams, List.zip_nil_left, Subst.apply_of_isEmpty rfl]
    · have hne : d.params ≠ [] := by
        intro hnil
        apply hparams
        rw [← List.length_eq_zero_iff, ← halike.params.length_eq, TypeDecl.length_params he, hnil]
        rfl
      have hfirm := hall.firm d (hsub hd) hne ⟨x, hlead⟩ e he
      rw [halike.body.firm_eq] at hfirm
      exact Ty.headAt_apply _ hfirm
  · cases hu

/-! ## A walk that finds a cycle -/

/-- A walk goes along the graph, so a cycle that it finds is one of the graph. -/
theorem exists_cycle_of_cycleWithin (hall : Commuting all) (hsub : ds ⊆ all) (hr : Holds ds r) :
    ∀ {n : Nat} {trail : Trail String} {t : Ty}, x ∈ trail.items →
    (∀ z ∈ trail.items, ∀ y n, t.HeadAt y n → TransGen (Leads ds) z y) →
    r.cycleWithin n trail t ≠ none → ¬ NoCycle ds := by
  intro n
  induction n with
  | zero => intro trail t _ _ h; exact absurd rfl h
  | succ n ih =>
      intro trail t hx hlead h hnone
      apply h
      rw [Registry.cycleWithin, List.findSome?_eq_none_iff]
      rintro ⟨name, args⟩ href
      have hat : t.HeadAt name args.length := ⟨args, href, rfl⟩
      dsimp only
      split
      · next hmem =>
          rw [Trail.contains, decide_eq_true_eq] at hmem
          exact absurd (hlead name hmem name _ hat) (hnone name)
      · cases hu : r.expand? name args with
        | none => rfl
        | some u =>
            obtain ⟨z, -, hz⟩ := TransGen.tail'_iff.1 (hlead x hx name _ hat)
            obtain ⟨e', he', -⟩ := Option.bind_eq_some_iff.1 hu
            obtain ⟨d, hd, rfl⟩ := hr.declared name e' he'
            obtain ⟨e, he, hheads⟩ := hr.headAt_expand? hall hsub hd (hz.mono hsub) hu
            by_contra hcycle
            refine ih (List.mem_append_left _ hx) (fun z' hz' y m hy => ?_) hcycle hnone
            have hstep : Leads ds d.name y := ⟨d, hd, rfl, e, he, m, (hheads y m).1 hy⟩
            rcases List.mem_append.1 hz' with hz' | hz'
            · exact (hlead z' hz' _ _ hat).tail hstep
            · rw [List.mem_singleton.1 hz']
              exact .single hstep

/-! ## A cycle that a walk finds -/

/-- A cycle that comes with some new edges from one place goes through that place, and from there
on back to it along old edges. -/
theorem exists_return {α : Type} {R R' : α → α → Prop} {S : α → Prop} {z : α}
    (hR' : ∀ x y, R' x y ↔ R x y ∨ x = z ∧ S y) (hR : ∀ x, ¬ TransGen R x x)
    (hx : ∃ x, TransGen R' x x) : ∃ y, S y ∧ ReflTransGen R y z := by
  -- The last new edge of a path, if there is one.
  have hlast : ∀ {x y : α}, TransGen R' x y →
      TransGen R x y ∨ ReflTransGen R' x z ∧ ∃ w, S w ∧ ReflTransGen R w y := by
    intro x y h
    induction h with
    | single h =>
        rcases (hR' _ _).1 h with h | ⟨rfl, h⟩
        · exact .inl (.single h)
        · exact .inr ⟨.refl, _, h, .refl⟩
    | tail hpath h ih =>
        rcases (hR' _ _).1 h with h | ⟨rfl, h⟩
        · exact ih.imp (·.tail h) fun ⟨hz, w, hw, hwy⟩ => ⟨hz, w, hw, hwy.tail h⟩
        · exact .inr ⟨hpath.to_reflTransGen, _, h, .refl⟩
  obtain ⟨x, hx⟩ := hx
  obtain ⟨hxz, w, hw, hwx⟩ := (hlast hx).resolve_left (hR x)
  have hwx' : ReflTransGen R' w x := ReflTransGen.mono (fun _ _ h => (hR' _ _).2 (.inl h)) _ _ hwx
  have hz : TransGen R' z z := TransGen.head' ((hR' z w).2 (.inr ⟨rfl, hw⟩)) (hwx'.trans hxz)
  exact ((hlast hz).resolve_left (hR z)).2

/-- A path of the graph is walked by expanding references: those between different declarations
have the right numbers of arguments. -/
theorem Holds.exists_headSteps (hall : Commuting all) (hsub : ds ++ [d] ⊆ all) (hr : Holds ds r)
    (hnone : NoCycle ds) (hnew : ∀ d' ∈ ds, d'.name ≠ d.name) (he : d.resolved? = some e)
    (halike : e.Alike F e') (hx : ∃ n, e.body.HeadAt x n) (hpath : ReflTransGen (Leads ds) x y) :
    ∃ u, ReflTransGen r.HeadStep e'.body u ∧
      ∃ q ∈ ds ++ [d], ∃ eq n, q.resolved? = some eq ∧ eq.body.HeadAt y n ∧ u.HeadAt y n := by
  induction hpath with
  | refl =>
      obtain ⟨n, hn⟩ := hx
      exact ⟨e'.body, .refl, d, List.mem_append_right _ (List.mem_singleton.2 rfl), e, n, he, hn,
        (halike.body.headAt_iff).1 hn⟩
  | @tail y z _ hyz ih =>
      obtain ⟨u, hu, q, hq, eq, n, heq, hyn, args, href, hargs⟩ := ih
      obtain ⟨dy, hdy, rfl, ey, hey, m, hz⟩ := hyz
      have hlead : Leads (ds ++ [d]) q.name dy.name := ⟨q, hq, rfl, eq, heq, n, hyn⟩
      -- The reference is not one of a declaration to itself, so its arguments fit.
      have hne : dy.name ≠ q.name := by
        intro hname
        rcases List.mem_append.1 hq with hq | hq
        · exact hnone q.name (.single ⟨q, hq, rfl, eq, heq, n, hname ▸ hyn⟩)
        · rw [List.mem_singleton.1 hq] at hname
          exact hnew dy hdy hname
      have hfits : n = dy.params.length :=
        hall.arity q (hsub hq) dy (hsub (List.mem_append_left _ hdy)) hne _
          (TypeDecl.mem_refs_of_headAt heq hyn) rfl
      obtain ⟨e₁, e₂, G, he₁, he₂, halike₂⟩ := hr.defined dy hdy
      have hexpand : ∃ u', r.expand? dy.name args = some u' := by
        rw [Registry.expand?, he₂, Option.bind_some, Definition.expand?, if_pos ?_]
        · exact ⟨_, rfl⟩
        · rw [hargs, hfits, ← TypeDecl.length_params he₁, halike₂.params.length_eq]
      obtain ⟨u', hu'⟩ := hexpand
      obtain ⟨e₃, he₃, hheads⟩ := hr.headAt_expand? hall
        (fun q hq => hsub (List.mem_append_left _ hq)) hdy (hlead.mono hsub) hu'
      rw [hey] at he₃
      cases he₃
      exact ⟨u', hu.tail ⟨dy.name, args, href, hu'⟩, dy, List.mem_append_left _ hdy, ey, m, hey, hz,
        (hheads z m).2 hz⟩

/-- A definition is refused exactly if it would close a cycle of the graph. -/
theorem Holds.cycle?_eq_none_iff (hall : Commuting all) (hsub : ds ++ [d] ⊆ all)
    (hr : Holds ds r) (hr' : Holds (ds ++ [d]) (r.insert e')) (hnone : NoCycle ds)
    (hnew : ∀ d' ∈ ds, d'.name ≠ d.name) (he : d.resolved? = some e) (hname : e'.name = d.name)
    (halike : e.Alike F e') : r.cycle? e' = none ↔ NoCycle (ds ++ [d]) := by
  constructor
  · intro hcycle x hx
    have hlookup : r.lookup? e'.name = none := hname ▸ hr.lookup?_eq_none hnew
    have hconcat : ∀ x y, Leads (ds ++ [d]) x y ↔
        Leads ds x y ∨ x = d.name ∧ ∃ n, e.body.HeadAt y n := fun _ _ => leads_concat he
    obtain ⟨y, hy, hpath⟩ := exists_return hconcat hnone ⟨x, hx⟩
    obtain ⟨u, hu, -, -, -, n, -, -, args, href, hargs⟩ :=
      hr.exists_headSteps hall hsub hnone hnew he halike hy hpath
    exact Registry.not_meets_body hlookup hcycle ⟨u, args, hu, hname ▸ href, rfl⟩
  · intro hnone'
    by_contra hcycle
    have hmem : d.name ∈ (({} : Trail String).push e'.name).items := by
      rw [hname]
      exact List.mem_singleton.2 rfl
    refine exists_cycle_of_cycleWithin hall hsub hr' hmem (fun z hz y n hat => ?_) hcycle hnone'
    obtain rfl : z = e'.name := by simpa [Trail.push] using hz
    rw [hname]
    exact .single ((leads_concat he).2 (.inr ⟨rfl, n, halike.body.headAt_iff.2 hat⟩))

/-! ## Runs of declarations -/

/-- Whether some declarations are all accepted, one after the other. -/
def accepts : List TypeDecl → Session → Bool
  | [], _ => true
  | d :: ds, s => ((declare d).run s).1.isOk && accepts ds ((declare d).run s).2

/-- Some declarations can be accepted: each by itself, and no name among them leads to itself. -/
def Acceptable (ds : List TypeDecl) : Prop :=
  (∀ d ∈ ds, Ty.primitive? d.name = none ∧ d.resolved?.isSome) ∧ NoCycle ds

/-- What a declaration comes to in a session is what it comes to by itself, up to numbers. -/
theorem declare_cases (d : TypeDecl) (s : Session)
    (hallows : ∀ ref ∈ d.body.refs, s.registry.Allows ref.1 ref.2) :
    (d.resolved? = none ∧ ((declare d).run s).1.isOk = false) ∨
    ∃ e e' F, d.resolved? = some e ∧ e'.name = d.name ∧ e.Alike F e' ∧
      ((declare d).run s).1.isOk = (s.registry.define e').isOk ∧
      ∀ r, s.registry.define e' = .ok r → ((declare d).run s).2.registry = r := by
  have hparallel : Resolve.Parallel 0 s.supply.count 0 _ (Resolve.definition {} d)
      (Resolve.definition s.registry d) := Resolve.parallel_definition fun ref href =>
    iff_of_true (fun _ h => by cases h) (hallows ref href)
  obtain ⟨m, -, -, hend⟩ := hparallel {} { supply := s.supply } ⟨rfl, rfl, .nil⟩
  unfold TypeDecl.resolved?
  generalize (Resolve.definition {} d).run {} = out at hend ⊢
  cases hrun : (Resolve.definition s.registry d).run { supply := s.supply } with
  | mk res made =>
      rw [hrun] at hend
      obtain ⟨res', made'⟩ := out
      cases hend with
      | error err err' =>
          rw [run_declare_error hrun]
          exact .inl ⟨rfl, rfl⟩
      | @ok e e' h =>
          refine .inr ⟨e, e', _, rfl, h.2.2.name ▸ h.1, h.2.2, ?_⟩
          rw [run_declare_ok hrun]
          generalize hp : ({ s with supply := made.supply } : Session) = p
          have hregistry : s.registry = p.registry := by rw [← hp]
          rw [hregistry]
          cases hdefine : p.registry.define e' with
          | ok r => rw [run_define_ok hdefine]; exact ⟨rfl, fun _ h => by cases h; rfl⟩
          | error err => rw [run_define_error hdefine]; exact ⟨rfl, fun _ h => by cases h⟩

theorem holds_nil : Holds [] {} where
  declared := fun _ _ h => by cases h
  defined := fun _ h => by cases h

theorem Holds.insert (hr : Holds ds r) (hnew : ∀ d' ∈ ds, d'.name ≠ d.name)
    (he : d.resolved? = some e) (hname : e'.name = d.name) (halike : e.Alike F e') :
    Holds (ds ++ [d]) (r.insert e') where
  declared := fun name e'' h => by
    rw [Registry.lookup?_insert] at h
    split at h
    · next heq =>
        exact ⟨d, List.mem_append_right _ (List.mem_singleton.2 rfl), (heq.trans hname).symm⟩
    · obtain ⟨d', hd', hname'⟩ := hr.declared _ _ h
      exact ⟨d', List.mem_append_left _ hd', hname'⟩
  defined := fun d' hd' => by
    rw [Registry.lookup?_insert]
    rcases List.mem_append.1 hd' with hd' | hd'
    · rw [if_neg (hname ▸ hnew d' hd')]
      exact hr.defined d' hd'
    · rw [List.mem_singleton.1 hd', if_pos hname.symm]
      exact ⟨e, e', F, he, rfl, halike⟩

/-- Definitions that are there already allow what a declaration refers to. -/
theorem Holds.allows (hall : Commuting all) (hsub : ds ⊆ all) (hd : d ∈ all) (hr : Holds ds r)
    (hnew : ∀ d' ∈ ds, d'.name ≠ d.name) : ∀ ref ∈ d.body.refs, r.Allows ref.1 ref.2 := by
  intro ref href e' he'
  obtain ⟨d', hd', hname⟩ := hr.declared _ _ he'
  obtain ⟨e₁, e₂, G, he₁, he₂, halike⟩ := hr.defined d' hd'
  rw [hname, he'] at he₂
  cases he₂
  rw [← halike.params.length_eq, TypeDecl.length_params he₁]
  exact (hall.arity d hd d' (hsub hd') (hnew d' hd') ref href hname.symm).symm

/-- Whether declarations are accepted, after some that were, depends on what they are only. -/
theorem Holds.accepts_iff (hall : Commuting all) : ∀ {ds ps : List TypeDecl} {s : Session},
    ps ++ ds ⊆ all → ((ps ++ ds).map (·.name)).Nodup → Holds ps s.registry → NoCycle ps →
    (accepts ds s = true ↔
      (∀ d ∈ ds, Ty.primitive? d.name = none ∧ d.resolved?.isSome) ∧ NoCycle (ps ++ ds))
  | [], ps, s, _, _, _, hnone => by simpa [accepts] using hnone
  | d :: ds, ps, s, hsub, hnodup, hr, hnone => by
      rw [List.append_cons] at hsub hnodup ⊢
      have hsub' : ps ++ [d] ⊆ all := fun q hq => hsub (List.mem_append_left _ hq)
      have hnew : ∀ d' ∈ ps, d'.name ≠ d.name := by
        intro d' hd'
        rw [List.map_append, List.map_append, List.nodup_append, List.nodup_append] at hnodup
        exact hnodup.1.2.2 _ (List.mem_map_of_mem hd') _ (List.mem_singleton.2 rfl)
      have hd : d ∈ all := hsub' (List.mem_append_right _ (List.mem_singleton.2 rfl))
      have hps : ps ⊆ all := fun q hq => hsub' (List.mem_append_left _ hq)
      rw [accepts, Bool.and_eq_true, List.forall_mem_cons]
      rcases declare_cases d s (hr.allows hall hps hd hnew) with
        ⟨hres, hrun⟩ | ⟨e, e', F, he, hname, halike, hok, hafter⟩
      · rw [hrun, hres]
        simp
      have hr' := hr.insert hnew he hname halike
      have hcycle := hr.cycle?_eq_none_iff hall hsub' hr' hnone hnew he hname halike
      have hdefine : (s.registry.define e').isOk = true ↔
          Ty.primitive? d.name = none ∧ NoCycle (ps ++ [d]) := by
        rw [Registry.isOk_define, hname, hcycle, and_congr_right_iff]
        exact fun _ => and_iff_right (hr.lookup?_eq_none hnew)
      rw [hok, hdefine, he]
      constructor
      · rintro ⟨⟨hprim, hnone'⟩, hds⟩
        have hregistry := hafter _ (Registry.define_of_isOk (hdefine.2 ⟨hprim, hnone'⟩))
        obtain ⟨hds, hall'⟩ :=
          (Holds.accepts_iff hall hsub hnodup (hregistry ▸ hr') hnone').1 hds
        exact ⟨⟨⟨hprim, rfl⟩, hds⟩, hall'⟩
      · rintro ⟨⟨⟨hprim, -⟩, hds⟩, hall'⟩
        have hnone' := hall'.mono (List.subset_append_left _ ds)
        have hregistry := hafter _ (Registry.define_of_isOk (hdefine.2 ⟨hprim, hnone'⟩))
        exact ⟨⟨hprim, hnone'⟩,
          (Holds.accepts_iff hall hsub hnodup (hregistry ▸ hr') hnone').2 ⟨hds, hall'⟩⟩

theorem Acceptable.perm {ds' : List TypeDecl} (hperm : ds.Perm ds') (h : Acceptable ds) :
    Acceptable ds' :=
  ⟨fun d hd => h.1 d (hperm.mem_iff.2 hd), h.2.mono fun _ hd => hperm.mem_iff.2 hd⟩

theorem Commuting.perm {ds' : List TypeDecl} (hperm : ds.Perm ds') (h : Commuting ds) :
    Commuting ds' where
  arity := fun d hd d' hd' => h.arity d (hperm.mem_iff.2 hd) d' (hperm.mem_iff.2 hd')
  firm := fun d hd hparams hx => h.firm d (hperm.mem_iff.2 hd) hparams
    (hx.imp fun _ hlead => hlead.mono fun _ hq => hperm.mem_iff.2 hq)

/-- Declarations of different names are all accepted exactly if they can be. -/
theorem accepts_iff_acceptable (hds : Commuting ds) (hnodup : (ds.map (·.name)).Nodup)
    {s : Session} (hs : s.registry = {}) : accepts ds s = true ↔ Acceptable ds := by
  have hnil : NoCycle [] := by
    intro x hx
    obtain ⟨_, -, d, hd, -⟩ := TransGen.tail'_iff.1 hx
    cases hd
  exact Holds.accepts_iff hds (List.Subset.refl ([] ++ ds)) hnodup (hs ▸ holds_nil) hnil

/-- The order of declarations makes no difference to whether they are all accepted: provided that
they refer to each other with the right numbers of arguments, and that those with parameters that
stand at the head of another one are firm. -/
theorem accepts_perm {ds ds' : List TypeDecl} (hperm : ds.Perm ds')
    (hnodup : (ds.map (·.name)).Nodup) (hds : Commuting ds) {s s' : Session}
    (hs : s.registry = {}) (hs' : s'.registry = {}) : accepts ds s = accepts ds' s' := by
  rw [Bool.eq_iff_iff, accepts_iff_acceptable hds hnodup hs,
    accepts_iff_acceptable (hds.perm hperm) ((hperm.map _).nodup_iff.1 hnodup) hs']
  exact ⟨.perm hperm, .perm hperm.symm⟩

/-- Trees and forests, each of which uses the other, and a type that uses them. -/
def forestDecls : List TypeDecl := [
  { name := "Tree", params := ["a"],
    body := .record {} [("value", .ref {} "a"), ("children", .name {} "Forest" [.ref {} "a"])]
      false },
  { name := "Forest", params := ["a"],
    body := .union {} [.lit {} "none",
      .tuple {} [.name {} "Tree" [.ref {} "a"], .name {} "Forest" [.ref {} "a"]]] },
  { name := "Numbers", body := .name {} "Tree" [.name {} "Int" []] }]

theorem accepts_forest_reverse : forestDecls.Perm forestDecls.reverse ∧
    (forestDecls.map (·.name)).Nodup ∧ Commuting forestDecls ∧ accepts forestDecls {} = true ∧
    accepts forestDecls.reverse { supply := ⟨7⟩ } = true := by
  have hperm : forestDecls.Perm forestDecls.reverse := (List.reverse_perm _).symm
  have hnodup : (forestDecls.map (·.name)).Nodup := by decide +kernel
  have hall : Commuting forestDecls := by
    refine ⟨by decide +kernel, fun d hd _ _ e he => ?_⟩
    have hfirm : ∀ d ∈ forestDecls, (d.resolved?.all fun e => e.body.firm) = true := by
      decide +kernel
    have := hfirm d hd
    rw [he] at this
    exact this
  have haccepts : accepts forestDecls {} = true := by decide +kernel
  refine ⟨hperm, hnodup, hall, haccepts, ?_⟩
  rw [← accepts_perm hperm hnodup hall (s := {}) rfl rfl, haccepts]

/-- What an earlier definition puts in for a parameter goes unseen. -/
example :
    let parameter : TypeDecl := { name := "F", params := ["a"], body := .ref {} "a" }
    let itself : TypeDecl := { name := "A", body := .name {} "F" [.name {} "A" []] }
    accepts [itself, parameter] {} = true ∧ accepts [parameter, itself] {} = false := by
  decide +kernel

end Session

end RowTypes
