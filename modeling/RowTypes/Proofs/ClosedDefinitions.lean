import RowTypes.Proofs.DeclarationOrder
import RowTypes.Proofs.KindedTypes

/-!
# Definitions are closed

The declaration of a named type may use its parameters and no other type variables.  That is checked
where a type variable is looked up, and it makes the definition closed: its body has no free
unknowns but the parameters, so a reference stands for a type that is made of its arguments, and two
uses of a name have nothing in common but what their arguments have in common.

Type variables are not the only unknowns that resolving puts into a type, though.  A record that is
left open gets a row of its own, also in a declaration, and all uses of the name share that row.  So
it is asked here that the declaration leaves no record open.
-/

namespace RowTypes

namespace TyExpr

mutual

/-- Whether all records of an annotation are closed. -/
def isClosed : TyExpr → Bool
  | .missing | .ref _ _ | .lit _ _ => true
  | .name _ _ es | .tuple _ es | .union _ es | .inter _ es => isClosedAll es
  | .fn _ p q => p.isClosed && q.isClosed
  | .record _ fs isOpen => !isOpen && isClosedFields fs

def isClosedAll : List TyExpr → Bool
  | [] => true
  | e :: es => e.isClosed && isClosedAll es

def isClosedFields : List (String × TyExpr) → Bool
  | [] => true
  | (_, e) :: fs => e.isClosed && isClosedFields fs

end

end TyExpr

namespace Resolve

open Ty

/-- A number is that of a type variable. -/
def Named (vars : Table String TyVar) (id : Int) : Prop := ∃ entry ∈ vars, entry.2.id = id

variable {r : Registry} {rules : ScopeRules}

/-- A property that types have if their parts have it, apart from open records, and that the known
type variables have. -/
structure Composed (vars : Table String TyVar) (Q : Ty → Prop) : Prop where
  var : ∀ v, Named vars v.id → Q (.var v)
  prim : ∀ name, Q (.prim name)
  lit : ∀ value, Q (.lit value)
  fn : ∀ {p q}, Q p → Q q → Q (.fn p q)
  record : ∀ {fs}, (∀ f ∈ fs, Q f.2) → Q (.record fs none)
  tuple : ∀ {ts}, (∀ t ∈ ts, Q t) → Q (.tuple ts)
  union : ∀ ts, Q (.union ts) ↔ ∀ t ∈ ts, Q t
  inter : ∀ ts, Q (.inter ts) ↔ ∀ t ∈ ts, Q t
  named : ∀ name {ts}, (∀ t ∈ ts, Q t) → Q (.named name ts)

variable {vars : Table String TyVar} {Q : Ty → Prop}

/-- The row of an open record is new, and no type variable. -/
theorem ends_row {level : Int} {s : Resolving} {ok : Option TyVar → Resolving → Prop}
    {err : Diagnostic → Resolving → Prop} (h : ∀ v q, q.vars = s.vars → ok (some v) q) :
    Ends (some <$> fresh level) s ok err := h _ _ rfl

mutual

/-- An annotation resolves to a type with the property, and no other type variables are known after
it, if no others are allowed.  Either no record is left open or open records have the property. -/
theorem ends_resolve_composed (hQ : Composed vars Q) (hrigid : rules.rigid = true) :
    ∀ {e : TyExpr} {s : Resolving}, s.vars = vars →
    (e.isClosed = true ∨ ∀ fs v, (∀ f ∈ fs, Q f.2) → Q (.record fs (some v))) →
    Ends (resolve r rules e) s (fun t q => q.vars = vars ∧ Q t) fun _ _ => True
  | .missing, s, _, _ => by
      rw [resolve]
      exact ends_throw trivial
  | .name span name args, s, hs, h => by
      rw [resolve]
      split
      · next t ht =>
          split
          · unfold Ty.primitive? at ht
            split at ht
            · cases ht
              exact ends_pure ⟨hs, hQ.prim name⟩
            · cases ht
          · exact ends_throw trivial
      · refine Ends.bind ((ends_resolveAll_composed hQ hrigid hs h).imp (fun ts q hts => ?_)
          fun _ _ h => h)
        have href : q.vars = vars ∧ Q (.named name ts) := ⟨hts.1, hQ.named name hts.2⟩
        unfold reference
        split
        · split
          · exact ends_pure href
          · exact ends_throw trivial
        · split
          · exact ends_throw trivial
          · exact ends_pure href
  | .ref span name, s, hs, _ => by
      rw [resolve, typeVar]
      refine ends_get ?_
      split
      · next v hv =>
          rw [hs] at hv
          exact ends_pure ⟨hs, hQ.var v ⟨_, Table.mem_of_get? hv, rfl⟩⟩
      · rw [if_pos hrigid]
        exact Ends.bind (ends_throw trivial)
  | .fn _ p q, s, hs, h => by
      rw [TyExpr.isClosed, Bool.and_eq_true] at h
      have hp := h.imp_left And.left
      have hq := h.imp_left And.right
      rw [resolve]
      refine Ends.bind ((ends_resolve_composed hQ hrigid hs hp).imp (fun p' s' hp' => ?_)
        fun _ _ h => h)
      refine Ends.bind ((ends_resolve_composed hQ hrigid hp'.1 hq).imp (fun q' s'' hq' => ?_)
        fun _ _ h => h)
      exact ends_pure ⟨hq'.1, hQ.fn hp'.2 hq'.2⟩
  | .record span fields isOpen, s, hs, h => by
      rw [TyExpr.isClosed, Bool.and_eq_true, Bool.not_eq_true'] at h
      rw [resolve]
      have hfields := h.imp_left And.right
      refine Ends.bind ((ends_resolveFields_composed hQ hrigid hs hfields (by simp)).imp
        (fun fs q hfs => ?_) fun _ _ h => h)
      cases isOpen with
      | false => exact ends_pure ⟨hfs.1, hQ.record hfs.2⟩
      | true =>
          have hopen := h.resolve_left fun h => by cases h.1
          rw [if_pos rfl]
          exact Ends.bind (ends_row fun v q' hq' =>
            ends_pure ⟨hq'.trans hfs.1, hopen fs v hfs.2⟩)
  | .tuple _ es, s, hs, h => by
      rw [resolve]
      exact Ends.bind ((ends_resolveAll_composed hQ hrigid hs h).imp
        (fun ts q hts => ends_pure ⟨hts.1, hQ.tuple hts.2⟩) fun _ _ h => h)
  | .union span es, s, hs, h => by
      rw [resolve]
      refine Ends.bind ((ends_resolveAll_composed hQ hrigid hs h).imp (fun ts q hts => ?_)
        fun _ _ h => h)
      split
      · next t ht => exact ends_pure ⟨hts.1, of_unionOf? hQ.union hts.2 ht⟩
      · exact ends_throw trivial
  | .inter span es, s, hs, h => by
      rw [resolve]
      refine Ends.bind ((ends_resolveAll_composed hQ hrigid hs h).imp (fun ts q hts => ?_)
        fun _ _ h => h)
      split
      · next t ht =>
          have hinter : Ty.interOf ts = t := by rw [Ty.interOf, ht]; rfl
          exact ends_pure ⟨hts.1, hinter ▸ of_interOf hQ.inter hts.2⟩
      · exact ends_throw trivial
  | .lit _ value, s, hs, _ => by
      rw [resolve]
      exact ends_pure ⟨hs, hQ.lit value⟩

theorem ends_resolveAll_composed (hQ : Composed vars Q) (hrigid : rules.rigid = true) :
    ∀ {es : List TyExpr} {s : Resolving}, s.vars = vars →
    (TyExpr.isClosedAll es = true ∨ ∀ fs v, (∀ f ∈ fs, Q f.2) → Q (.record fs (some v))) →
    Ends (resolveAll r rules es) s (fun ts q => q.vars = vars ∧ ∀ t ∈ ts, Q t) fun _ _ => True
  | [], s, hs, _ => by
      rw [resolveAll]
      exact ends_pure ⟨hs, by simp⟩
  | e :: es, s, hs, h => by
      rw [TyExpr.isClosedAll, Bool.and_eq_true] at h
      have he := h.imp_left And.left
      have hes := h.imp_left And.right
      rw [resolveAll]
      refine Ends.bind ((ends_resolve_composed hQ hrigid hs he).imp (fun t q ht => ?_)
        fun _ _ h => h)
      refine Ends.bind ((ends_resolveAll_composed hQ hrigid ht.1 hes).imp (fun ts q' hts => ?_)
        fun _ _ h => h)
      exact ends_pure ⟨hts.1, List.forall_mem_cons.2 ⟨ht.2, hts.2⟩⟩

theorem ends_resolveFields_composed (hQ : Composed vars Q) (hrigid : rules.rigid = true)
    {whole : TyExpr} :
    ∀ {fs : List (String × TyExpr)} {done : List (String × Ty)} {s : Resolving}, s.vars = vars →
      (TyExpr.isClosedFields fs = true ∨ ∀ fs v, (∀ f ∈ fs, Q f.2) → Q (.record fs (some v))) →
      (∀ f ∈ done, Q f.2) →
      Ends (resolveFields r rules whole done fs) s
        (fun (ts : List (String × Ty)) q => q.vars = vars ∧ ∀ f ∈ ts, Q f.2) fun _ _ => True
  | [], done, s, hs, _, hdone => by
      rw [resolveFields]
      exact ends_pure ⟨hs, hdone⟩
  | (name, e) :: fs, done, s, hs, h, hdone => by
      rw [TyExpr.isClosedFields, Bool.and_eq_true] at h
      have he := h.imp_left And.left
      have hfs := h.imp_left And.right
      rw [resolveFields]
      dsimp only
      split
      · exact ends_throw trivial
      · refine Ends.bind ((ends_resolve_composed hQ hrigid hs he).imp (fun t q ht => ?_)
          fun _ _ h => h)
        refine ends_resolveFields_composed hQ hrigid ht.1 hfs fun f hf => ?_
        rcases Table.mem_insert hf with rfl | hf
        · exact ht.2
        · exact hdone f hf

end

/-- A type is made of closed records and of the type variables that are known. -/
theorem composed_rooted (vars : Table String TyVar) :
    Composed vars (Rooted (fun _ => False) (Named vars)) where
  var _ := .var
  prim := .prim
  lit := .lit
  fn := .fn
  record hfs := .record hfs (by rintro v ⟨⟩)
  tuple := .tuple
  union _ := rooted_union
  inter _ := rooted_inter
  named _ _ := .named

/-- The type variables of a declaration are its parameters. -/
theorem ends_declareParams_named {span : Span} : ∀ {names : List String} {s : Resolving},
    Ends (declareParams span names) s
      (fun params q => ∀ id, Named q.vars id → (∃ v ∈ params, v.id = id) ∨ Named s.vars id)
      fun _ _ => True
  | [], s => ends_pure fun _ => .inr
  | name :: names, s => by
      rw [declareParams]
      refine ends_get ?_
      split
      · exact ends_throw trivial
      · -- The parameter gets the next number, and is entered.
        let v : TyVar := ⟨(s.supply.count : Int) + 1, 0⟩
        let entered : Resolving :=
          { supply := ⟨s.supply.count + 1⟩, vars := Table.insert name v s.vars }
        show Ends (declareParams span names >>= fun params => pure (v :: params)) entered _ _
        refine Ends.bind (ends_declareParams_named.imp (fun params q hq => ends_pure ?_)
          fun _ _ h => h)
        intro id hid
        rcases hq id hid with ⟨w, hw, hid⟩ | ⟨entry, hentry, hid⟩
        · exact .inl ⟨w, List.mem_cons_of_mem _ hw, hid⟩
        · rcases Table.mem_insert hentry with rfl | hentry
          · exact .inl ⟨v, List.mem_cons_self, hid⟩
          · exact .inr ⟨entry, hentry, hid⟩

/-- A declaration without open records comes to a closed definition. -/
theorem ends_definition_closed {d : TypeDecl} (hclosed : d.body.isClosed = true)
    (supply : Supply) :
    Ends (definition r d) { supply } (fun e _ => e.Closed) fun _ _ => True := by
  unfold definition
  refine Ends.bind (ends_declareParams_named.imp (fun params q hparams => ?_) fun _ _ h => h)
  refine Ends.bind ((ends_resolve_composed (composed_rooted _) rfl rfl (.inl hclosed)).imp
    (fun body q' hbody => ?_) fun _ _ h => h)
  refine ends_pure (hbody.2.mono (fun id hid => ?_) nofun)
  exact (hparams id hid).resolve_right fun ⟨_, hentry, _⟩ => nomatch hentry

end Resolve

namespace Session

variable {σ τ : Session} {d : TypeDecl}

/-- A declaration that is accepted, and leaves no record open, adds a definition whose free unknowns
are its parameters.  With as many arguments, the name stands for a type whose free unknowns are
those of the arguments, and an unknown that is free in two such types is free in the arguments of
both. -/
theorem free_of_declare (hclosed : d.body.isClosed = true)
    (h : (declare d).run σ = (.ok (), τ)) :
    ∃ e, τ.registry.lookup? d.name = some e ∧ e.params.length = d.params.length ∧
      (∀ v ∈ e.body.free, ∃ p ∈ e.params, p.id = v.id) ∧
      (∀ args, args.length = d.params.length → ∃ t, τ.registry.expand? d.name args = some t ∧
        ∀ v ∈ t.free, (Ty.frees args).has v = true) ∧
      ∀ args args' t t', τ.registry.expand? d.name args = some t →
        τ.registry.expand? d.name args' = some t' → ∀ v, t.free.has v = true →
        t'.free.has v = true → (Ty.frees args).has v = true ∧ (Ty.frees args').has v = true := by
  have hresolved := (Resolve.ends_definition σ.registry d { supply := σ.supply }).and
    (Resolve.ends_definition_closed (r := σ.registry) hclosed σ.supply)
  obtain ⟨e, ⟨⟨hname, hlen⟩, he⟩, hdef⟩ :=
    (ends_declare_of (hresolved.imp (fun _ _ => id) fun _ _ _ => trivial)).of_run h
  obtain ⟨-, -, hregistry⟩ := Registry.define_eq_ok hdef
  have hexpand : ∀ args, τ.registry.expand? d.name args = e.expand? args := fun args => by
    rw [hregistry, ← hname, Registry.expand?_insert_self]
  have hfree : ∀ {args t}, τ.registry.expand? d.name args = some t → ∀ v,
      t.free.has v = true → (Ty.frees args).has v = true := by
    intro args t ht v hv
    rw [hexpand] at ht
    exact Ty.has_frees.2 (he.mentions_expand? ht (Ty.has_free.1 hv))
  refine ⟨e, ?_, hlen, fun v hv => ?_, fun args hargs => ?_,
    fun args args' t t' ht ht' v hv hv' => ⟨hfree ht v hv, hfree ht' v hv'⟩⟩
  · rw [hregistry, Registry.lookup?_insert, if_pos hname.symm]
  · exact (Ty.Rooted.of_mentions he (Ty.mentions_of_mem_free hv)).resolve_right not_false
  · have ht : e.expand? args = some ((Subst.ofList (e.params.zip args)).apply e.body) := by
      rw [Definition.expand?, if_pos (hargs.trans hlen.symm)]
    exact ⟨_, (hexpand args).trans ht, fun v hv =>
      hfree ((hexpand args).trans ht) v (Ty.has_free.2 (Ty.mentions_of_mem_free hv))⟩

/-- Something with a label. -/
def labelledDecl : TypeDecl :=
  { name := "Labelled", params := ["a"]
    body := .record {} [("label", .name {} "String" []), ("value", .ref {} "a")] false }

/-- The session that begins with it. -/
def labelled : Session := ((declare labelledDecl).run {}).2

theorem free_of_declare_labelled :
    labelledDecl.body.isClosed = true ∧ (declare labelledDecl).run {} = (.ok (), labelled) ∧
    ∃ t, labelled.registry.expand? "Labelled" [.var ⟨7, 0⟩] = some t ∧
      ∀ v ∈ t.free, (Ty.frees [.var ⟨7, 0⟩]).has v = true := by
  have hclosed : labelledDecl.body.isClosed = true := by decide
  have hrun : (declare labelledDecl).run {} = (.ok (), labelled) := by rw [labelled]; rfl
  obtain ⟨e, -, -, -, hexpand, -⟩ := free_of_declare hclosed hrun
  exact ⟨hclosed, hrun, hexpand [.var ⟨7, 0⟩] rfl⟩

/-- The row of an open record is in the definition, and so in every use of it. -/
example :
    let open_ : TypeDecl := { name := "Open", body := .record {} [] true }
    ((declare open_).run {}).2.registry.expand? "Open" [] = some (.record [] (some ⟨1, 0⟩)) := by
  rfl

end Session

end RowTypes
