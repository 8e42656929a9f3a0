import RowTypes.Proofs.Coinduction
import RowTypes.Solver.Solve

/-!
# Raising the limit

The limit on how deep types are related is spent one by one, and relating looks at nothing else of
it than whether it is spent.  So a run that never exceeds it is the same under every higher limit,
call by call, whatever the calls are put together to.

The limit is noted as exceeded beside the complaint about it, because that complaint can get lost: an
attempt that fails is given up whatever the reason, and the next alternative is tried, and unions
and intersections complain in their own words about what went wrong below them.  In types without
unions, intersections and references with arguments there is nothing to try, and there the complaint
about the limit is always what relating ends with.
-/

namespace RowTypes

namespace Relate

/-! ## Runs under two limits -/

section Raises

variable {α β : Type} {ctx : Context} {unify unify' : Relation} {a b : Ty}

/-- A run that does not exceed the limit is the same under the higher one, and a limit that was
exceeded before stays exceeded. -/
structure Raises (x x' : StateM Progress α) : Prop where
  kept : ∀ p, p.exceeded = true → (x p).2.exceeded = true
  same : ∀ p, (x p).2.exceeded = false → x' p = x p

/-- A run that leaves the note about the limit alone. -/
theorem raises_self {x : StateM Progress α} (h : ∀ p, (x p).2.exceeded = p.exceeded) :
    Raises x x := ⟨fun p hp => (h p).trans hp, fun _ _ => rfl⟩

/-- A run that exceeds the limit says nothing about the run under a higher one. -/
theorem raises_of_exceeded {x x' : StateM Progress α} (h : ∀ p, (x p).2.exceeded = true) :
    Raises x x' := ⟨fun p _ => h p, fun p hp => absurd ((h p).symm.trans hp) nofun⟩

theorem Raises.bind {x x' : StateM Progress α} {f f' : α → StateM Progress β} (h : Raises x x')
    (hf : ∀ a, Raises (f a) (f' a)) : Raises (x >>= f) (x' >>= f') where
  kept := fun p hp => (hf _).kept _ (h.kept p hp)
  same := by
    intro p hp
    have hfirst : (x p).2.exceeded = false :=
      Bool.eq_false_iff.2 fun hq => Bool.eq_false_iff.1 hp ((hf _).kept _ hq)
    show f' (x' p).1 (x' p).2 = f (x p).1 (x p).2
    rw [h.same p hfirst]
    exact (hf _).same _ hp

theorem raises_bind {m m' : Relate α} {f f' : α → Relate β} (h : Raises m.run m'.run)
    (hf : ∀ a, Raises (f a).run (f' a).run) : Raises (m >>= f).run (m' >>= f').run := by
  have hcont : ∀ r, Raises (ExceptT.bindCont f r) (ExceptT.bindCont f' r)
    | .ok a => hf a
    | .error _ => raises_self fun _ => rfl
  exact h.bind hcont

theorem raises_lift {x x' : StateM Progress α} {f f' : α → Relate β} (h : Raises x x')
    (hf : ∀ a, Raises (f a).run (f' a).run) :
    Raises (liftM x >>= f : Relate β).run (liftM x' >>= f' : Relate β).run :=
  h.bind hf

theorem raises_pure (a : α) : Raises (pure a : Relate α).run (pure a : Relate α).run :=
  raises_self fun _ => rfl

theorem raises_throw (e : Diagnostic) :
    Raises (throw e : Relate α).run (throw e : Relate α).run := raises_self fun _ => rfl

theorem raises_orElseThrow {m m' : Relate α} {d : Diagnostic → Diagnostic}
    (h : Raises m.run m'.run) : Raises (orElseThrow m d).run (orElseThrow m' d).run where
  kept := by
    intro p hp
    have hkept := h.kept p hp
    rw [run_orElseThrow]
    generalize m.run p = out at hkept
    obtain ⟨_ | _, q⟩ := out <;> exact hkept
  same := by
    intro p hp
    have hsame := h.same p
    rw [run_orElseThrow] at hp ⊢
    rw [run_orElseThrow]
    generalize m.run p = out at hsame hp
    obtain ⟨_ | _, q⟩ := out <;> rw [hsame hp]

theorem raises_attempt {m m' : Relate α} (h : Raises m.run m'.run) :
    Raises (attempt m) (attempt m') where
  kept := by
    intro p hp
    have hkept := h.kept p hp
    rw [attempt]
    generalize m.run p = out at hkept
    obtain ⟨_ | _, q⟩ := out <;> exact hkept
  same := by
    intro p hp
    have hsame := h.same p
    rw [attempt] at hp ⊢
    rw [attempt]
    generalize m.run p = out at hsame hp
    obtain ⟨_ | _, q⟩ := out <;> rw [hsame hp]

theorem raises_firstOf {f f' : Ty → Relate α} (h : ∀ t, Raises (f t).run (f' t).run)
    (ts : List Ty) : Raises (firstOf f ts) (firstOf f' ts) := by
  induction ts with
  | nil => exact raises_self fun _ => rfl
  | cons t ts ih =>
      refine (raises_attempt (h t)).bind fun found => ?_
      cases found with
      | some a => exact raises_self fun _ => rfl
      | none => exact ih

theorem raises_assume (a b : Ty) : Raises (assume a b).run (assume a b).run := by
  refine raises_self fun p => ?_
  rw [run_assume]
  split <;> rfl

theorem raises_expand (ctx : Context) (name : String) (args : List Ty) :
    Raises (expand ctx name args).run (expand ctx name args).run := by
  unfold expand
  split
  · exact raises_throw _
  · split
    · exact raises_pure _
    · exact raises_throw _

theorem raises_bindVar (ctx : Context) (v : TyVar) (t : Ty) :
    Raises (bindVar ctx v t).run (bindVar ctx v t).run := by
  unfold bindVar
  split
  · split <;> exact raises_pure _
  · split
    · exact raises_throw _
    · exact raises_pure _

theorem raises_extendRow (ctx : Context) (s : Subst) (row : TyVar) (fields : List (String × Ty))
    (behind : Option TyVar) : Raises (extendRow ctx s row fields behind).run
      (extendRow ctx s row fields behind).run :=
  raises_bind (raises_bindVar ctx row _) fun _ => raises_pure _

theorem raises_unifyRows (ctx : Context) (s : Subst) (a b : RecordTy) (onlyA onlyB : List String) :
    Raises (unifyRows ctx s a b onlyA onlyB).run (unifyRows ctx s a b onlyA onlyB).run := by
  unfold unifyRows
  split
  · split
    · exact raises_pure _
    · exact raises_throw _
  · split
    · exact raises_extendRow ..
    · exact raises_throw _
  · split
    · exact raises_extendRow ..
    · exact raises_throw _
  · split
    · split
      · exact raises_pure _
      · exact raises_throw _
    · refine raises_bind (raises_self fun _ => rfl) fun behind => ?_
      exact raises_bind (raises_extendRow ..) fun s => raises_extendRow ..

variable (h : ∀ a b, Raises (unify a b).run (unify' a b).run)
include h

theorem raises_thread : ∀ (pairs : List (Ty × Ty)) (s : Subst),
    Raises (thread unify pairs s).run (thread unify' pairs s).run
  | [], _ => raises_pure _
  | _ :: pairs, _ => raises_bind (h _ _) fun _ => raises_thread pairs _

theorem raises_absorb (ctx : Context) (t : Ty) (alts : List Ty) :
    Raises (absorb ctx unify t alts).run (absorb ctx unify' t alts).run := by
  refine raises_lift (raises_firstOf (h t) alts) fun found => ?_
  cases found with
  | some s => exact raises_pure s
  | none => exact raises_throw _

theorem raises_absorbAll (ctx : Context) (target : Ty) : ∀ (alts : List Ty) (s : Subst),
    Raises (absorbAll ctx unify target alts s).run (absorbAll ctx unify' target alts s).run
  | [], _ => raises_pure _
  | alt :: alts, s => by
      rw [absorbAll, absorbAll]
      split
      · exact raises_bind (raises_absorb h ctx _ _) fun _ => raises_absorbAll ctx target alts _
      · exact raises_bind (h _ _) fun _ => raises_absorbAll ctx target alts _

theorem raises_unifyUnions (ctx : Context) (as bs : List Ty) :
    Raises (unifyUnions ctx unify as bs).run (unifyUnions ctx unify' as bs).run :=
  raises_orElseThrow (raises_bind (raises_absorbAll h ctx _ as _) fun _ =>
    raises_absorbAll h ctx _ bs _)

theorem raises_unifyRecords (ctx : Context) (a b : RecordTy) :
    Raises (unifyRecords ctx unify a b).run (unifyRecords ctx unify' a b).run := by
  refine raises_bind (raises_thread h _ _) fun s => ?_
  split
  · exact raises_bind (h _ _) fun _ => raises_pure _
  · exact raises_unifyRows ..

theorem raises_unifyExpanded (ctx : Context) (a b : Ty) :
    Raises (unifyExpanded ctx unify a b).run (unifyExpanded ctx unify' a b).run := by
  unfold unifyExpanded
  split
  · exact raises_bind (raises_expand ..) fun _ => h _ _
  · exact raises_bind (raises_expand ..) fun _ => h _ _
  · exact h _ _
  · exact h _ _
  · exact h _ _

theorem raises_unifyIndirect (ctx : Context) (a b : Ty) :
    Raises (unifyIndirect ctx unify a b).run (unifyIndirect ctx unify' a b).run := by
  rw [unifyIndirect_eq, unifyIndirect_eq]
  refine raises_bind (raises_assume a b) fun known => ?_
  split
  · exact raises_pure _
  · split
    · exact raises_unifyExpanded h ctx a b
    · refine raises_lift (raises_attempt (raises_thread h _ _)) fun found => ?_
      cases found with
      | some s => exact raises_pure s
      | none => exact raises_unifyExpanded h ctx a b

theorem raises_unifyShapes (ctx : Context) (a b : Ty) :
    Raises (unifyShapes ctx unify a b).run (unifyShapes ctx unify' a b).run := by
  unfold unifyShapes
  split
  · exact raises_unifyUnions h ctx _ _
  · exact raises_absorb h ctx _ _
  · exact raises_orElseThrow (raises_thread h _ _)
  · exact raises_absorb h ctx _ _
  · exact raises_orElseThrow (raises_thread h _ _)
  · exact raises_pure _
  · exact raises_pure _
  · exact raises_thread h _ _
  · split
    · exact raises_thread h _ _
    · exact raises_throw _
  · exact raises_unifyRecords h ctx _ _
  · exact raises_throw _

theorem raises_unifyStep (ctx : Context) (a b : Ty) :
    Raises (unifyStep ctx unify a b).run (unifyStep ctx unify' a b).run := by
  unfold unifyStep
  split
  · exact raises_pure _
  · split
    · exact raises_bindVar ..
    · exact raises_bindVar ..
    · split
      · exact raises_unifyIndirect h ctx a b
      · exact raises_unifyShapes h ctx a b

end Raises

/-- What holds of one step holds of all: the steps that a run takes are those that it takes under a
higher limit. -/
theorem raises_unify (ctx : Context) : ∀ {limit limit' : Nat}, limit ≤ limit' → ∀ a b,
    Raises (unify ctx limit a b).run (unify ctx limit' a b).run
  | 0, _, _, _, _ => raises_of_exceeded fun _ => rfl
  | _ + 1, _ + 1, hle, a, b =>
      raises_unifyStep (raises_unify ctx (Nat.le_of_succ_le_succ hle)) ctx a b

end Relate

/-! ## Types with nothing to try -/

namespace Ty

/-- Types without unions and intersections, whose references have no arguments. -/
inductive Direct : Ty → Prop where
  | var (v : TyVar) : Direct (.var v)
  | prim (name : String) : Direct (.prim name)
  | lit (value : String) : Direct (.lit value)
  | fn {p r : Ty} : Direct p → Direct r → Direct (.fn p r)
  | record {fs : List (String × Ty)} (row : Option TyVar) : (∀ f ∈ fs, Direct f.2) →
      Direct (.record fs row)
  | tuple {ts : List Ty} : (∀ t ∈ ts, Direct t) → Direct (.tuple ts)
  | named (name : String) : Direct (.named name [])
  | mu (v : TyVar) {t : Ty} : Direct t → Direct (.mu v t)

variable {p r t : Ty} {ts : List Ty} {fs : List (String × Ty)} {row : Option TyVar} {v : TyVar}

theorem direct_fn : (Ty.fn p r).Direct ↔ p.Direct ∧ r.Direct :=
  ⟨by rintro ⟨⟩; constructor <;> assumption, fun h => .fn h.1 h.2⟩

theorem direct_record : (Ty.record fs row).Direct ↔ ∀ f ∈ fs, f.2.Direct :=
  ⟨by rintro ⟨⟩; assumption, .record row⟩

theorem direct_tuple : (Ty.tuple ts).Direct ↔ ∀ t ∈ ts, t.Direct :=
  ⟨by rintro ⟨⟩; assumption, .tuple⟩

theorem direct_mu : (Ty.mu v t).Direct ↔ t.Direct := ⟨by rintro ⟨⟩; assumption, .mu v⟩

end Ty

/-- Nothing is tried with what unknowns are bound to. -/
def Subst.Direct (s : Subst) : Prop := ∀ entry ∈ s.bindings, entry.2.ty.Direct

/-- Nothing is tried with what a reference without arguments stands for. -/
def Registry.Direct (r : Registry) : Prop :=
  ∀ name t, r.expand? name [] = some t → t.Direct

namespace Subst

variable {s next : Subst} {t : Ty} {fs : List (String × Ty)} {v : TyVar}

theorem Direct.get? (h : s.Direct) {id : Int} (ht : s.get? id = some t) : t.Direct := by
  obtain ⟨b, hb, rfl⟩ := Option.map_eq_some_iff.1 ht
  exact h _ (Table.mem_of_get? hb)

theorem direct_empty : empty.Direct := fun _ h => by cases h

theorem Direct.erase (h : s.Direct) (v : TyVar) : (s.erase v).Direct :=
  fun entry hentry => h entry (List.mem_filter.1 hentry).1

theorem direct_single (v : TyVar) (ht : t.Direct) : (single v t).Direct :=
  forall_bind (R := Ty.Direct) direct_empty v ht

theorem direct_splice {bound : Option Ty} (hfs : ∀ f ∈ fs, f.2.Direct)
    (hbound : ∀ u, bound = some u → u.Direct) : (RecordTy.splice fs v bound).toTy.Direct := by
  refine .record _ fun f hf => ?_
  obtain hf | ⟨more, rest, hb, hf⟩ := RecordTy.mem_fields_splice hf
  · exact hfs f hf
  · exact Ty.direct_record.1 (hbound _ hb) f hf

theorem Direct.apply (ht : t.Direct) : ∀ {s : Subst}, s.Direct → (s.apply t).Direct := by
  induction ht with
  | var v =>
      intro s hs
      rw [apply_var]
      cases hv : s.get? v.id with
      | none => exact .var v
      | some u => exact hs.get? hv
  | prim name =>
      intro s _
      rw [apply_prim]
      exact .prim name
  | lit value =>
      intro s _
      rw [Subst.apply.eq_def]
      split <;> exact .lit value
  | fn _ _ ihp ihr =>
      intro s hs
      rw [apply_fn]
      exact .fn (ihp hs) (ihr hs)
  | @record fs row _ ih =>
      intro s hs
      have hfs : ∀ f ∈ fs.map fun f => (f.1, s.apply f.2), f.2.Direct := by
        intro f hf
        obtain ⟨e, he, rfl⟩ := List.mem_map.1 hf
        exact ih e he hs
      cases row with
      | none =>
          rw [apply_closed]
          exact .record _ hfs
      | some v =>
          rw [apply_open]
          exact direct_splice hfs fun u hu => hs.get? hu
  | @tuple ts _ ih =>
      intro s hs
      rw [apply_tuple]
      refine .tuple fun t ht => ?_
      obtain ⟨u, hu, rfl⟩ := List.mem_map.1 ht
      exact ih u hu hs
  | named name =>
      intro s _
      rw [apply_named]
      exact .named name
  | mu v _ ih =>
      intro s hs
      rw [apply_mu]
      exact .mu v (ih (hs.erase v))

theorem Direct.after (hnext : next.Direct) (hs : s.Direct) : (next.after s).Direct :=
  forall_after (R := Ty.Direct) hnext fun entry hentry => Direct.apply (hs entry hentry) hnext

theorem direct_unfold (h : (Ty.mu v t).Direct) : (Ty.unfold v t).Direct :=
  Direct.apply (Ty.direct_mu.1 h) (direct_single v h)

end Subst

/-! ## Runs that complain about the limit -/

namespace Relate

section Reports

variable {α β : Type} {ctx : Context} {unify : Relation} {Q : α → Prop} {m : Relate α} {a b : Ty}
  {s : Subst}

/-- A run finds what is described without exceeding the limit, or it fails, and with an internal
error if and only if the limit was exceeded. -/
def Reports (Q : α → Prop) (m : Relate α) : Prop :=
  ∀ p, Ends m p (fun a q => Q a ∧ q.exceeded = p.exceeded)
    fun e q => q.exceeded = (p.exceeded || e.isInternal)

theorem reports_pure {a : α} (h : Q a) : Reports Q (pure a) := fun _ => ends_pure ⟨h, rfl⟩

theorem reports_throw {e : Diagnostic} (h : e.isInternal = false) :
    Reports Q (throw e : Relate α) := fun _ => ends_throw (by rw [h, Bool.or_false])

theorem Reports.bind {R : β → Prop} {f : α → Relate β} (h : Reports Q m)
    (hf : ∀ a, Q a → Reports R (f a)) : Reports R (m >>= f) := by
  refine fun p => Ends.bind ((h p).imp (fun a q hq => ?_) fun _ _ h => h)
  have hnext := hf a hq.1 q
  rwa [hq.2] at hnext

theorem reports_assume (a b : Ty) : Reports (fun _ => True) (assume a b) := by
  intro p
  rw [Ends, run_assume]
  by_cases hknown : p.assumed.contains (pairDigest a b) = true
  · rw [if_pos hknown]
    exact ⟨trivial, rfl⟩
  · rw [if_neg hknown]
    exact ⟨trivial, rfl⟩

theorem reports_expand (hr : ctx.registry.Direct) (name : String) :
    Reports Ty.Direct (expand ctx name []) := by
  unfold expand
  split
  · exact reports_throw rfl
  · next d hd =>
      split
      · next t ht => exact reports_pure (hr name t (by rw [Registry.expand?, hd]; exact ht))
      · exact reports_throw rfl

theorem reports_bindVar (ctx : Context) (v : TyVar) {t : Ty} (ht : t.Direct) :
    Reports Subst.Direct (bindVar ctx v t) := by
  unfold bindVar
  split
  · split
    · exact reports_pure Subst.direct_empty
    · exact reports_pure (Subst.direct_single v ht)
  · split
    · exact reports_throw rfl
    · exact reports_pure (Subst.direct_single v ht)

theorem reports_extendRow (ctx : Context) (hs : s.Direct) (row : TyVar)
    {fields : List (String × Ty)} (hfields : ∀ f ∈ fields, f.2.Direct) (behind : Option TyVar) :
    Reports Subst.Direct (extendRow ctx s row fields behind) :=
  (reports_bindVar ctx row (.record behind hfields)).bind fun _ hbound =>
    reports_pure (hbound.after hs)

theorem direct_pick {r : RecordTy} (hr : r.toTy.Direct) (hs : s.Direct) (names : List String) :
    ∀ f ∈ r.pick s names, f.2.Direct := by
  intro f hf
  obtain ⟨name, -, hname⟩ := List.mem_filterMap.1 (Table.mem_ofList hf)
  obtain ⟨t, ht, rfl⟩ := Option.map_eq_some_iff.1 hname
  exact Subst.Direct.apply (Ty.direct_record.1 hr _ (Table.mem_of_get? ht)) hs

theorem reports_unifyRows (ctx : Context) (hs : s.Direct) {a b : RecordTy} (ha : a.toTy.Direct)
    (hb : b.toTy.Direct) (onlyA onlyB : List String) :
    Reports Subst.Direct (unifyRows ctx s a b onlyA onlyB) := by
  unfold unifyRows
  split
  · split
    · exact reports_pure hs
    · exact reports_throw rfl
  · split
    · exact reports_extendRow ctx hs _ (direct_pick hb hs _) _
    · exact reports_throw rfl
  · split
    · exact reports_extendRow ctx hs _ (direct_pick ha hs _) _
    · exact reports_throw rfl
  · split
    · split
      · exact reports_pure hs
      · exact reports_throw rfl
    · refine Reports.bind (Q := fun _ => True) (fun p => ends_fresh ⟨trivial, rfl⟩) fun _ _ => ?_
      refine (reports_extendRow ctx hs _ (direct_pick hb hs _) _).bind fun s' hs' => ?_
      exact reports_extendRow ctx hs' _ (direct_pick ha hs' _) _

variable (h : ∀ {a b : Ty}, a.Direct → b.Direct → Reports Subst.Direct (unify a b))
include h

theorem reports_thread : ∀ {pairs : List (Ty × Ty)} {s : Subst},
    (∀ e ∈ pairs, e.1.Direct ∧ e.2.Direct) → s.Direct →
    Reports Subst.Direct (thread unify pairs s)
  | [], _, _, hs => reports_pure hs
  | e :: pairs, s, hpairs, hs => by
      obtain ⟨⟨ha, hb⟩, hpairs⟩ := List.forall_mem_cons.1 hpairs
      refine (h (Subst.Direct.apply ha hs) (Subst.Direct.apply hb hs)).bind fun next hnext => ?_
      exact reports_thread hpairs (hnext.after hs)

theorem reports_unifyRecords (ctx : Context) {a b : RecordTy} (ha : a.toTy.Direct)
    (hb : b.toTy.Direct) : Reports Subst.Direct (unifyRecords ctx unify a b) := by
  have hshared : ∀ e ∈ a.sharedFields b, e.1.Direct ∧ e.2.Direct := by
    intro e he
    obtain ⟨name, -, hname⟩ := List.mem_filterMap.1 he
    obtain ⟨x, hx, hname⟩ := Option.bind_eq_some_iff.1 hname
    obtain ⟨y, hy, hname⟩ := Option.bind_eq_some_iff.1 hname
    cases hname
    exact ⟨Ty.direct_record.1 ha _ (Table.mem_of_get? hx),
      Ty.direct_record.1 hb _ (Table.mem_of_get? hy)⟩
  refine (reports_thread h hshared Subst.direct_empty).bind fun s hs => ?_
  split
  · refine (h (Subst.Direct.apply ha hs) (Subst.Direct.apply hb hs)).bind fun next hnext => ?_
    exact reports_pure (hnext.after hs)
  · exact reports_unifyRows ctx hs ha hb _ _

theorem reports_unifyExpanded (hr : ctx.registry.Direct) (ha : a.Direct) (hb : b.Direct) :
    Reports Subst.Direct (unifyExpanded ctx unify a b) := by
  unfold unifyExpanded
  split
  · cases ha with
    | named _ => exact (reports_expand hr _).bind fun _ ht => h ht hb
  · cases hb with
    | named _ => exact (reports_expand hr _).bind fun _ ht => h ha ht
  · exact h (Subst.direct_unfold ha) hb
  · exact h ha (Subst.direct_unfold hb)
  · exact h ha hb

/-- References to one name without arguments have nothing to be tried. -/
theorem reports_unifyIndirect (hr : ctx.registry.Direct) (ha : a.Direct) (hb : b.Direct) :
    Reports Subst.Direct (unifyIndirect ctx unify a b) := by
  rw [unifyIndirect_eq]
  refine (reports_assume a b).bind fun known _ => ?_
  split
  · exact reports_pure Subst.direct_empty
  · split
    · exact reports_unifyExpanded h hr ha hb
    · next pairs hpairs =>
        obtain ⟨name, as, bs, rfl, rfl, -, rfl⟩ := sameNameArgs?_eq_some hpairs
        cases ha
        exact fun p => ends_pure ⟨Subst.direct_empty, rfl⟩

theorem reports_zip {as bs : List Ty} (has : ∀ t ∈ as, t.Direct) (hbs : ∀ t ∈ bs, t.Direct) :
    Reports Subst.Direct (thread unify (as.zip bs) .empty) := by
  refine reports_thread h (fun e he => ?_) Subst.direct_empty
  exact ⟨has _ (List.of_mem_zip he).1, hbs _ (List.of_mem_zip he).2⟩

theorem reports_unifyShapes (ctx : Context) (ha : a.Direct) (hb : b.Direct) :
    Reports Subst.Direct (unifyShapes ctx unify a b) := by
  unfold unifyShapes
  split
  · cases ha
  · cases hb
  · cases hb
  · cases ha
  · cases ha
  · exact reports_pure Subst.direct_empty
  · exact reports_pure Subst.direct_empty
  · obtain ⟨hp, hr⟩ := Ty.direct_fn.1 ha
    obtain ⟨hp', hr'⟩ := Ty.direct_fn.1 hb
    exact reports_thread h (List.forall_mem_cons.2 ⟨⟨hp, hp'⟩, List.forall_mem_singleton.2 ⟨hr, hr'⟩⟩)
      Subst.direct_empty
  · split
    · exact reports_zip h (Ty.direct_tuple.1 ha) (Ty.direct_tuple.1 hb)
    · exact reports_throw rfl
  · exact reports_unifyRecords h ctx ha hb
  · exact reports_throw rfl

theorem reports_unifyStep (hr : ctx.registry.Direct) (ha : a.Direct) (hb : b.Direct) :
    Reports Subst.Direct (unifyStep ctx unify a b) := by
  unfold unifyStep
  split
  · exact reports_pure Subst.direct_empty
  · split
    · exact reports_bindVar ctx _ hb
    · exact reports_bindVar ctx _ ha
    · split
      · exact reports_unifyIndirect h hr ha hb
      · exact reports_unifyShapes h ctx ha hb

end Reports

/-- Where there is nothing to try, an exceeded limit is an internal error, and nothing else is. -/
theorem reports_unify {ctx : Context} (hr : ctx.registry.Direct) : ∀ (limit : Nat) {a b : Ty},
    a.Direct → b.Direct → Reports Subst.Direct (unify ctx limit a b)
  | 0, _, _, _, _ => fun p => ends_exceed (by rw [show (tooDeep ctx _ _).isInternal = true from rfl,
      Bool.or_true])
  | limit + 1, _, _, ha, hb => reports_unifyStep (reports_unify hr limit) hr ha hb

end Relate

namespace Session

open Relate

variable {limit limit' : Nat} {span : Span} {a b : Ty} {σ : Session}

/-- How relating two types in a session goes, apart from what the session did before. -/
theorem run_unify (limit : Nat) (span : Span) (a b : Ty) (σ : Session) :
    let out := (Relate.unify ⟨σ.registry, span⟩ limit a b).run { supply := σ.supply }
    (unify limit span a b).run σ = (out.1, σ.afterRelating out.2) := rfl

/-- A run that does not exceed the limit, nor in what was tried and given up, is the same under
every higher limit.  Where there is nothing to try, the limit is exceeded if and only if the run
ends with an internal error, so what ends in another way is the same under every higher limit. -/
theorem unify_of_limit_le (hle : limit ≤ limit') (span : Span) (a b : Ty) (σ : Session) :
    (((unify limit span a b).run { σ with exceeded := false }).2.exceeded = false →
      (unify limit' span a b).run σ = (unify limit span a b).run σ) ∧
    (σ.registry.Direct → a.Direct → b.Direct →
      (((unify limit span a b).run { σ with exceeded := false }).2.exceeded = true ↔
        ∃ e, ((unify limit span a b).run σ).1 = .error e ∧ e.isInternal = true) ∧
      ((∀ e, ((unify limit span a b).run σ).1 = .error e → e.isInternal = false) →
        (unify limit' span a b).run σ = (unify limit span a b).run σ)) := by
  have hsame : ((unify limit span a b).run { σ with exceeded := false }).2.exceeded = false →
      (unify limit' span a b).run σ = (unify limit span a b).run σ := by
    intro hex
    have hrun := (raises_unify ⟨σ.registry, span⟩ hle a b).same { supply := σ.supply } hex
    rw [run_unify, run_unify]
    exact congrArg (fun out => (out.1, σ.afterRelating out.2)) hrun
  refine ⟨hsame, fun hr ha hb => ?_⟩
  have hiff : ((unify limit span a b).run { σ with exceeded := false }).2.exceeded = true ↔
      ∃ e, ((unify limit span a b).run σ).1 = .error e ∧ e.isInternal = true := by
    have hends : Reports Subst.Direct (Relate.unify ⟨σ.registry, span⟩ limit a b) :=
      reports_unify hr limit ha hb
    specialize hends { supply := σ.supply }
    unfold Ends at hends
    rw [run_unify, run_unify, afterRelating]
    dsimp only
    generalize (Relate.unify ⟨σ.registry, span⟩ limit a b).run { supply := σ.supply } = out at hends
    obtain ⟨s | e, q⟩ := out
    all_goals simp_all
  refine ⟨hiff, fun hno => hsame (Bool.eq_false_iff.2 fun hex => ?_)⟩
  obtain ⟨e, he, hint⟩ := hiff.1 hex
  exact Bool.eq_false_iff.1 (hno e he) hint

/-- A session in which `List` is a list of numbers. -/
def withList : Session where
  supply := ⟨2⟩
  registry :=
    { definitions :=
        [("List", ⟨"List", [], .record [("head", .int), ("tail", .named "List" [])] none, {}⟩)] }

/-- A list of something. -/
def someList : Ty :=
  .mu ⟨1, 0⟩ (.record [("head", .var ⟨2, 0⟩), ("tail", .var ⟨1, 0⟩)] none)

/-- A named list and a recursive type are unified in seven steps, and a higher limit changes
nothing; below that there is an internal error. -/
theorem unify_list_of_limit_le :
    (∀ limit, 7 ≤ limit → (unify limit {} (.named "List" []) someList).run withList =
      (unify 7 {} (.named "List" []) someList).run withList) ∧
    ((unify 7 {} (.named "List" []) someList).run withList).1.isOk = true ∧
    ∃ e, ((unify 6 {} (.named "List" []) someList).run withList).1 = .error e ∧
      e.isInternal = true := by
  have hlist : ∀ name t, withList.registry.expand? name [] = some t → t.Direct := by
    intro name t ht
    obtain ⟨d, hd, ht⟩ := Option.bind_eq_some_iff.1 ht
    obtain ⟨-, rfl⟩ := Prod.mk.inj (List.mem_singleton.1 (Table.mem_of_get? hd))
    cases ht
    exact Subst.Direct.apply (.record _ (by simp [Ty.int, Ty.Direct.prim, Ty.Direct.named]))
      Subst.direct_empty
  have hsome : someList.Direct := .mu _ (.record _ (by simp [Ty.Direct.var]))
  have hok : ((unify 7 {} (.named "List" []) someList).run withList).1.isOk = true := by
    decide +kernel
  refine ⟨fun limit hle => ?_, hok, ?_⟩
  · refine ((unify_of_limit_le hle {} _ _ withList).2 hlist (.named _) hsome).2 fun e he => ?_
    rw [he] at hok
    cases hok
  · exact ((unify_of_limit_le (Nat.le_refl 6) {} _ _ withList).2 hlist (.named _) hsome).1.1
      (by decide +kernel)

end Session

end RowTypes
