import RowTypes.Proofs.Branches
import RowTypes.Solver.Solve

/-!
# Solving sets of constraints

A set of constraints that come down to equations is solved as its equations are.  The constraints
are met one by one, each under everything that was found before it, so what is found is what
solves the equations met so far, and the first constraint that cannot be met refutes them.

The order in which constraints are met, and that those which hold by their form are left out, make
no difference to the equations.
-/

namespace RowTypes

open Equations

namespace Demand

/-- The equations that a demand comes down to. -/
def equations : Demand → Equations
  | .equal a b => [(a, b)]
  | .branch result branches => branches.map fun b => (b, result)
  | _ => []

/-- The demand comes down to its equations. -/
inductive Equational (κ : Sorts) : Demand → Prop where
  | equal (a b : Ty) : Equational κ (.equal a b)
  | branch (result : Ty) (branches : List Ty) : ¬ κ.records → Equational κ (.branch result branches)

variable {κ : Sorts} {d : Demand}

theorem Equational.apply (h : d.Equational κ) (s : Subst) : (d.apply s).Equational κ := by
  cases h with
  | equal a b => exact .equal _ _
  | branch result branches hκ => exact .branch _ _ hκ

theorem equations_apply (h : d.Equational κ) (s : Subst) :
    (d.apply s).equations = Equations.apply s d.equations := by
  cases h with
  | equal a b => rfl
  | branch result branches _ =>
      rw [Demand.apply, equations, equations, Equations.apply, Subst.applyAll_eq_map, List.map_map,
        List.map_map]
      rfl

/-- A record stays a record under every substitution. -/
theorem toTy_applyRecord (s : Subst) (r : RecordTy) :
    (applyRecord s r).toTy = s.apply r.toTy := by
  obtain ⟨gs, rest, h⟩ := s.exists_record_eq_apply r.fields r.row
  have h : s.apply r.toTy = .record gs rest := h
  rw [applyRecord, h]
  rfl

/-- A substitution is applied to every type that a demand is about. -/
theorem types_apply (s : Subst) (d : Demand) : (d.apply s).types = d.types.map s.apply := by
  cases d with
  | merge result spreads explicit =>
      simp only [apply, types, List.map_cons, Subst.applyAll_eq_map, toTy_applyRecord]
  | _ => simp only [apply, types, List.map_cons, List.map_nil, Subst.applyAll_eq_map]

end Demand

namespace Constraint

theorem types_apply (s : Subst) (c : Constraint) : (c.apply s).types = c.types.map s.apply :=
  c.demand.types_apply s

/-- What some substitutions keep of types, they keep of the types of a constraint. -/
theorem forall_types_foldl_apply {P : Ty → Prop} : ∀ {found : List Subst} {c : Constraint},
    (∀ next ∈ found, ∀ t, P t → P (next.apply t)) → (∀ t ∈ c.types, P t) →
    ∀ t ∈ (found.foldl (fun c next => c.apply next) c).types, P t
  | [], _, _, hc => hc
  | next :: found, c, hfound, hc => by
      obtain ⟨hnext, hfound⟩ := List.forall_mem_cons.1 hfound
      refine forall_types_foldl_apply (c := c.apply next) hfound ?_
      rw [types_apply]
      exact List.forall_mem_map.2 fun t ht => hnext t (hc t ht)

end Constraint

/-! ## Meeting one constraint -/

namespace Session

/-- What meeting constraints leaves behind: unknowns are used up, names are as they were, and an
exceeded limit stays exceeded. -/
structure Advances (σ τ : Session) : Prop where
  count : σ.supply.count ≤ τ.supply.count
  registry : τ.registry = σ.registry
  exceeded : σ.exceeded = true → τ.exceeded = true

theorem Advances.refl (σ : Session) : σ.Advances σ := ⟨Nat.le_refl _, rfl, id⟩

theorem Advances.trans {σ τ υ : Session} (h : σ.Advances τ) (h' : τ.Advances υ) : σ.Advances υ :=
  ⟨Nat.le_trans h.count h'.count, h'.registry.trans h.registry,
    fun hσ => h'.exceeded (h.exceeded hσ)⟩

/-- Which complaints are excused by an exceeded limit: any where there are no records, and only
that it is exceeded where there are. -/
def Excuses (κ : Sorts) (e : Diagnostic) : Prop := κ.records → e.isInternal = true

/-- A result answers equations, in a session that went on. -/
def Answered (κ : Sorts) (n : Nat) (σ : Session) (E : Equations) :
    Except Diagnostic Subst × Session → Prop
  | (.ok s, τ) => σ.Advances τ ∧ Solves κ n τ.supply.count E s
  | (.error e, τ) => σ.Advances τ ∧ Refutes E (τ.exceeded = true ∧ Excuses κ e)

variable {κ : Sorts} {n : Nat} {σ : Session} {E : Equations}

theorem answered_relating {excuse : Diagnostic → Prop} {span : Span} {m : Context → Relate Subst}
    (h : ∀ ctx, RowTypes.Answers κ excuse n { supply := σ.supply } E (m ctx))
    (hexcuse : ∀ e, excuse e → Excuses κ e) : Answered κ n σ E ((relating span m).run σ) := by
  have hm := h { registry := σ.registry, span }
  unfold RowTypes.Answers Ends at hm
  rw [run_relating m _ rfl]
  generalize (m { registry := σ.registry, span }).run { supply := σ.supply } = out at hm ⊢
  obtain ⟨result, q⟩ := out
  have hadvances : RowTypes.Advances { supply := σ.supply } q → σ.Advances (σ.afterRelating q) :=
    fun hadv => ⟨hadv.count, rfl, fun hσ => by rw [afterRelating, hσ]; rfl⟩
  cases result with
  | ok s => exact ⟨hadvances hm.1, hm.2⟩
  | error e =>
      refine ⟨hadvances hm.1, fun θ hr hu => ?_⟩
      obtain ⟨hq, he⟩ := hm.2 θ hr hu
      exact ⟨exceeded_afterRelating hq, hexcuse e he⟩

/-- A demand that holds by its form is solved by nothing. -/
theorem unifies_of_trivial {c : Constraint} {θ : Valuation} (hc : c.demand.Equational κ)
    (hcore : ∀ t ∈ sides c.demand.equations, t.Core κ) (h : c.isTrivial = true) :
    θ.Unifies c.demand.equations := by
  obtain ⟨d, origin, span⟩ := c
  cases hc with
  | equal a b =>
      have ha : a.Core κ := hcore a (by simp [Demand.equations, sides])
      have hb : b.Core κ := hcore b (by simp [Demand.equations, sides])
      exact unifies_pair.2 (Valuation.form_eq_of_equiv ha hb h)
  | branch result branches _ => cases h

/-- Meeting a constraint answers its equations. -/
theorem answered_discharge (limit : Nat) {c : Constraint} (hc : c.demand.Equational κ)
    (hE : Posed κ σ.supply.count c.demand.equations) :
    Answered κ σ.supply.count σ c.demand.equations ((discharge limit c).run σ) := by
  unfold discharge
  split
  · next htrivial =>
      exact ⟨.refl σ, solves_empty _ fun θ => unifies_of_trivial hc hE.core htrivial⟩
  · obtain ⟨d, origin, span⟩ := c
    cases hc with
    | equal a b =>
        exact answered_relating (fun ctx => Relate.decides_unify ctx κ limit _ a b hE)
          fun e he _ => he
    | branch result branches hκ =>
        exact answered_relating (fun ctx => Relate.answers_branch ctx hκ limit hE)
          fun e _ hrec => absurd hrec hκ

/-! ## Meeting all of them -/

/-- The equations that constraints come down to. -/
def equationsOf (cs : List Constraint) : Equations := cs.flatMap fun c => c.demand.equations

/-- What each constraint added, one after the other, is what was found. -/
def Composes (κ : Sorts) (found : List Subst) (s : Subst) : Prop :=
  ∀ t : Ty, t.Core κ → found.foldl (fun t next => next.apply t) t = s.apply t

/-- The equations of a constraint after what each of the earlier ones added. -/
theorem equations_foldl (found : List Subst) : ∀ {c : Constraint}, c.demand.Equational κ →
    (found.foldl (fun c next => c.apply next) c).demand.Equational κ ∧
    (found.foldl (fun c next => c.apply next) c).demand.equations =
      c.demand.equations.map fun e =>
        (found.foldl (fun t next => next.apply t) e.1,
          found.foldl (fun t next => next.apply t) e.2) := by
  induction found with
  | nil => exact fun hc => ⟨hc, (List.map_id _).symm⟩
  | cons next found ih =>
      intro c hc
      obtain ⟨hc', heq⟩ := ih (c := c.apply next) (hc.apply next)
      refine ⟨hc', heq.trans ?_⟩
      rw [Constraint.apply, Demand.equations_apply hc, Equations.apply, List.map_map]
      rfl

/-- A constraint is met as its equations are under what was found. -/
theorem equations_met {found : List Subst} {s : Subst} {c : Constraint} (hs : s.Solved κ)
    (hfound : Composes κ found s) (hc : c.demand.Equational κ)
    (hcore : ∀ t ∈ sides c.demand.equations, t.Core κ) :
    ((found.foldl (fun c next => c.apply next) c).apply s).demand.equations =
      Equations.apply s c.demand.equations := by
  obtain ⟨hc', heq⟩ := equations_foldl found hc
  rw [Constraint.apply, Demand.equations_apply hc', heq, Equations.apply, List.map_map]
  refine List.map_congr_left fun e he => ?_
  have h₁ := hcore e.1 (mem_sides.2 ⟨e, he, .inl rfl⟩)
  have h₂ := hcore e.2 (mem_sides.2 ⟨e, he, .inr rfl⟩)
  simp only [Function.comp_apply]
  rw [hfound _ h₁, hfound _ h₂, hs.apply_apply h₁, hs.apply_apply h₂]

/-- A solution answers equations, in a session that went on. -/
def Settled (κ : Sorts) (n : Nat) (σ : Session) (E : Equations) (out : Solution × Session) : Prop :=
  σ.Advances out.2 ∧
    match out.1.failure with
    | none => Solves κ n out.2.supply.count E out.1.subst
    | some e => Refutes E (out.2.exceeded = true ∧ Excuses κ e)

theorem Settled.since {τ : Session} {out : Solution × Session} (hadv : σ.Advances τ)
    (h : Settled κ n τ E out) : Settled κ n σ E out := ⟨hadv.trans h.1, h.2⟩

theorem Settled.of_amounts {F : Equations} {out : Solution × Session}
    (h : Settled κ n σ F out) (hEF : Amounts κ n n E F) (hn : n ≤ σ.supply.count) :
    Settled κ n σ E out := by
  obtain ⟨hadv, hout⟩ := h
  refine ⟨hadv, ?_⟩
  split at hout
  · exact hout.of_amounts hEF (Nat.le_refl _) (Nat.le_trans hn hadv.count)
  · exact hout.of_amounts hEF

/-- What happens with a constraint, seen from the session. -/
theorem run_solveInOrder (limit : Nat) (c : Constraint) (cs : List Constraint)
    (found : List Subst) (s : Subst) (σ : Session) :
    (solveInOrder limit (c :: cs) found s).run σ =
      match (discharge limit ((found.foldl (fun c next => c.apply next) c).apply s)).run σ with
      | (.error e, τ) => ({ subst := s, failure := some e }, τ)
      | (.ok next, τ) =>
        if next.isEmpty then (solveInOrder limit cs found s).run τ
        else (solveInOrder limit cs (found ++ [next]) (next.after s)).run τ := by
  rw [solveInOrder, StateT.run_bind]
  generalize hout : (discharge limit
    ((found.foldl (fun c next => c.apply next) c).apply s)).run.run σ = out
  have hout' : (discharge limit
    ((found.foldl (fun c next => c.apply next) c).apply s)).run σ = out := hout
  rw [hout']
  obtain ⟨r, τ⟩ := out
  cases r with
  | error e => rfl
  | ok next => exact apply_ite (fun m : StateM Session Solution => m.run τ) _ _ _

/-- Meeting constraints in order answers their equations. -/
theorem settled_solveInOrder (limit : Nat) :
    ∀ {cs : List Constraint} {found : List Subst} {s : Subst} {σ : Session} {E : Equations},
      Solves κ n σ.supply.count E s → Posed κ n (E ++ equationsOf cs) → n ≤ σ.supply.count →
      (∀ c ∈ cs, c.demand.Equational κ) → Composes κ found s →
      Settled κ n σ (E ++ equationsOf cs) ((solveInOrder limit cs found s).run σ)
  | [], found, s, σ, E, hs, _, _, _, _ => by
      rw [equationsOf, List.flatMap_nil, List.append_nil]
      exact ⟨.refl σ, hs⟩
  | c :: cs, found, s, σ, E, hs, hE, hn, hcs, hfound => by
      have happend : E ++ equationsOf (c :: cs) = (E ++ c.demand.equations) ++ equationsOf cs := by
        rw [List.append_assoc]
        rfl
      rw [happend] at hE ⊢
      have hc := hcs c List.mem_cons_self
      have hmet := equations_met hs.solved hfound hc hE.left.right.core
      have hposed := hs.posed hE.left hn
      rw [← hmet] at hposed
      have hc' := (equations_foldl found hc).1.apply s
      have hrun := answered_discharge limit hc' hposed
      rw [run_solveInOrder]
      generalize (discharge limit ((found.foldl (fun c next => c.apply next) c).apply s)).run σ =
        out at hrun ⊢
      obtain ⟨r, τ⟩ := out
      cases r with
      | error e =>
          obtain ⟨hadv, href⟩ := hrun
          refine ⟨hadv, fun θ hr hu => ?_⟩
          rw [hmet] at href
          exact hs.refutes hE.left href θ (Valuation.respectsAll_append.1 hr).1
            (Valuation.unifies_append.1 hu).1
      | ok next =>
          obtain ⟨hadv, hnext⟩ := hrun
          rw [hmet] at hnext
          have hs' := hs.append hE.left hn hadv.count hnext
          have hapart := hs.apart hE.left hn hnext
          have hcs' := fun c hc => hcs c (List.mem_cons_of_mem _ hc)
          have hn' := Nat.le_trans hn hadv.count
          dsimp only
          split
          · next hempty =>
              -- Nothing was added, so what was found stays as it is.
              have hget : ∀ id, (next.after s).get? id = s.get? id := by
                intro id
                rw [Subst.get?_after_apart hs.solved hnext.solved hapart]
                cases s.get? id with
                | none => exact Subst.get?_of_isEmpty hempty id
                | some t => exact congrArg some (Subst.apply_of_isEmpty hempty t)
              exact (settled_solveInOrder limit (hs'.congr hs.solved.ordered hget) hE hn' hcs'
                hfound).since hadv
          · refine (settled_solveInOrder limit hs' hE hn' hcs' fun t ht => ?_).since hadv
            rw [List.foldl_append, hfound t ht, Subst.apply_after hs.solved hnext.solved hapart ht]
            rfl

/-! ## Sets -/

end Session

namespace ConstraintSet

theorem items_add {s : ConstraintSet} {c : Constraint} (h : s.contains c = false) :
    (s.add c).items = s.items ++ [c] := by
  rw [add, dif_neg (by rw [h]; simp)]

theorem items_foldl_add : ∀ {cs : List Constraint} {s : ConstraintSet},
    ((s.items ++ cs).map Constraint.digest).Nodup → (cs.foldl add s).items = s.items ++ cs
  | [], s, _ => (List.append_nil _).symm
  | c :: cs, s, h => by
      have happend : s.items ++ c :: cs = (s.items ++ [c]) ++ cs := by simp
      have hnew : s.contains c = false := by
        rw [List.map_append, List.map_cons, List.nodup_append] at h
        refine Bool.eq_false_iff.2 fun hmem => ?_
        rw [contains, s.seen_eq] at hmem
        exact h.2.2 _ (List.contains_iff_mem.1 hmem) _ List.mem_cons_self rfl
      rw [List.foldl_cons, items_foldl_add (by rwa [items_add hnew, ← happend]), items_add hnew,
        ← happend]

/-- Leaving constraints out keeps the others as they are. -/
theorem items_filter (s : ConstraintSet) (keep : Constraint → Bool) :
    (s.filter keep).items = s.items.filter keep := by
  have hnodup := s.nodup
  rw [s.seen_eq] at hnodup
  exact items_foldl_add (s := empty) (hnodup.sublist (List.filter_sublist.map Constraint.digest))

/-- The constraints that are met are those that do not hold by their form. -/
theorem mem_sorted_simplify {s : ConstraintSet} {c : Constraint} :
    c ∈ s.simplify.sorted ↔ c ∈ s.items ∧ c.isTrivial = false := by
  rw [sorted, List.mem_mergeSort, simplify, items_filter, List.mem_filter, Bool.not_eq_true']

end ConstraintSet

namespace Session

theorem mem_equationsOf {cs : List Constraint} {e : Ty × Ty} :
    e ∈ equationsOf cs ↔ ∃ c ∈ cs, e ∈ c.demand.equations := List.mem_flatMap

variable {cs : ConstraintSet}

theorem mem_sides_sorted {t : Ty} (h : t ∈ sides (equationsOf cs.simplify.sorted)) :
    t ∈ sides (equationsOf cs.items) := by
  obtain ⟨e, he, ht⟩ := mem_sides.1 h
  obtain ⟨c, hc, he⟩ := mem_equationsOf.1 he
  exact mem_sides.2
    ⟨e, mem_equationsOf.2 ⟨c, (ConstraintSet.mem_sorted_simplify.1 hc).1, he⟩, ht⟩

/-- What is met comes down to what the set does. -/
theorem amounts_sorted (n : Nat) (hcs : ∀ c ∈ cs.items, c.demand.Equational κ)
    (hcore : ∀ t ∈ sides (equationsOf cs.items), t.Core κ) :
    Amounts κ n n (equationsOf cs.items) (equationsOf cs.simplify.sorted) := by
  refine amounts_of_sides n (fun t => mem_sides_sorted) fun θ =>
    ⟨fun h e he => ?_, fun h e he => ?_⟩
  · obtain ⟨c, hc, he⟩ := mem_equationsOf.1 he
    cases htrivial : c.isTrivial with
    | false =>
        exact h e (mem_equationsOf.2
          ⟨c, ConstraintSet.mem_sorted_simplify.2 ⟨hc, htrivial⟩, he⟩)
    | true =>
        refine unifies_of_trivial (hcs c hc) (fun t ht => hcore t ?_) htrivial e he
        obtain ⟨e', he', ht⟩ := mem_sides.1 ht
        exact mem_sides.2 ⟨e', mem_equationsOf.2 ⟨c, hc, he'⟩, ht⟩
  · obtain ⟨c, hc, he⟩ := mem_equationsOf.1 he
    exact h e (mem_equationsOf.2 ⟨c, (ConstraintSet.mem_sorted_simplify.1 hc).1, he⟩)

/-- Solving a set answers its equations. -/
theorem settled_solve (limit : Nat) (hcs : ∀ c ∈ cs.items, c.demand.Equational κ)
    (hE : Posed κ σ.supply.count (equationsOf cs.items)) :
    Settled κ σ.supply.count σ (equationsOf cs.items) ((solve limit cs).run σ) := by
  have hempty : Composes κ [] .empty := fun t _ => (Subst.apply_of_isEmpty rfl t).symm
  have hsorted := settled_solveInOrder (E := []) limit (solves_nil κ σ.supply.count)
    (hE.sub fun t => mem_sides_sorted) (Nat.le_refl _)
    (fun c hc => hcs c (ConstraintSet.mem_sorted_simplify.1 hc).1) hempty
  exact hsorted.of_amounts (amounts_sorted σ.supply.count hcs hE.core) (Nat.le_refl _)

end Session

end RowTypes
