import RowTypes.Proofs.Propagation
import RowTypes.Proofs.Scrutinees

/-!
# What solving makes of equalities

Solving a set makes the two sides of each of its equalities related: what it finds in the end is an
extension of what it found when it met the equality, and unifying the sides made them related under
every extension of that.

Equalities, and demands that a type is a record, are met before all others.  So whether they can be
met does not depend on what else is in the set, and nothing else needs to be known of it.
-/

namespace RowTypes

open Ty

namespace ConstraintSet

variable {cs cs' : ConstraintSet} {c : Constraint} {isRow : Int → Prop} {n : Nat}

/-! ## What is met first -/

/-- The constraints that are met first, the equalities among them. -/
def foremost (cs : ConstraintSet) : ConstraintSet := cs.ofPriority DemandKind.equality.priority

theorem priority_le (c : Constraint) : c.priority ≤ DemandKind.equality.priority := by
  unfold Constraint.priority
  cases c.kind <;> decide

theorem items_foremost (cs : ConstraintSet) : cs.foremost.items =
    cs.items.filter fun c => c.priority == DemandKind.equality.priority := items_filter cs _

theorem mem_foremost : c ∈ cs.foremost.items ↔
    c ∈ cs.items ∧ c.priority = DemandKind.equality.priority := by
  rw [items_foremost, List.mem_filter, beq_iff_eq]

theorem perm_foremost (h : cs'.items.Perm cs.items) :
    cs'.foremost.items.Perm cs.foremost.items := by
  rw [items_foremost, items_foremost]
  exact h.filter _

theorem pairwise_sorted (cs : ConstraintSet) :
    cs.sorted.Pairwise fun a b => b.priority ≤ a.priority := by
  have h : cs.sorted.Pairwise fun a b => decide (b.priority ≤ a.priority) = true := by
    refine List.pairwise_mergeSort (fun a b c hab hbc => ?_) (fun a b => ?_) cs.items
    · simp only [decide_eq_true_eq] at hab hbc ⊢
      omega
    · simp only [Bool.or_eq_true, decide_eq_true_eq]
      omega
  exact h.imp of_decide_eq_true

/-- In a list by falling priority, those of the highest one come first. -/
theorem eq_filter_append {k : Int} : ∀ {l : List Constraint},
    l.Pairwise (fun a b => b.priority ≤ a.priority) → (∀ c ∈ l, c.priority ≤ k) →
    l = (l.filter fun c => c.priority == k) ++ l.filter fun c => c.priority != k
  | [], _, _ => rfl
  | c :: l, hl, hk => by
      obtain ⟨hc, hl⟩ := List.pairwise_cons.1 hl
      obtain ⟨hck, hlk⟩ := List.forall_mem_cons.1 hk
      by_cases h : c.priority = k
      · rw [List.filter_cons_of_pos (by simpa using h), List.filter_cons_of_neg (by simpa using h),
          List.cons_append, ← eq_filter_append hl hlk]
      · -- What comes after it has no higher priority, so it is not among the first either.
        have hnone : l.filter (fun c => c.priority == k) = [] := by
          refine List.filter_eq_nil_iff.2 fun d hd => ?_
          have := hc d hd
          simp only [beq_iff_eq]
          omega
        rw [List.filter_cons_of_neg (by simpa using h), List.filter_cons_of_pos (by simpa using h),
          hnone, List.nil_append, List.filter_eq_self.2 fun d hd => ?_]
        have := hc d hd
        simp only [bne_iff_ne, ne_eq]
        omega

/-- Sorting keeps the constraints of one priority in their order. -/
theorem filter_sorted (cs : ConstraintSet) (k : Int) :
    cs.sorted.filter (fun c => c.priority == k) = cs.items.filter fun c => c.priority == k := by
  have hsub : (cs.items.filter fun c => c.priority == k).Sublist cs.sorted := by
    refine List.sublist_mergeSort (fun a b c hab hbc => ?_) (fun a b => ?_) ?_ List.filter_sublist
    · simp only [decide_eq_true_eq] at hab hbc ⊢
      omega
    · simp only [Bool.or_eq_true, decide_eq_true_eq]
      omega
    · refine List.pairwise_iff_forall_sublist.2 fun {a b} h => ?_
      have hpriority : ∀ c ∈ [a, b], c.priority = k := fun c hc =>
        beq_iff_eq.1 (List.mem_filter.1 (h.subset hc)).2
      have ha := hpriority a List.mem_cons_self
      have hb := hpriority b (List.mem_cons_of_mem _ List.mem_cons_self)
      exact decide_eq_true (by omega)
  have hfilter := hsub.filter fun c => c.priority == k
  rw [List.filter_filter] at hfilter
  simp only [Bool.and_self] at hfilter
  exact (hfilter.eq_of_length ((List.mergeSort_perm cs.items _).filter _).length_eq.symm).symm

/-- What is met first is met as if there were nothing else. -/
theorem exists_sorted_eq_append (cs : ConstraintSet) :
    ∃ rest, cs.simplify.sorted = cs.foremost.simplify.sorted ++ rest := by
  have hfirst : ∀ c ∈ cs.foremost.simplify.items, c.priority = DemandKind.equality.priority := by
    intro c hc
    rw [simplify, items_filter] at hc
    exact (mem_foremost.1 (List.mem_of_mem_filter hc)).2
  have hforemost : cs.foremost.simplify.sorted = cs.foremost.simplify.items := by
    have h := filter_sorted cs.foremost.simplify DemandKind.equality.priority
    rwa [List.filter_eq_self.2 fun c hc => ?_, List.filter_eq_self.2 fun c hc => ?_] at h
    · exact beq_iff_eq.2 (hfirst c hc)
    · exact beq_iff_eq.2 (hfirst c (List.mem_mergeSort.1 hc))
  refine ⟨_, (eq_filter_append cs.simplify.pairwise_sorted fun c _ => priority_le c).trans
    (congrArg (· ++ _) ?_)⟩
  rw [filter_sorted, hforemost, simplify, simplify, items_filter, items_filter, items_foremost,
    List.filter_filter, List.filter_filter]
  exact List.filter_congr fun c _ => Bool.and_comm _ _

end ConstraintSet

namespace Session

variable {limit : Nat} {σ : Session}

/-- If all of some constraints can be met, so can the first ones. -/
theorem failure_of_append {cs ds : List Constraint} : ∀ {found : List Subst} {s : Subst} {σ : Session},
    ((solveInOrder limit (cs ++ ds) found s).run σ).1.failure = none →
      ((solveInOrder limit cs found s).run σ).1.failure = none := by
  induction cs with
  | nil => exact fun _ => rfl
  | cons c cs ih =>
      intro found s σ h
      rw [List.cons_append, run_solveInOrder] at h
      rw [run_solveInOrder]
      generalize (discharge limit ((found.foldl (fun c next => c.apply next) c).apply s)).run σ =
        out at h ⊢
      obtain ⟨result, τ⟩ := out
      cases result with
      | error e => exact h
      | ok next =>
          dsimp only at h ⊢
          split
          · next hempty => exact ih (by rwa [if_pos hempty] at h)
          · next hempty => exact ih (by rwa [if_neg hempty] at h)

theorem failure_foremost {cs : ConstraintSet} (h : ((solve limit cs).run σ).1.failure = none) :
    ((solve limit cs.foremost).run σ).1.failure = none := by
  obtain ⟨rest, hrest⟩ := cs.exists_sorted_eq_append
  rw [solve, hrest] at h
  exact failure_of_append h

end Session

/-! ## What was found, seen from the end -/

/-- A substitution completes another one: it extends it, and what that binds anything to is firm
under it. -/
structure Subst.Completes (row : Int → Prop) (S s : Subst) : Prop where
  structural : s.Structural row
  extension : S.Extends s
  firm : s.Firm S

namespace Subst.Completes

variable {row Q Q' : Int → Prop} {S s next : Subst} {t : Ty}

/-- A type that what was found is applied to comes to the same in the end. -/
theorem apply (h : S.Completes row s) (hS : S.Structural row) (ht : t.Structural row)
    (hfirm : t.Firm S) : (s.apply t).Structural row ∧ (s.apply t).Firm S ∧
      (S.apply (s.apply t)).form = (S.apply t).form :=
  ⟨ht.apply h.structural, hfirm.apply hS h.structural h.extension h.firm ht,
    h.extension.form_apply_apply hS h.structural ht⟩

theorem foldl_apply (hS : S.Structural row) : ∀ {found : List Subst} {t : Ty},
    (∀ u ∈ found, S.Completes row u) → t.Structural row → t.Firm S →
    (found.foldl (fun t next => next.apply t) t).Structural row ∧
      (found.foldl (fun t next => next.apply t) t).Firm S ∧
      (S.apply (found.foldl (fun t next => next.apply t) t)).form = (S.apply t).form
  | [], _, _, ht, hfirm => ⟨ht, hfirm, rfl⟩
  | u :: found, t, hfound, ht, hfirm => by
      obtain ⟨hu, hfound⟩ := List.forall_mem_cons.1 hfound
      obtain ⟨ht', hfirm', hform⟩ := hu.apply hS ht hfirm
      obtain ⟨h₁, h₂, h₃⟩ := foldl_apply hS hfound ht' hfirm'
      exact ⟨h₁, h₂, h₃.trans hform⟩

end Subst.Completes

/-! ## Meeting constraints -/

namespace Relate

theorem firm_recordShape (ctx : Context) (t : Ty) (p : Progress) (S : Subst) :
    Ends (recordShape ctx t) p (fun s _ => s.Firm S) fun _ _ => True := by
  unfold recordShape
  refine ends_bind_of_forall fun u q => ?_
  split
  · exact ends_pure fun _ _ h => by simp at h
  · refine Ends.bind (ends_fresh ?_)
    refine ends_bindsTo.imp (fun s _ hbinds id u hu => ?_) fun _ _ h => h
    rw [(get?_bound hbinds hu).2]
    exact .record _ (List.forall_mem_nil _)
  · exact ends_throw trivial

end Relate

namespace Session

variable {row P : Int → Prop} {n limit : Nat} {σ τ : Session} {c : Constraint}
  {cs : List Constraint} {found : List Subst} {S s next : Subst} {a b : Ty}

/-- Meeting a constraint makes the sides of an equality related. -/
theorem met_discharge (st : (structuralTypes row).Started P n) (hn : n ≤ σ.supply.count)
    (hc : (structuralTypes row).Poses (Known P n σ.supply.count) c)
    (hpriority : c.priority = DemandKind.equality.priority)
    (hrun : (discharge limit c).run σ = (.ok next, τ)) (hS : S.Structural row)
    (hext : S.Extends next) (hfirm : ∀ a b, c.demand = .equal a b → a.Firm S ∧ b.Firm S) :
    next.Firm S ∧ ∀ a b, c.demand = .equal a b → Relate.RelatedUnder a b S := by
  obtain ⟨d, origin, span⟩ := c
  have hempty : Subst.empty.Firm S := fun _ _ h => by simp at h
  unfold discharge at hrun
  split at hrun
  · next htrivial =>
      cases hrun
      refine ⟨hempty, ?_⟩
      rintro a b rfl
      have ha := (hc a (by simp [Constraint.types, Demand.types])).ok
      have hb := (hc b (by simp [Constraint.types, Demand.types])).ok
      exact .of_form (ha.apply hS).tame (hb.apply hS).tame
        (form_apply_congr hS ha hb (form_congr ha.tame hb.tame htrivial))
  · cases d with
    | equal a b =>
        obtain ⟨q, hrun, -⟩ := exists_of_relating hrun
        have hsound : Relate.Sound row (Relate.unify ⟨σ.registry, span⟩ limit) :=
          Relate.sound_unify limit
        have hends := (hsound (p := { supply := σ.supply }) st hn
          (hc a (by simp [Constraint.types, Demand.types]))
          (hc b (by simp [Constraint.types, Demand.types]))).ends hn trivial
        obtain ⟨-, -, hfinds⟩ := hends.of_run hrun
        obtain ⟨hnext, hrelated⟩ := hfinds.leads.holds hS hext hempty (hfirm a b rfl)
        refine ⟨hnext, ?_⟩
        rintro _ _ ⟨⟩
        exact hrelated
    | recordShape t =>
        obtain ⟨q, hrun, -⟩ := exists_of_relating hrun
        exact ⟨(Relate.firm_recordShape _ t _ S).of_run hrun, fun _ _ h => by cases h⟩
    | _ => cases hpriority

/-! ## Meeting them in order -/

theorem kind_apply (c : Constraint) (s : Subst) : (c.apply s).kind = c.kind := by
  unfold Constraint.kind Constraint.apply
  cases c.demand <;> rfl

theorem kind_met : ∀ {found : List Subst} {c : Constraint},
    ((found.foldl (fun c next => c.apply next) c).apply s).kind = c.kind
  | [], c => kind_apply c s
  | u :: _, c => (kind_met (c := c.apply u)).trans (kind_apply c u)

theorem demand_met : ∀ {found : List Subst} {c : Constraint} {a b : Ty}, c.demand = .equal a b →
    ((found.foldl (fun c next => c.apply next) c).apply s).demand =
      .equal (s.apply (found.foldl (fun t next => next.apply t) a))
        (s.apply (found.foldl (fun t next => next.apply t) b))
  | [], c, a, b, h => by
      rw [List.foldl_nil, Constraint.apply, h]
      rfl
  | u :: found, c, a, b, h =>
      demand_met (c := c.apply u) (a := u.apply a) (b := u.apply b) (by rw [Constraint.apply, h]; rfl)

/-- The sides of an equality are related in the end once it was met. -/
theorem related_next (st : (structuralTypes row).Started P n)
    (h : (structuralTypes row).Underway P n σ (c :: cs) found s)
    (hpriority : c.priority = DemandKind.equality.priority)
    (hrun : (discharge limit ((found.foldl (fun c next => c.apply next) c).apply s)).run σ =
      (.ok next, τ)) (hS : S.Structural row) (hext : S.Extends next)
    (hfirm : ∀ a b, c.demand = .equal a b → a.Firm S ∧ b.Firm S)
    (hfound : ∀ u ∈ found, S.Completes row u) (hs : S.Completes row s) :
    next.Firm S ∧ ∀ a b, c.demand = .equal a b → Relate.RelatedUnder a b S := by
  -- What a side has become by then comes to the same in the end.
  have hside : ∀ {t : Ty}, t ∈ c.types → t.Firm S →
      (s.apply (found.foldl (fun t next => next.apply t) t)).Structural row ∧
      (s.apply (found.foldl (fun t next => next.apply t) t)).Firm S ∧
      (S.apply (s.apply (found.foldl (fun t next => next.apply t) t))).form = (S.apply t).form := by
    intro t ht htfirm
    obtain ⟨h₁, h₂, h₃⟩ := Subst.Completes.foldl_apply hS hfound
      (h.poses c List.mem_cons_self t ht).ok htfirm
    obtain ⟨h₄, h₅, h₆⟩ := hs.apply hS h₁ h₂
    exact ⟨h₄, h₅, h₆.trans h₃⟩
  have hsides : ∀ a b, c.demand = .equal a b → a ∈ c.types ∧ b ∈ c.types := by
    intro a b hab
    rw [Constraint.types, hab]
    simp [Demand.types]
  have hmet := met_discharge (c := (found.foldl (fun c next => c.apply next) c).apply s)
    (Grammar.Started.resume (p := { supply := σ.supply }) (s := s) st h.count) (Nat.le_refl _)
    (h.poses_met.mono fun _ => .inl)
    (by rw [Constraint.priority, kind_met]; exact hpriority) hrun hS hext fun a b hab => ?_
  · refine ⟨hmet.1, fun a b hab => ?_⟩
    obtain ⟨ha, hb⟩ := hsides a b hab
    obtain ⟨hfa, hfb⟩ := hfirm a b hab
    obtain ⟨ha', -, hforma⟩ := hside ha hfa
    obtain ⟨hb', -, hformb⟩ := hside hb hfb
    have hposes := h.poses c List.mem_cons_self
    exact Related.congr (hmet.2 _ _ (demand_met hab)) (ha'.apply hS).tame (hb'.apply hS).tame
      ((hposes a ha).ok.apply hS).tame ((hposes b hb).ok.apply hS).tame hforma hformb
  · obtain ⟨a', b', hab'⟩ : ∃ a' b', c.demand = .equal a' b' := by
      have hkind : c.kind = .equality := by
        rw [← @kind_met s found c, Constraint.kind, hab]
        rfl
      unfold Constraint.kind at hkind
      cases hd : c.demand with
      | equal a b => exact ⟨a, b, rfl⟩
      | _ =>
          rw [hd] at hkind
          cases hkind
    cases hab.symm.trans (demand_met hab')
    obtain ⟨ha, hb⟩ := hsides a' b' hab'
    obtain ⟨hfa, hfb⟩ := hfirm a' b' hab'
    exact ⟨(hside ha hfa).2.1, (hside hb hfb).2.1⟩

/-- Seen from an extension of what is found in the end, what was found before is extended as well,
and where all constraints are met, the sides of each equality among them are related. -/
theorem related_solveInOrder (limit : Nat) (st : (structuralTypes row).Started P n)
    (hS : S.Structural row) : ∀ {cs : List Constraint} {found : List Subst} {s : Subst}
    {σ : Session}, (structuralTypes row).Underway P n σ cs found s →
    (∀ c ∈ cs, c.priority = DemandKind.equality.priority) →
    S.Extends ((solveInOrder limit cs found s).run σ).1.subst →
    S.Extends s ∧ (((solveInOrder limit cs found s).run σ).1.failure = none →
      (∀ c ∈ cs, ∀ a b, c.demand = .equal a b → a.Firm S ∧ b.Firm S) →
      (∀ u ∈ found, S.Completes row u) → s.Firm S →
      ∀ c ∈ cs, ∀ a b, c.demand = .equal a b → Relate.RelatedUnder a b S)
  | [], _, _, _, _, _, hext => ⟨hext, fun _ _ _ _ => List.forall_mem_nil _⟩
  | c :: cs, found, s, σ, h, hpriority, hext => by
      obtain ⟨hc, hcs⟩ := List.forall_mem_cons.1 hpriority
      rw [run_solveInOrder] at hext ⊢
      generalize hrun : (discharge limit
        ((found.foldl (fun c next => c.apply next) c).apply s)).run σ = out at hext ⊢
      obtain ⟨result, τ⟩ := out
      cases result with
      | error e => exact ⟨hext, fun hok => by cases hok⟩
      | ok next =>
          have hgoes := (h.goes limit st).of_run hrun
          dsimp only at hext ⊢
          by_cases hempty : next.isEmpty = true
          · rw [if_pos hempty] at hext ⊢
            obtain ⟨hs, hrest⟩ := related_solveInOrder limit st hS hgoes.kept hcs hext
            refine ⟨hs, fun hok hfirm hfound hsfirm => List.forall_mem_cons.2 ?_⟩
            obtain ⟨hfirmc, hfirmcs⟩ := List.forall_mem_cons.1 hfirm
            have hnext : S.Extends next := fun id u hu => by
              rw [Subst.get?_of_isEmpty hempty] at hu
              cases hu
            exact ⟨(related_next st h hc hrun hS hnext hfirmc hfound
              ⟨h.solved.structural, hs, hsfirm⟩).2, hrest hok hfirmcs hfound hsfirm⟩
          · rw [if_neg hempty] at hext ⊢
            obtain ⟨hafter, hrest⟩ := related_solveInOrder limit st hS hgoes.grown hcs hext
            obtain ⟨hnext, hs⟩ := Subst.Extends.of_after hS h.solved hgoes.solved hgoes.apart hafter
            refine ⟨hs, fun hok hfirm hfound hsfirm => List.forall_mem_cons.2 ?_⟩
            obtain ⟨hfirmc, hfirmcs⟩ := List.forall_mem_cons.1 hfirm
            have hscomplete : S.Completes row s := ⟨h.solved.structural, hs, hsfirm⟩
            obtain ⟨hnextfirm, hrelated⟩ := related_next st h hc hrun hS hnext hfirmc hfound hscomplete
            have hncomplete : S.Completes row next := ⟨hgoes.solved.structural, hnext, hnextfirm⟩
            refine ⟨hrelated, hrest hok hfirmcs (fun u hu => ?_) ?_⟩
            · exact (List.mem_append.1 hu).elim (hfound u) fun hu =>
                List.mem_singleton.1 hu ▸ hncomplete
            · exact hsfirm.after hnextfirm hS h.solved hgoes.solved hgoes.apart hnext

end Session

/-! ## Sets -/

/-- The types of a set are structural, with rows and other unknowns told apart by their numbers, and
mention only unknowns that have been given out. -/
structure ConstraintSet.Structured (isRow : Int → Prop) (n : Nat) (cs : ConstraintSet) : Prop where
  structural : ∀ c ∈ cs.items, ∀ t ∈ c.types, t.Structural isRow
  older : ∀ id, cs.Mentions id → id ≤ n

namespace ConstraintSet

variable {isRow : Int → Prop} {n : Nat} {cs cs' : ConstraintSet} {a b : Ty}

theorem Structured.perm (h : cs.Structured isRow n) (hperm : cs'.items.Perm cs.items) :
    cs'.Structured isRow n where
  structural := fun c hc => h.structural c (hperm.mem_iff.1 hc)
  older := fun id ⟨c, hc, hid⟩ => h.older id ⟨c, hperm.mem_iff.1 hc, hid⟩

theorem Structured.poses (h : cs.Structured isRow n) :
    ∀ c ∈ cs.items, (structuralFrom isRow n).Poses (· ≤ (n : Int)) c := by
  refine fun c hc t ht => ⟨(h.structural c hc t ht).resort fun id hid => ⟨.inl, fun hrow => ?_⟩,
    fun id hid => h.older id ⟨c, hc, t, ht, hid⟩⟩
  have := h.older id ⟨c, hc, t, ht, hid⟩
  exact hrow.resolve_right (by omega)

theorem Structured.underway {σ : Session} (h : cs.Structured isRow σ.supply.count) :
    (structuralFrom isRow σ.supply.count).Underway (· ≤ (σ.supply.count : Int)) σ.supply.count σ
      cs.simplify.sorted [] .empty where
  count := Nat.le_refl _
  expands := structural_expands _ _
  poses := fun c hc => (h.poses c (mem_sorted_simplify.1 hc).1).mono fun _ => .inl
  found := List.forall_mem_nil _
  solved := Grammar.solved_empty

theorem types_of_relates {c : Constraint} (h : c.Relates a b) : a ∈ c.types ∧ b ∈ c.types := by
  unfold Constraint.types
  rcases h with h | h <;> rw [h] <;> simp [Demand.types]

theorem Structured.side (h : cs.Structured isRow n) (ha : cs.HasSide a) :
    a.Structural (sortsFrom isRow n).isRow := by
  obtain ⟨b, c, hc, hab⟩ := ha
  exact (h.poses c hc a (types_of_relates hab).1).ok

theorem equates_foremost : cs.foremost.Equates a b ↔ cs.Equates a b := by
  refine exists_congr fun c => ?_
  rw [mem_foremost]
  refine ⟨fun h => ⟨h.1.1, h.2⟩, fun h => ⟨⟨h.1, ?_⟩, h.2⟩⟩
  rw [Constraint.priority, h.2.kind]

theorem equates_perm (h : cs'.items.Perm cs.items) : cs'.Equates a b ↔ cs.Equates a b :=
  exists_congr fun _ => and_congr_left fun _ => h.mem_iff

end ConstraintSet

namespace Session

variable {isRow : Int → Prop} {σ : Session} {cs : ConstraintSet} {a b : Ty}

theorem structural_solve (limit : Nat) (h : cs.Structured isRow σ.supply.count) :
    (ConstraintSet.structuralFrom isRow σ.supply.count).Solved
      (Known (· ≤ (σ.supply.count : Int)) σ.supply.count ((solve limit cs).run σ).2.supply.count)
      ((solve limit cs).run σ).1.subst :=
  (Grammar.solved_solveInOrder limit (ConstraintSet.started_structuralFrom fun _ => id)
    h.underway).2

/-- The sides of each equality are related in the end, where the sides of all equalities are firm
then. -/
theorem related_of_solve (limit : Nat) (h : cs.Structured isRow σ.supply.count)
    (hforemost : ∀ c ∈ cs.items, c.priority = DemandKind.equality.priority)
    (hok : ((solve limit cs).run σ).1.failure = none)
    (hfirm : ∀ a, cs.HasSide a → a.Firm ((solve limit cs).run σ).1.subst) (hab : cs.Equates a b) :
    Related (((solve limit cs).run σ).1.subst.apply a)
      (((solve limit cs).run σ).1.subst.apply b) := by
  have hs := structural_solve limit h
  have hS := hs.structural
  have hfirmc : ∀ c ∈ cs.items, ∀ a b, c.demand = .equal a b →
      a.Firm ((solve limit cs).run σ).1.subst ∧ b.Firm ((solve limit cs).run σ).1.subst :=
    fun c hc a b hab => ⟨hfirm a ⟨b, c, hc, .inl hab⟩, hfirm b ⟨a, c, hc, .inr hab⟩⟩
  have hmem : ∀ {c}, c ∈ cs.simplify.sorted → c ∈ cs.items := fun hc =>
    (ConstraintSet.mem_sorted_simplify.1 hc).1
  obtain ⟨-, hrelated⟩ := related_solveInOrder limit
    (ConstraintSet.started_structuralFrom (P := (· ≤ (σ.supply.count : Int))) fun _ => id) hS
    h.underway (fun c hc => hforemost c (hmem hc)) (Subst.extends_self hs)
  obtain ⟨c, hc, hab⟩ := hab
  have hequal : ∀ a b, c.demand = .equal a b → Relate.RelatedUnder a b
      ((solve limit cs).run σ).1.subst := by
    intro a b hab
    cases htrivial : c.isTrivial with
    | false =>
        exact hrelated hok (fun c hc => hfirmc c (hmem hc)) (List.forall_mem_nil _)
          (fun _ _ h => by simp at h) c (ConstraintSet.mem_sorted_simplify.2 ⟨hc, htrivial⟩) a b hab
    | true =>
        -- It holds by its form, and was left out.
        rw [Constraint.isTrivial, hab] at htrivial
        have ha := h.side ⟨b, c, hc, .inl hab⟩
        have hb := h.side ⟨a, c, hc, .inr hab⟩
        exact .of_form (ha.apply hS).tame (hb.apply hS).tame
          (form_apply_congr hS ha hb (form_congr ha.tame hb.tame htrivial))
  exact hab.elim (hequal a b) fun hba => (hequal b a hba).symm

end Session

end RowTypes
