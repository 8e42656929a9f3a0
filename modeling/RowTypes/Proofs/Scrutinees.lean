import RowTypes.Proofs.Acceptance
import RowTypes.Proofs.ConstraintSets
import RowTypes.Proofs.Idempotence
import RowTypes.Proofs.JoinedPatterns

/-!
# What a scrutinee can hold

Once a match is solved, its scrutinee can hold a value of each pattern: the type of the pattern
unifies with that of the scrutinee.  Solving makes the two related, and related types unify.

A scrutinee that is known is unified with each pattern, or one of its alternatives is.  One that is
unknown is bound to what the patterns are joined into.  Where the unknown is in the patterns itself,
joining them may bind it to something else, and then it stands for that and not for the join.

Two unions unify only if each alternative of both finds a partner.  So a pattern that ends up as a
union of some alternatives of the scrutinee does not unify with it.
-/

namespace RowTypes

open Ty

namespace Relate

variable {row P : Int → Prop} {n : Nat} {p : Progress} {ctx : Context} {s S : Subst} {a b t : Ty}
  {unify : Relation}

/-! ## Scrutinees that are known -/

theorem RelatedUnder.unless (h : RelatedUnder a b S) : RelatedUnless a b S := fun _ => h

theorem lasts_relatedUnless : Lasts row RelatedUnless := by
  intro S s a b hS hs hext ha hb h hne
  have hback : ∀ {t : Ty}, t.Structural row → (∀ vs, S.apply t ≠ .union vs) →
      ∀ vs, S.apply (s.apply t) ≠ .union vs := by
    intro t ht hne
    have htame := ((ht.apply hs).apply hS).tame
    exact ne_union_of_equiv (ht.apply hS).tame htame
      ((form_eq_iff (ht.apply hS).tame htame).1 (hext.form_apply_apply hS hs ht).symm) hne
  exact (h (hne.imp (hback ha) (hback hb))).of_apply hS hs hext ha hb

/-- A pattern is related to the alternative that it matches, and a catch-all to the whole union. -/
theorem establishes_matchAlternative (hunify : Sound row unify) :
    Establishes row RelatedUnless (matchAlternative ctx unify) := by
  intro P n p a b st hn ha hb
  unfold matchAlternative
  split
  · exact (finds_bindVar ha hb).weaken fun _ _ h =>
      ⟨h.solved, h.leads.mono And.right fun _ _ _ h => h.unless⟩
  · split
    · exact finds_alternative st hunify hn ha hb
    · exact (hunify st hn ha hb).weaken fun _ _ h =>
        ⟨h.solved, h.leads.mono id fun _ _ _ h => h.unless⟩

theorem finds_holds (ctx : Context) (limit : Nat) (st : (structuralTypes row).Started P n)
    (hn : n ≤ p.supply.count) {patterns : List Ty} (ht : (structuralTypes row).Sees P n p t)
    (hpatterns : ∀ a ∈ patterns, (structuralTypes row).Sees P n p a) (hvar : ∀ v, t ≠ .var v) :
    TracedOk P n (Finds row .empty (fun S => t.Firm S ∧ ∀ a ∈ patterns, a.Firm S)
      fun S => ∀ a ∈ patterns, RelatedUnless a t S) (holds ctx limit t patterns) p := by
  have hthread : ∀ {rel : Relation}, Establishes row RelatedUnless rel →
      TracedOk P n (Finds row .empty (fun S => t.Firm S ∧ ∀ a ∈ patterns, a.Firm S)
        fun S => ∀ a ∈ patterns, RelatedUnless a t S)
        (thread rel (patterns.map fun a => (a, t)) .empty) p := by
    intro rel hrel
    refine (hrel.thread st lasts_relatedUnless hn (List.forall_mem_map.2 fun a ha =>
      ⟨hpatterns a ha, ht⟩) Grammar.solved_empty fun hg => List.forall_mem_map.2 fun a ha =>
        ⟨hg.2 a ha, hg.1⟩).weaken fun _ _ h => ⟨h.solved, h.leads.mono id fun _ _ _ h => ?_⟩
    exact List.forall_mem_map.1 h
  unfold holds
  split
  · exact absurd rfl (hvar _)
  · exact hthread (establishes_matchAlternative (sound_unify limit))
  · exact hthread fun st hn ha hb => (sound_unify limit st hn ha hb).weaken fun _ _ h =>
      ⟨h.solved, h.leads.mono id fun _ _ _ h => h.unless⟩

/-! ## Scrutinees that are unknown -/

/-- What an unknown is bound to: the type, if that is not the unknown itself. -/
def BindsTo (v : TyVar) (t : Ty) (bound : Subst) : Prop :=
  (bound = .empty ∧ t.Mentions v.id) ∨ (bound = .single v t ∧ ¬ t.Mentions v.id)

theorem ends_bindsTo {v : TyVar} :
    Ends (bindVar ctx v t) p (fun bound _ => BindsTo v t bound) fun _ _ => True := by
  unfold bindVar
  split
  · split
    · next heq => exact ends_pure (.inl ⟨rfl, mentions_var.2 (by simpa using heq)⟩)
    · next hne => exact ends_pure (.inr ⟨rfl, by simpa using hne⟩)
  · split
    · exact ends_throw trivial
    · next hoccurs => exact ends_pure (.inr ⟨rfl, fun hid => hoccurs (occurs_iff_mentions.2 hid)⟩)

/-- The patterns of a match are joined one after the other. -/
abbrev joining (ctx : Context) (limit : Nat) (first : Ty) (others : List Ty) :
    StateM Progress Joined :=
  joinList (joinPatterns (Relate.unify ctx limit) (joinDepth (first :: others))) others
    (first, .empty)

theorem finds_joining (ctx : Context) (limit : Nat) {first : Ty} {others : List Ty}
    (st : (structuralTypes row).Started P n) (hn : n ≤ p.supply.count)
    (h : ∀ t ∈ first :: others, (structuralTypes row).Sees P n p t) :
    Traced P n (fun Q j => (structuralTypes row).Within (Grammar.Left Q j.2) j.1 ∧
      Finds row .empty (Subst.Whole P) (TakesAll row first others j.1) Q j.2)
      (joining ctx limit first others) p := by
  have hjoin : ∀ depth, SoundJoin row (joinPatterns (Relate.unify ctx limit) depth) :=
    sound_joinPatterns (sound_unify limit)
  exact finds_joinList (hjoin (joinDepth (first :: others))) st hn
    (fun t ht => h t (List.mem_cons_of_mem _ ht)) (h first List.mem_cons_self) Grammar.solved_empty

/-- A scrutinee that is unknown is bound to the join of the patterns. -/
theorem ends_holds_var (ctx : Context) (p : Progress) (limit : Nat) (v : TyVar) (first : Ty)
    (others : List Ty) :
    Ends (holds ctx limit (.var v) (first :: others)) p (fun next _ => ∃ bound,
      BindsTo v ((joining ctx limit first others).run p).1.1 bound ∧
      next = bound.after ((joining ctx limit first others).run p).1.2) fun _ _ => True :=
  Ends.bind (ends_lift (Ends.bind (ends_bindsTo.imp (fun bound _ h => ends_pure ⟨bound, h, rfl⟩)
    fun _ _ h => h)))

section Joined

/-! An unknown is bound to the join of the patterns, after joining them has bound others, and maybe
the unknown itself.  In that case the earlier binding stands. -/

variable {Q Q' : Int → Prop} {v : TyVar} {joined : Ty} {s₀ bound : Subst} (hv : ¬ row v.id)
  (hs₀ : (structuralTypes row).Solved Q s₀)
  (hjoined : (structuralTypes row).Within (Grammar.Left Q s₀) joined)
  (hbound : BindsTo v joined bound)
  (hget : ∀ id, s.get? id = (bound.after s₀).get? id)

include hbound in
theorem get?_bound {id : Int} {u : Ty} (hu : bound.get? id = some u) : id = v.id ∧ u = joined := by
  rcases hbound with ⟨rfl, -⟩ | ⟨rfl, hoff⟩
  · simp at hu
  · rw [get?_single_of_free hoff] at hu
    split at hu
    · next hid =>
        cases hu
        exact ⟨hid, rfl⟩
    · cases hu

include hv hjoined hbound in
theorem solved_bound : (structuralTypes row).Solved (fun _ => True) bound := by
  rcases hbound with ⟨rfl, -⟩ | ⟨rfl, hoff⟩
  · exact Grammar.solved_empty
  · exact Grammar.solved_single trivial (hjoined.mono fun _ _ => trivial) hoff fun h => absurd h hv

include hv hs₀ hjoined hbound hget

theorem get?_join (id : Int) : s.get? id = match s₀.get? id with
    | some t => some (bound.apply t)
    | none => bound.get? id :=
  (hget id).trans (hs₀.get?_after (solved_bound hv hjoined hbound)
    (fun hu j hj => (hjoined.free j ((get?_bound hbound hu).2 ▸ hj)).2) id)

/-- An unknown that is not in the patterns stands for their join. -/
theorem apply_var_join (hoff : ¬ Q v.id) : s.apply (.var v) = s.apply joined := by
  have hjoin := get?_join hv hs₀ hjoined hbound hget
  have hfree : ¬ joined.Mentions v.id := fun hid => hoff (hjoined.free _ hid).1
  obtain ⟨-, hid⟩ | ⟨rfl, -⟩ := hbound
  · exact absurd hid hfree
  have hv₀ : s₀.get? v.id = none := by
    cases hu : s₀.get? v.id with
    | none => rfl
    | some u => exact absurd (hs₀.inside _ (.inl ⟨u, hu⟩)) hoff
  have hbind := hjoin v.id
  rw [hv₀] at hbind
  dsimp only at hbind
  rw [get?_single_of_free hfree, if_pos rfl] at hbind
  rw [Subst.apply_var, hbind, hjoined.ok.stable.apply_eq_self fun id hid => ?_]
  · rfl
  · have hne : id ≠ v.id := by
      rintro rfl
      exact hfree hid
    rw [hjoin, (hjoined.free id hid).2]
    dsimp only
    rw [get?_single_of_free hfree, if_neg hne]

/-- If the join and the unknown are the same in the end, what is found extends what joining the
patterns found. -/
theorem extends_join (hs : (structuralTypes row).Solved Q' s)
    (hsame : (s.apply joined).form = (s.apply (.var v)).form) : s.Extends s₀ := by
  have hjoin := get?_join hv hs₀ hjoined hbound hget
  have hbs := (solved_bound hv hjoined hbound).structural
  have hextends : s.Extends bound := by
    intro id u hu
    obtain ⟨rfl, rfl⟩ := get?_bound hbound hu
    have hw : ∃ w, s.get? v.id = some w := by
      rw [hjoin]
      cases s₀.get? v.id with
      | none => exact ⟨_, hu⟩
      | some w => exact ⟨_, rfl⟩
    obtain ⟨w, hw⟩ := hw
    rw [Subst.apply_var, hw] at hsame
    exact ⟨w, hw, hsame.symm⟩
  intro id u hu
  have hw := hjoin id
  rw [hu] at hw
  have hform := hextends.form_apply_apply hs.structural hbs (hs₀.structural.ok id u hu)
  rw [(hs.structural.ok id _ hw).stable.apply_eq_self (hs.fixed hw)] at hform
  exact ⟨_, hw, hform⟩

end Joined

end Relate

/-- What is equal to a substitution in solved form extends it. -/
theorem Subst.extends_of_get? {row Q : Int → Prop} {s s' : Subst}
    (hs : (structuralTypes row).Solved Q s) (hget : ∀ id, s.get? id = s'.get? id) :
    s.Extends s' := by
  intro id u hu
  have hu' := (hget id).trans hu
  exact ⟨u, hu', by rw [(hs.structural.ok id u hu').stable.apply_eq_self (hs.fixed hu')]⟩

/-! ## Solving -/

namespace ConstraintSet

/-- The structural types, where every unknown that is given out from now on is a row. -/
abbrev structuralFrom (isRow : Int → Prop) (n : Nat) : Grammar :=
  structuralTypes (sortsFrom isRow n).isRow

theorem started_structuralFrom {isRow P : Int → Prop} {n : Nat} (hP : ∀ id, P id → id ≤ n) :
    (structuralFrom isRow n).Started P n := ⟨hP, fun _ => .inr⟩

/-- A set of one constraint: a match on a scrutinee has these patterns, with rows and other unknowns
told apart by their numbers, and of unknowns that have been given out. -/
structure Matching (isRow : Int → Prop) (n : Nat) (c : Constraint) (scrutinee : Ty)
    (patterns : List Ty) (cs : ConstraintSet) : Prop where
  only : cs.items = [c]
  demand : c.demand = .holds scrutinee patterns
  structural : ∀ t ∈ scrutinee :: patterns, t.Structural isRow
  older : ∀ t ∈ scrutinee :: patterns, ∀ id, t.Mentions id → id ≤ n

theorem Matching.within {isRow Q : Int → Prop} {n : Nat} {c : Constraint} {scrutinee t : Ty}
    {patterns : List Ty} {cs : ConstraintSet} (h : cs.Matching isRow n c scrutinee patterns)
    (ht : t ∈ scrutinee :: patterns) (hQ : ∀ id, t.Mentions id → Q id) :
    (structuralFrom isRow n).Within Q t := by
  refine ⟨(h.structural t ht).resort fun id hid => ⟨.inl, fun hrow => ?_⟩, hQ⟩
  have := h.older t ht id hid
  exact hrow.resolve_right (by omega)

end ConstraintSet

namespace Session

variable {isRow : Int → Prop} {limit : Nat} {σ τ : Session} {cs : ConstraintSet} {c : Constraint}
  {span : Span} {scrutinee p : Ty} {patterns : List Ty} {s : Subst}

/-- The type that the patterns of a match are joined into, and what joining them finds. -/
def joined (limit : Nat) (span : Span) (σ : Session) (first : Ty) (others : List Ty) :
    Relate.Joined :=
  ((Relate.joining { registry := σ.registry, span } limit first others).run
    { supply := σ.supply }).1

/-- A pattern goes with the scrutinee as a whole, not with parts of it one by one. -/
inductive Undivided (limit : Nat) (span : Span) (σ : Session) (s : Subst) (p : Ty) :
    List Ty → Ty → Prop where
  /-- An unknown scrutinee stands for the join of the patterns, and none of their unknowns for a
  union. -/
  | unknown {first : Ty} {others : List Ty} {v : TyVar} :
      (∀ q ∈ first :: others, ¬ q.Mentions v.id) ∨
        (s.apply (σ.joined limit span first others).1).equiv (s.apply (.var v)) = true →
      (∀ q ∈ first :: others, s.Whole q.Mentions) → (s.apply p).Single →
      Undivided limit span σ s p (first :: others) (.var v)
  /-- Of a known scrutinee and a pattern, one is no union in the end. -/
  | known {patterns : List Ty} {t : Ty} : (∀ v, t ≠ .var v) → t.Firm s →
      (∀ q ∈ patterns, q.Firm s) → (∀ us, s.apply p ≠ .union us) ∨ (∀ us, s.apply t ≠ .union us) →
      Undivided limit span σ s p patterns t
  /-- The scrutinee and the pattern are the same in the end. -/
  | same {patterns : List Ty} {t : Ty} : (s.apply p).equiv (s.apply t) = true →
      Undivided limit span σ s p patterns t

section Solving

variable (h : cs.Matching isRow σ.supply.count c scrutinee patterns)
  (hsolve : (solve limit cs).run σ = ({ subst := s }, τ))

include h hsolve

/-- What is found in the end is what meeting the constraint finds. -/
theorem exists_holds : ∃ next q, (Relate.holds { registry := σ.registry, span := c.span } limit
      scrutinee patterns).run { supply := σ.supply } = (.ok next, q) ∧
    (next.Ordered → ∀ id, s.get? id = next.get? id) := by
  have htrivial : c.isTrivial = false := by rw [Constraint.isTrivial, h.demand]
  obtain ⟨next, hmet, hget⟩ := solve_single h.only htrivial hsolve
  rw [Constraint.apply_of_isEmpty rfl, discharge, if_neg (by simp [htrivial]), h.demand] at hmet
  obtain ⟨q, hrun, -⟩ := exists_of_relating hmet
  exact ⟨next, q, hrun, hget⟩

theorem solved_matching : σ.GoesOn τ ∧
    (ConstraintSet.structuralFrom isRow σ.supply.count).Solved
      (Known (· ≤ σ.supply.count) σ.supply.count τ.supply.count) s := by
  have hposes : ∀ d ∈ cs.simplify.sorted, (ConstraintSet.structuralFrom isRow σ.supply.count).Poses
      (Known (· ≤ σ.supply.count) σ.supply.count σ.supply.count) d := by
    intro d hd t ht
    have hdc := (ConstraintSet.mem_sorted_simplify.1 hd).1
    rw [h.only, List.mem_singleton] at hdc
    subst hdc
    rw [Constraint.types, h.demand] at ht
    exact h.within ht fun id hid => .inl (h.older t ht id hid)
  have hsolved := Grammar.solved_solveInOrder limit
    (ConstraintSet.started_structuralFrom fun _ => id)
    ⟨Nat.le_refl _, structural_expands _ _, hposes, List.forall_mem_nil _, Grammar.solved_empty⟩
  rw [show solveInOrder limit cs.simplify.sorted [] .empty = solve limit cs from rfl,
    hsolve] at hsolved
  exact hsolved

theorem related_known (hvar : ∀ v, scrutinee ≠ .var v) (hfirm : scrutinee.Firm s)
    (hpatterns : ∀ q ∈ patterns, q.Firm s) (hp : p ∈ patterns)
    (hne : (∀ us, s.apply p ≠ .union us) ∨ ∀ us, s.apply scrutinee ≠ .union us) :
    Related (s.apply p) (s.apply scrutinee) := by
  have hs := (solved_matching h hsolve).2
  obtain ⟨next, q, hrun, hget⟩ := exists_holds h hsolve
  have hsees : ∀ t ∈ scrutinee :: patterns,
      (ConstraintSet.structuralFrom isRow σ.supply.count).Sees (· ≤ σ.supply.count) σ.supply.count
        { supply := σ.supply } t := fun t ht =>
    h.within ht fun id hid => .inl (h.older t ht id hid)
  have hfinds := (Relate.finds_holds (p := { supply := σ.supply })
    { registry := σ.registry, span := c.span } limit
    (ConstraintSet.started_structuralFrom fun _ => id) (Nat.le_refl _) (hsees _ List.mem_cons_self)
    (fun t ht => hsees t (List.mem_cons_of_mem _ ht)) hvar).ends (Nat.le_refl _) trivial
  obtain ⟨-, -, hnext⟩ := hfinds.of_run hrun
  have hext := Subst.extends_of_get? hs (hget hnext.solved.ordered)
  exact (hnext.leads.holds hs.structural hext (fun _ _ h => by simp at h) ⟨hfirm, hpatterns⟩).2
    p hp hne

end Solving

theorem related_unknown {v : TyVar} {first : Ty} {others : List Ty}
    (h : cs.Matching isRow σ.supply.count c (.var v) (first :: others))
    (hsolve : (solve limit cs).run σ = ({ subst := s }, τ))
    (hstands : (∀ q ∈ first :: others, ¬ q.Mentions v.id) ∨
      (s.apply (σ.joined limit c.span first others).1).equiv (s.apply (.var v)) = true)
    (hwhole : ∀ q ∈ first :: others, s.Whole q.Mentions) (hp : p ∈ first :: others)
    (hsingle : (s.apply p).Single) : Related (s.apply p) (s.apply (.var v)) := by
  have hs := (solved_matching h hsolve).2
  obtain ⟨next, r, hrun, hget⟩ := exists_holds h hsolve
  let P : Int → Prop := fun id => ∃ q ∈ first :: others, q.Mentions id
  have hsees : ∀ t ∈ first :: others, (ConstraintSet.structuralFrom isRow σ.supply.count).Sees P
      σ.supply.count { supply := σ.supply } t := fun t ht =>
    h.within (List.mem_cons_of_mem _ ht) fun id hid => .inl ⟨t, ht, hid⟩
  have st : (ConstraintSet.structuralFrom isRow σ.supply.count).Started P σ.supply.count :=
    ConstraintSet.started_structuralFrom fun id ⟨q, hq, hid⟩ =>
      h.older q (List.mem_cons_of_mem _ hq) id hid
  obtain ⟨-, -, hjoined, hfinds⟩ := Relate.finds_joining { registry := σ.registry, span := c.span }
    limit st (Nat.le_refl _) hsees (Nat.le_refl _) trivial
  have hends := Relate.ends_holds_var { registry := σ.registry, span := c.span }
    { supply := σ.supply } limit v first others
  obtain ⟨bound, hbound, rfl⟩ := hends.of_run hrun
  replace hget := hget (Subst.ordered_after _ _)
  have hv := (h.within (Q := fun _ => True) List.mem_cons_self fun _ _ => trivial).var.2
  have hvar : (ConstraintSet.structuralFrom isRow σ.supply.count).Ok (.var v) := .var hv
  have hform : (s.apply (σ.joined limit c.span first others).1).form =
      (s.apply (.var v)).form := by
    rcases hstands with hoff | hequiv
    · rw [Relate.apply_var_join hv hfinds.solved hjoined hbound hget ?_]
      · rfl
      · rintro (⟨q, hq, hid⟩ | ⟨hlt, -⟩)
        · exact hoff q hq hid
        · have := h.older _ List.mem_cons_self v.id (Ty.mentions_var.2 rfl)
          omega
    · exact form_congr (hjoined.ok.apply hs.structural).tame (hvar.apply hs.structural).tame hequiv
  have hext := Relate.extends_join hv hfinds.solved hjoined hbound hget hs hform
  obtain ⟨-, htakes⟩ := hfinds.leads.holds hs.structural hext (fun _ _ h => by simp at h)
    fun id ⟨q, hq, hid⟩ => hwhole q hq id hid
  have hx := (hsees p hp).ok.apply hs.structural
  have hrelated : Related (s.apply p) (s.apply (σ.joined limit c.span first others).1) := by
    rcases List.mem_cons.1 hp with rfl | hp
    · exact htakes.first hx hsingle (.of_form hx.tame hx.tame rfl)
    · exact htakes.rest p hp hx hsingle rfl
  exact hrelated.congr hx.tame (hjoined.ok.apply hs.structural).tame hx.tame
    (hvar.apply hs.structural).tame rfl hform

/-- Where a match is solved, a pattern is related to its scrutinee, if the two are not divided. -/
theorem related_scrutinee (h : cs.Matching isRow σ.supply.count c scrutinee patterns)
    (hsolve : (solve limit cs).run σ = ({ subst := s }, τ)) (hp : p ∈ patterns)
    (hundivided : σ.Undivided limit c.span s p patterns scrutinee) :
    Related (s.apply p) (s.apply scrutinee) := by
  cases hundivided with
  | unknown hstands hwhole hsingle =>
      exact related_unknown h hsolve hstands hwhole hp hsingle
  | known hvar hfirm hpatterns hne => exact related_known h hsolve hvar hfirm hpatterns hp hne
  | same hequiv => exact widening_related.equiv hequiv

/-- The scrutinee of a match can hold each of its patterns: the two unify, unless the limit is
exceeded on the way. -/
theorem unify_scrutinee (h : cs.Matching isRow σ.supply.count c scrutinee patterns)
    (hsolve : (solve limit cs).run σ = ({ subst := s }, τ)) (hp : p ∈ patterns)
    (hundivided : σ.Undivided limit c.span s p patterns scrutinee)
    (hpattern : (s.apply p).Definite) (hscrutinee : (s.apply scrutinee).Definite) (limit' : Nat)
    (span : Span) {ρ : Session} (hρ : τ.supply.count ≤ ρ.supply.count) :
    Ends (unify limit' span (s.apply p) (s.apply scrutinee)) ρ (fun _ _ => True)
      fun _ υ => υ.exceeded = true := by
  obtain ⟨hgoes, hs⟩ := solved_matching h hsolve
  have hcount : σ.supply.count ≤ τ.supply.count := hgoes.2
  have hwithin : ∀ t ∈ scrutinee :: patterns,
      (ConstraintSet.structuralFrom isRow σ.supply.count).Within
        (Known (· ≤ σ.supply.count) σ.supply.count τ.supply.count) (s.apply t) := fun t ht =>
    (h.within ht fun id hid => .inl (h.older t ht id hid)).apply' hs
  have hpat := hwithin p (List.mem_cons_of_mem _ hp)
  have hscr := hwithin scrutinee List.mem_cons_self
  refine ends_unify_of_related limit' span (fun id hid => .inr (by omega)) hpat.ok hscr.ok ?_
    hpattern hscrutinee (related_scrutinee h hsolve hp hundivided)
  intro id hid
  have hknown := hid.elim (hpat.free id) (hscr.free id)
  rcases hknown with hle | ⟨-, hle⟩ <;> omega

/-- A match on `t₁` with the patterns `({kind: "circle"}, t₂)` and `({kind: "square"}, Int)`. -/
def shapePatterns : Constraint where
  demand := .holds (.var ⟨1, 0⟩) [.tuple [circle, .var ⟨2, 0⟩], .tuple [square, .int]]

theorem matching_shapePatterns :
    (ConstraintSet.ofList [shapePatterns]).Matching (fun _ => False) 2 shapePatterns (.var ⟨1, 0⟩)
      [.tuple [circle, .var ⟨2, 0⟩], .tuple [square, .int]] := by
  have hrecord : ∀ value, (Ty.record [("kind", .lit value)] none).Structural fun _ => False :=
    fun value => .record (List.pairwise_singleton _ _) (List.forall_mem_singleton.2 (.lit value))
      (by rintro v ⟨⟩)
  refine ⟨rfl, rfl, List.forall_mem_cons.2 ⟨.var id, List.forall_mem_cons.2 ⟨.tuple ?_,
    List.forall_mem_singleton.2 (.tuple ?_)⟩⟩, ?_⟩
  · exact List.forall_mem_cons.2 ⟨hrecord _, List.forall_mem_singleton.2 (.var id)⟩
  · exact List.forall_mem_cons.2 ⟨hrecord _, List.forall_mem_singleton.2 (.prim _)⟩
  · simp [circle, square, Ty.int]

/-- The scrutinee is a pair of either shape and a number then, which the second pattern matches. -/
theorem unify_scrutinee_square :
    (solve 250 (.ofList [shapePatterns])).run (sessionOf 2) =
      ({ subst := eitherShape }, sessionOf 2) ∧
    Ends (unify 250 {} (eitherShape.apply (.tuple [square, .int]))
      (eitherShape.apply (.var ⟨1, 0⟩))) (sessionOf 2) (fun _ _ => True)
      fun _ υ => υ.exceeded = true := by
  have hsolve : (solve 250 (.ofList [shapePatterns])).run (sessionOf 2) =
      ({ subst := eitherShape }, sessionOf 2) := by
    have hrun : (solve 250 (.ofList [shapePatterns])).run (sessionOf 2) =
        ({ subst := eitherShape }, { sessionOf 2 with ends := True ∧ True }) := by
      with_unfolding_all rfl
    rw [hrun, with_ends trivial ⟨trivial, trivial⟩]
  have hpattern : eitherShape.apply (.tuple [square, .int]) = .tuple [square, .int] := by cbv
  have hscrutinee : eitherShape.apply (.var ⟨1, 0⟩) = .tuple [.union [circle, square], .int] := by
    cbv
  have hnumber : eitherShape.get? 2 = some .int := by with_unfolding_all rfl
  have hdefinite : ∀ value, (Ty.record [("kind", .lit value)] none).Definite := fun value =>
    .record _ (List.forall_mem_singleton.2 (.lit value))
  refine ⟨hsolve, unify_scrutinee matching_shapePatterns hsolve (by simp) (.unknown (.inl ?_) ?_ ?_)
    ?_ ?_ 250 {} (Nat.le_refl _)⟩
  · simp [circle, square, Ty.int]
  · simp [circle, square, Ty.int, Subst.Whole, hnumber]
  · rw [hpattern]
    exact .tuple (List.forall_mem_cons.2 ⟨.record _ _, List.forall_mem_singleton.2 (.prim _)⟩)
  · rw [hpattern]
    exact .tuple (List.forall_mem_cons.2 ⟨hdefinite _, List.forall_mem_singleton.2 (.prim _)⟩)
  · rw [hscrutinee]
    refine .tuple (List.forall_mem_cons.2 ⟨.union ?_ ?_, List.forall_mem_singleton.2 (.prim _)⟩)
    · exact List.forall_mem_cons.2 ⟨hdefinite _, List.forall_mem_singleton.2 (hdefinite _)⟩
    · simp [circle, square]

end Session

end RowTypes
