import RowTypes.Proofs.Agreement
import RowTypes.Proofs.Limits

/-!
# Types that agree unify

A union is searched for the first alternative that unifies, and that may be an earlier one than the
one that agrees.  Whatever it binds, the other parts still agree, so unifying types that agree goes
through, unless the limit is exceeded on the way.
-/

namespace RowTypes

open Ty

namespace Relate

variable {row : Int → Prop} {P : Int → Prop} {n : Nat} {p q : Progress} {ctx : Context}
  {rel unify : Relation} {s : Subst} {a b t : Ty} {ts us : List Ty}

/-- A run finds a solved form, unless the limit is exceeded. -/
def Succeeds (row P : Int → Prop) (n : Nat) (p : Progress) (m : Relate Subst) : Prop :=
  Ends m p (fun s q => p.supply.count ≤ q.supply.count ∧ (structuralTypes row).Has P n q s)
    fun _ q => q.exceeded = true

/-- A relation that relates types that agree.  It finds solved forms, and an exceeded limit stays
exceeded. -/
structure Unites (row : Int → Prop) (rel : Relation) : Prop where
  solved : (structuralTypes row).SolvedRel rel
  kept : ∀ a b p, p.exceeded = true → ((rel a b).run p).2.exceeded = true
  unites : ∀ {P : Int → Prop} {n : Nat} {p : Progress} {a b : Ty},
    (structuralTypes row).Started P n → n ≤ p.supply.count →
    (structuralTypes row).Sees P n p a → (structuralTypes row).Sees P n p b → a.Agrees b →
    Succeeds row P n p (rel a b)

theorem succeeds_of_traced {m : Relate Subst} (hn : n ≤ p.supply.count)
    (hsolved : TracedOk P n (structuralTypes row).Solved m p)
    (h : Ends m p (fun _ _ => True) fun _ q => q.exceeded = true) : Succeeds row P n p m :=
  (h.and (hsolved.ends hn trivial)).imp (fun _ _ h => ⟨h.2.1, h.2.2.2⟩) fun _ _ h => h.1

theorem succeeds_empty : Succeeds row P n p (pure .empty) :=
  ends_pure ⟨Nat.le_refl _, Grammar.solved_empty⟩

variable (st : (structuralTypes row).Started P n)

include st

/-- Relating types that agree under a substitution adds to it. -/
theorem Unites.next (h : Unites row rel) (hn : n ≤ p.supply.count)
    (hs : (structuralTypes row).Has P n p s) (ha : (structuralTypes row).Sees P n p a)
    (hb : (structuralTypes row).Sees P n p b) (hab : a.Agrees b) :
    Ends (rel (s.apply a) (s.apply b)) p (fun next q => p.supply.count ≤ q.supply.count ∧
      (structuralTypes row).Has P n q (next.after s)) fun _ q => q.exceeded = true := by
  have hagrees := hab.apply hs.structural ha.ok hb.ok
  have hunited := h.unites (st.resume hn) (Nat.le_refl _) (ha.resume hs) (hb.resume hs) hagrees
  exact hunited.imp (fun next q ⟨hq, hnext⟩ => ⟨hq, hs.resume st hn hq hnext⟩) fun _ _ h => h

theorem succeeds_thread (h : Unites row rel) : ∀ {pairs : List (Ty × Ty)} {s : Subst}
    {p : Progress}, n ≤ p.supply.count → (∀ pair ∈ pairs,
      (structuralTypes row).Sees P n p pair.1 ∧ (structuralTypes row).Sees P n p pair.2) →
    (∀ pair ∈ pairs, pair.1.Agrees pair.2) → (structuralTypes row).Has P n p s →
    Succeeds row P n p (thread rel pairs s)
  | [], _, _, _, _, _, hs => ends_pure ⟨Nat.le_refl _, hs⟩
  | (a, b) :: pairs, s, p, hn, hsees, hagrees, hs => by
      obtain ⟨⟨ha, hb⟩, hsees⟩ := List.forall_mem_cons.1 hsees
      obtain ⟨hab, hagrees⟩ := List.forall_mem_cons.1 hagrees
      rw [thread]
      refine Ends.bind ((h.next st hn hs ha hb hab).imp ?_ fun _ _ h => h)
      rintro next q ⟨hq, hnext⟩
      exact (succeeds_thread h (Nat.le_trans hn hq) (fun pair hpair =>
        ⟨(hsees pair hpair).1.later hq, (hsees pair hpair).2.later hq⟩) hagrees hnext).imp
        (fun _ _ h => ⟨Nat.le_trans hq h.1, h.2⟩) fun _ _ h => h

/-! ## Unions -/

/-- A type that agrees with an alternative unifies with that one or an earlier one. -/
theorem succeeds_absorb (h : Unites row unify) (hn : n ≤ p.supply.count)
    (ht : (structuralTypes row).Sees P n p t) (hus : ∀ u ∈ us, (structuralTypes row).Sees P n p u)
    (hagrees : ∃ u ∈ us, t.Agrees u) : Succeeds row P n p (absorb ctx unify t us) := by
  have hadvances : ∀ u ∈ us, ∀ q : Progress, p.supply.count ≤ q.supply.count →
      Ends (unify t u) q (fun _ r => Advances q r) fun _ r => Advances q r := by
    intro u hu q hq
    have htraced := (h.solved st (Nat.le_trans hn hq) (ht.later hq) ((hus u hu).later hq)).ends
      (Nat.le_trans hn hq) trivial
    have hkept := h.kept t u q
    unfold Ends at htraced ⊢
    generalize (unify t u).run q = out at htraced hkept
    obtain ⟨_ | _, r⟩ := out <;> exact ⟨htraced.1, hkept⟩
  obtain ⟨u, hu, htu⟩ := hagrees
  have hfirst := firstOf_exceeded (p := p) hadvances ⟨u, hu, fun q hq =>
    (h.unites st (Nat.le_trans hn hq) (ht.later hq) ((hus u hu).later hq) htu).imp
      (fun _ _ _ => trivial) fun _ _ h => h⟩
  refine succeeds_of_traced hn (Grammar.solved_absorb h.solved st hn ht hus) ?_
  refine Ends.bind (ends_lift ?_)
  generalize (firstOf (unify t) us).run p = out at hfirst
  obtain ⟨_ | s, q⟩ := out
  · exact ends_throw (hfirst rfl)
  · exact ends_pure trivial

/-- Types that agree with a union are absorbed by it, one after the other. -/
theorem succeeds_absorbAll (h : Unites row unify) {target : Ty} : ∀ {ts : List Ty} {s : Subst}
    {p : Progress}, n ≤ p.supply.count → (structuralTypes row).Sees P n p target →
    (∀ t ∈ ts, (structuralTypes row).Sees P n p t) →
    (∀ t ∈ ts, (∀ v, t ≠ .var v) ∧ (∀ vs, t ≠ .union vs) ∧ t.Agrees target) →
    (structuralTypes row).Has P n p s → Succeeds row P n p (absorbAll ctx unify target ts s)
  | [], _, _, _, _, _, _, hs => ends_pure ⟨Nat.le_refl _, hs⟩
  | t :: ts, s, p, hn, htarget, hts, hagrees, hs => by
      obtain ⟨ht, hts⟩ := List.forall_mem_cons.1 hts
      obtain ⟨⟨hvar, hunion, htt⟩, hagrees⟩ := List.forall_mem_cons.1 hagrees
      have hrest : ∀ (next : Subst) (q : Progress), p.supply.count ≤ q.supply.count →
          (structuralTypes row).Has P n q (next.after s) →
          Ends (absorbAll ctx unify target ts (next.after s)) q
            (fun s r => p.supply.count ≤ r.supply.count ∧ (structuralTypes row).Has P n r s)
            fun _ r => r.exceeded = true := fun next q hq hnext =>
        (succeeds_absorbAll h (Nat.le_trans hn hq) (htarget.later hq)
          (fun t ht => (hts t ht).later hq) hagrees hnext).imp
          (fun _ _ h => ⟨Nat.le_trans hq h.1, h.2⟩) fun _ _ h => h
      rw [absorbAll]
      split
      · next us hus =>
          have htarget' := htarget.resume hs
          have hunder := htt.apply hs.structural ht.ok htarget.ok
          rw [hus] at htarget' hunder
          obtain ⟨-, halt⟩ := hunder.exists_alternative (ht.ok.apply_shape hvar hunion).2
          refine Ends.bind ((succeeds_absorb (st.resume hn) h (Nat.le_refl _) (ht.resume hs)
            htarget'.union halt).imp ?_ fun _ _ h => h)
          rintro next q ⟨hq, hnext⟩
          exact hrest next q hq (hs.resume st hn hq hnext)
      · refine Ends.bind ((h.next st hn hs ht htarget htt).imp ?_ fun _ _ h => h)
        rintro next q ⟨hq, hnext⟩
        exact hrest next q hq hnext

theorem succeeds_unifyUnions (h : Unites row unify) (hn : n ≤ p.supply.count)
    (hts : (structuralTypes row).Sees P n p (.union ts))
    (hus : (structuralTypes row).Sees P n p (.union us)) (htu : ∀ t ∈ ts, t.Agrees (.union us))
    (hut : ∀ u ∈ us, (Ty.union ts).Agrees u) :
    Succeeds row P n p (unifyUnions ctx unify ts us) := by
  have hut' : ∀ u ∈ us, u.Agrees (.union ts) := fun u hu =>
    (hut u hu).symm hts.ok (hus.union u hu).ok
  refine ends_orElseThrow (Ends.bind ((succeeds_absorbAll st h hn hus hts.union (fun t ht =>
    ⟨((htu t ht).exists_alternative (hts.ok.flat t ht)).1, hts.ok.flat t ht, htu t ht⟩)
    Grammar.solved_empty).imp ?_ fun _ _ h => h))
  rintro s q ⟨hq, hs⟩
  refine (succeeds_absorbAll st h (Nat.le_trans hn hq) (hts.later hq)
    (fun u hu => (hus.union u hu).later hq) (fun u hu =>
      ⟨((hut' u hu).exists_alternative (hus.ok.flat u hu)).1, hus.ok.flat u hu, hut' u hu⟩) hs).imp
    (fun _ _ h => ⟨Nat.le_trans hq h.1, h.2⟩) fun _ _ h => h

/-! ## Records -/

theorem succeeds_unifyRecords (h : Unites row unify) (hn : n ≤ p.supply.count) {ra rb : RecordTy}
    (ha : (structuralTypes row).Sees P n p ra.toTy) (hb : (structuralTypes row).Sees P n p rb.toTy)
    (hrest : ra.row.map TyVar.id = rb.row.map TyVar.id)
    (hnames : ∀ name, (ra.field? name).isSome = (rb.field? name).isSome)
    (hfields : ∀ name t u, ra.field? name = some t → rb.field? name = some u → t.Agrees u) :
    Succeeds row P n p (unifyRecords ctx unify ra rb) := by
  have hdiff : Text.Names.diff ra.names rb.names = [] := diff_eq_nil hnames
  have hdiff' : Text.Names.diff rb.names ra.names = [] := diff_eq_nil fun name => (hnames name).symm
  unfold unifyRecords
  refine Ends.bind ((succeeds_thread st h hn (Grammar.sees_sharedFields ha hb)
    (fun pair hpair => ?_) Grammar.solved_empty).imp ?_ fun _ _ h => h)
  · obtain ⟨name, hta, htb⟩ := RecordTy.mem_sharedFields.1 hpair
    exact hfields name _ _ hta htb
  rintro s q ⟨hq, hs⟩
  split
  · refine Ends.bind ((h.next st (Nat.le_trans hn hq) hs (ha.later hq) (hb.later hq)
      (.record hrest hnames hfields)).imp ?_ fun _ _ h => h)
    rintro next r ⟨hr, hnext⟩
    exact ends_pure ⟨Nat.le_trans hq hr, hnext⟩
  · next hgrows =>
      rw [Bool.or_eq_true, not_or] at hgrows
      rw [hdiff, hdiff', unifyRows, rowUnder_eq (hs.structural.rowFree ha.ok hgrows.1),
        rowUnder_eq (hs.structural.rowFree hb.ok hgrows.2)]
      obtain ⟨fs, rest⟩ := ra
      obtain ⟨gs, rest'⟩ := rb
      cases rest with
      | none =>
          cases rest' with
          | none => exact ends_pure ⟨hq, hs⟩
          | some w => cases hrest
      | some v =>
          cases rest' with
          | none => cases hrest
          | some w =>
              have hid : v.id = w.id := Option.some.inj hrest
              dsimp only
              rw [if_pos hid]
              exact ends_pure ⟨hq, hs⟩

/-! ## Unification -/

theorem succeeds_unifyShapes (h : Unites row unify) (hn : n ≤ p.supply.count)
    (ha : (structuralTypes row).Sees P n p a) (hb : (structuralTypes row).Sees P n p b)
    (hagrees : a.Agrees b) (hne : ¬ a.equiv b = true) :
    Succeeds row P n p (unifyShapes ctx unify a b) := by
  cases hagrees with
  | same h => exact absurd h hne
  | asString value => exact succeeds_empty
  | asLit value => exact succeeds_empty
  | fn hp hr =>
      refine succeeds_thread st h hn (by simp [ha.fn, hb.fn]) ?_ Grammar.solved_empty
      exact List.forall_mem_cons.2 ⟨hp, List.forall_mem_singleton.2 hr⟩
  | tuple hlen hall =>
      show Succeeds row P n p (if _ then _ else throw _)
      rw [if_pos hlen]
      refine succeeds_thread st h hn (fun pair hpair => ?_) hall Grammar.solved_empty
      obtain ⟨h₁, h₂⟩ := List.of_mem_zip hpair
      exact ⟨Grammar.within_tuple.1 ha _ h₁, Grammar.within_tuple.1 hb _ h₂⟩
  | record hrest hnames hfields => exact succeeds_unifyRecords st h hn ha hb hrest hnames hfields
  | @into _ u us hvar hunion hu hau =>
      have habsorb : unifyShapes ctx unify a (.union us) = absorb ctx unify a us := by
        cases ha.ok with
        | var _ => exact absurd rfl (hvar _)
        | union _ _ _ _ => exact absurd rfl (hunion _)
        | _ => rfl
      rw [habsorb]
      exact succeeds_absorb st h hn ha hb.union ⟨u, hu, hau⟩
  | @onto t _ ts hvar hunion ht htb =>
      have habsorb : unifyShapes ctx unify (.union ts) b = absorb ctx unify b ts := by
        cases hb.ok with
        | var _ => exact absurd rfl (hvar _)
        | union _ _ _ _ => exact absurd rfl (hunion _)
        | _ => rfl
      rw [habsorb]
      exact succeeds_absorb st h hn hb ha.union ⟨t, ht, htb.symm (ha.union t ht).ok hb.ok⟩
  | unions htu hut => exact succeeds_unifyUnions st h hn ha hb htu hut

theorem succeeds_unifyStep (h : Unites row unify) (hn : n ≤ p.supply.count)
    (ha : (structuralTypes row).Sees P n p a) (hb : (structuralTypes row).Sees P n p b)
    (hagrees : a.Agrees b) : Succeeds row P n p (unifyStep ctx unify a b) := by
  unfold unifyStep
  split
  · exact succeeds_empty
  · next hne =>
      split
      · exact absurd hagrees.equiv_of_var hne
      · exact absurd (equiv_symm (.var _) ha.ok.tame (hagrees.symm ha.ok hb.ok).equiv_of_var) hne
      · split
        · next hindirect =>
            rw [Bool.or_eq_true] at hindirect
            exfalso
            rcases hindirect with h | h
            · cases ha.ok <;> cases h
            · cases hb.ok <;> cases h
        · exact succeeds_unifyShapes st h hn ha hb hagrees hne

omit st

/-- Types that agree unify, at every limit that is not exceeded. -/
theorem unites_unify (ctx : Context) (row : Int → Prop) :
    ∀ limit : Nat, Unites row (Relate.unify ctx limit)
  | 0 => {
      solved := Grammar.solvedRel_unify (structural_expands row _) 0
      kept := fun a b => (raises_unify ctx (Nat.le_refl 0) a b).kept
      unites := fun _ _ _ _ _ => ends_exceed rfl }
  | limit + 1 => {
      solved := Grammar.solvedRel_unify (structural_expands row _) (limit + 1)
      kept := fun a b => (raises_unify ctx (Nat.le_refl (limit + 1)) a b).kept
      unites := fun st hn ha hb hagrees =>
        succeeds_unifyStep st (unites_unify ctx row limit) hn ha hb hagrees }

end Relate

namespace Session

/-- Related types unify, if no unknown is an alternative in them and the limit is not exceeded. -/
theorem ends_unify_of_related {σ : Session} {row : Int → Prop} {a b : Ty} (limit : Nat)
    (span : Span) (hrows : ∀ id : Int, σ.supply.count < id → row id) (ha : a.Structural row)
    (hb : b.Structural row) (hold : ∀ id, a.Mentions id ∨ b.Mentions id → id ≤ σ.supply.count)
    (hda : a.Definite) (hdb : b.Definite) (h : Related a b) :
    Ends (unify limit span a b) σ (fun _ _ => True) fun _ τ => τ.exceeded = true := by
  have st : (structuralTypes row).Started (fun id => id ≤ σ.supply.count) σ.supply.count :=
    ⟨fun _ hid => hid, hrows⟩
  have hunites := (Relate.unites_unify { registry := σ.registry, span } row limit).unites
    (p := { supply := σ.supply }) st (Nat.le_refl _) ⟨ha, fun id hid => .inl (hold id (.inl hid))⟩
    ⟨hb, fun id hid => .inl (hold id (.inr hid))⟩ (.of_related h ha hb hda hdb)
  exact ends_relating (hunites.imp (fun _ _ _ => trivial) fun _ _ => exceeded_afterRelating)

end Session

end RowTypes
