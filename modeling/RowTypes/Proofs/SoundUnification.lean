import RowTypes.Proofs.BranchResults
import RowTypes.Proofs.SolvedRelating
import RowTypes.Proofs.Widening

/-!
# Unified types are related

Unification of structural types is sound: what it finds makes the two types related, if it binds no
unknown to a union that is an alternative of a union in one of the types.

A run finds its substitution step by step, and each step shows something of every substitution that
extends what was found by then.  A `Leads` statement says that for a part of a run: from what was
found before to what is found after it, whatever extends the latter extends the former, and makes
some things true.  The whole run then leads from nothing to its result, which extends itself.

The condition on unions is needed: an alternative that is an unknown and has been bound to a union
by then is related as a whole, which succeeds if one of its alternatives goes with the other union.
-/

namespace RowTypes

open Ty

variable {row : Int → Prop} {S s s' s'' : Subst} {a b t : Ty} {Q Q' : Int → Prop}

/-! ## Going from one substitution to another -/

/-- Whatever extends what is found after a part of a run extends what was found before it and, where
some things are given, shows others. -/
structure Leads (row : Int → Prop) (s s' : Subst) (given shown : Subst → Prop) : Prop where
  before : ∀ {S : Subst}, S.Structural row → S.Extends s' → S.Extends s
  holds : ∀ {S : Subst}, S.Structural row → S.Extends s' → s.Firm S → given S → s'.Firm S ∧ shown S

namespace Leads

variable {next : Subst} {given given' shown shown' : Subst → Prop}

theorem refl (h : ∀ {S : Subst}, S.Structural row → S.Extends s → given S → shown S) :
    Leads row s s given shown :=
  ⟨fun _ hext => hext, fun hS hext hfirm hgiven => ⟨hfirm, h hS hext hgiven⟩⟩

theorem trans (h : Leads row s s' given shown) (h' : Leads row s' s'' given shown') :
    Leads row s s'' given fun S => shown S ∧ shown' S := by
  refine ⟨fun hS hext => h.before hS (h'.before hS hext), fun hS hext hfirm hgiven => ?_⟩
  obtain ⟨hfirm', hshown⟩ := h.holds hS (h'.before hS hext) hfirm hgiven
  obtain ⟨hfirm'', hshown'⟩ := h'.holds hS hext hfirm' hgiven
  exact ⟨hfirm'', hshown, hshown'⟩

theorem mono (h : Leads row s s' given' shown') (hgiven : ∀ {S}, given S → given' S)
    (hshown : ∀ {S : Subst}, S.Structural row → S.Extends s' → given S → shown' S → shown S) :
    Leads row s s' given shown :=
  ⟨h.before, fun hS hext hfirm hg =>
    (h.holds hS hext hfirm (hgiven hg)).imp_right (hshown hS hext hg)⟩

/-- What is found for types under a substitution leads on from it. -/
theorem after (hs : (structuralTypes row).Solved Q s)
    (hnext : (structuralTypes row).Solved Q' next) (hapart : next.Apart s)
    (h : Leads row .empty next given' shown)
    (hgiven : ∀ {S : Subst}, S.Structural row → S.Extends s → s.Firm S → given S → given' S) :
    Leads row s (next.after s) given shown := by
  refine ⟨fun hS hext => (Subst.Extends.of_after hS hs hnext hapart hext).2,
    fun {S} hS hext hfirm hg => ?_⟩
  obtain ⟨hextn, hexts⟩ := Subst.Extends.of_after hS hs hnext hapart hext
  obtain ⟨hfirmn, hshown⟩ := h.holds hS hextn (fun _ _ h => by simp at h)
    (hgiven hS hexts hfirm hg)
  exact ⟨hfirm.after hfirmn hS hs hnext hapart hextn, hshown⟩

end Leads

namespace Relate

variable {P : Int → Prop} {n : Nat} {p q : Progress} {ctx : Context} {rel unify : Relation}
  {given shown : Subst → Prop} {about : Ty → Ty → Subst → Prop}

/-- Two types are related under a substitution. -/
def RelatedUnder (a b : Ty) (S : Subst) : Prop := Related (S.apply a) (S.apply b)

/-- Two types are related under a substitution, unless both become unions. -/
def RelatedUnless (a b : Ty) (S : Subst) : Prop :=
  (∀ vs, S.apply a ≠ .union vs) ∨ (∀ vs, S.apply b ≠ .union vs) → RelatedUnder a b S

/-- A part of a run, from what was found before it: what is found is in solved form, and leads to
something. -/
structure Finds (row : Int → Prop) (s : Subst) (given shown : Subst → Prop) (Q : Int → Prop)
    (s' : Subst) : Prop where
  solved : (structuralTypes row).Solved Q s'
  leads : Leads row s s' given shown

/-- Relating two types, if they are firm, finds what makes them related. -/
def Sound (row : Int → Prop) (rel : Relation) : Prop :=
  ∀ {P : Int → Prop} {n : Nat} {p : Progress} {a b : Ty}, (structuralTypes row).Started P n →
    n ≤ p.supply.count → (structuralTypes row).Sees P n p a → (structuralTypes row).Sees P n p b →
    TracedOk P n (Finds row .empty (fun S => a.Firm S ∧ b.Firm S) (RelatedUnder a b)) (rel a b) p

/-- Relating two types, if they are firm, shows something about them. -/
def Establishes (row : Int → Prop) (about : Ty → Ty → Subst → Prop) (rel : Relation) : Prop :=
  ∀ {P : Int → Prop} {n : Nat} {p : Progress} {a b : Ty}, (structuralTypes row).Started P n →
    n ≤ p.supply.count → (structuralTypes row).Sees P n p a → (structuralTypes row).Sees P n p b →
    TracedOk P n (Finds row .empty (fun S => a.Firm S ∧ b.Firm S) (about a b)) (rel a b) p

/-- What is shown about types under a substitution is true of the types. -/
def Lasts (row : Int → Prop) (about : Ty → Ty → Subst → Prop) : Prop :=
  ∀ {S s : Subst} {a b : Ty}, S.Structural row → s.Structural row → S.Extends s →
    a.Structural row → b.Structural row → about (s.apply a) (s.apply b) S → about a b S

/-- What was shown of types under what was found by then holds of the types. -/
theorem RelatedUnder.of_apply (hS : S.Structural row) (hs : s.Structural row) (hext : S.Extends s)
    (ha : a.Structural row) (hb : b.Structural row)
    (h : RelatedUnder (s.apply a) (s.apply b) S) : RelatedUnder a b S :=
  Related.congr h ((ha.apply hs).apply hS).tame ((hb.apply hs).apply hS).tame (ha.apply hS).tame
    (hb.apply hS).tame (hext.form_apply_apply hS hs ha) (hext.form_apply_apply hS hs hb)

theorem lasts_relatedUnder : Lasts row RelatedUnder := RelatedUnder.of_apply

variable (st : (structuralTypes row).Started P n)

include st

/-- What is found for types under a substitution, going on from it. -/
theorem finds_resume (hn : n ≤ p.supply.count) (hs : (structuralTypes row).Has P n p s)
    {given' : Subst → Prop} {m : Relate Subst}
    (h : TracedOk (Grammar.Remaining P n p s) p.supply.count (Finds row .empty given' shown) m p)
    (hgiven : ∀ {S : Subst}, S.Structural row → S.Extends s → s.Firm S → given S → given' S) :
    TracedOk P n (fun Q next => Finds row s given shown Q (next.after s)) m p :=
  Grammar.tracedOk_resume h fun _ _ hq hnext =>
    ⟨hs.resume st hn hq hnext.solved, .after (hs.later hq) hnext.solved
      (hs.apart st.older hn hnext.solved) hnext.leads hgiven⟩

/-- Relating two types under a substitution shows of the types what relating them shows. -/
theorem Establishes.next (hrel : Establishes row about rel) (hlasts : Lasts row about)
    (hn : n ≤ p.supply.count) (hs : (structuralTypes row).Has P n p s)
    (ha : (structuralTypes row).Sees P n p a) (hb : (structuralTypes row).Sees P n p b)
    (hgiven : ∀ {S}, given S → a.Firm S ∧ b.Firm S) :
    TracedOk P n (fun Q next => Finds row s given (about a b) Q (next.after s))
      (rel (s.apply a) (s.apply b)) p := by
  have hgiven' : ∀ {S : Subst}, S.Structural row → S.Extends s → s.Firm S → given S →
      (s.apply a).Firm S ∧ (s.apply b).Firm S := fun hS hext hfirm hg =>
    ⟨(hgiven hg).1.apply hS hs.structural hext hfirm ha.ok,
      (hgiven hg).2.apply hS hs.structural hext hfirm hb.ok⟩
  have hfinds := finds_resume st hn hs
    (hrel (st.resume hn) (Nat.le_refl _) (ha.resume hs) (hb.resume hs)) hgiven'
  refine hfinds.weaken fun Q next h => ⟨h.solved, h.leads.mono id fun hS hext _ hshown => ?_⟩
  exact hlasts hS hs.structural (h.leads.before hS hext) ha.ok hb.ok hshown

theorem Establishes.thread (hrel : Establishes row about rel) (hlasts : Lasts row about) :
    ∀ {pairs : List (Ty × Ty)} {s : Subst} {p : Progress}, n ≤ p.supply.count →
    (∀ pair ∈ pairs,
      (structuralTypes row).Sees P n p pair.1 ∧ (structuralTypes row).Sees P n p pair.2) →
    (structuralTypes row).Has P n p s →
    (∀ {S}, given S → ∀ pair ∈ pairs, pair.1.Firm S ∧ pair.2.Firm S) →
    TracedOk P n (Finds row s given fun S => ∀ pair ∈ pairs, about pair.1 pair.2 S)
      (thread rel pairs s) p
  | [], s, p, _, _, hs, _ => tracedOk_pure ⟨hs, .refl fun _ _ _ => List.forall_mem_nil _⟩
  | (a, b) :: pairs, s, p, hn, h, hs, hgiven => by
      obtain ⟨ha, hb⟩ := h (a, b) List.mem_cons_self
      rw [Relate.thread]
      refine (hrel.next st hlasts hn hs ha hb fun hg => hgiven hg _ List.mem_cons_self).bind
        fun next q hq hnext => ?_
      have hrest := hrel.thread hlasts (Nat.le_trans hn hq) (fun pair hpair => by
          obtain ⟨h₁, h₂⟩ := h pair (List.mem_cons_of_mem _ hpair)
          exact ⟨h₁.later hq, h₂.later hq⟩) hnext.solved
        fun hg pair hpair => hgiven hg pair (List.mem_cons_of_mem _ hpair)
      exact hrest.weaken fun Q s' h => ⟨h.solved, (hnext.leads.trans h.leads).mono id
        fun _ _ _ hboth => List.forall_mem_cons.2 hboth⟩

theorem Sound.next (hrel : Sound row rel) (hn : n ≤ p.supply.count)
    (hs : (structuralTypes row).Has P n p s) (ha : (structuralTypes row).Sees P n p a)
    (hb : (structuralTypes row).Sees P n p b) (hgiven : ∀ {S}, given S → a.Firm S ∧ b.Firm S) :
    TracedOk P n (fun Q next => Finds row s given (RelatedUnder a b) Q (next.after s))
      (rel (s.apply a) (s.apply b)) p :=
  Establishes.next st hrel lasts_relatedUnder hn hs ha hb hgiven

theorem finds_thread (hrel : Sound row rel) {pairs : List (Ty × Ty)} (hn : n ≤ p.supply.count)
    (h : ∀ pair ∈ pairs,
      (structuralTypes row).Sees P n p pair.1 ∧ (structuralTypes row).Sees P n p pair.2)
    (hs : (structuralTypes row).Has P n p s)
    (hgiven : ∀ {S}, given S → ∀ pair ∈ pairs, pair.1.Firm S ∧ pair.2.Firm S) :
    TracedOk P n (Finds row s given fun S => ∀ pair ∈ pairs, RelatedUnder pair.1 pair.2 S)
      (thread rel pairs s) p :=
  Establishes.thread st hrel lasts_relatedUnder hn h hs hgiven

/-! ## Alternatives -/

/-- What is related to an alternative is related to the union, if they do not both become unions. -/
theorem finds_alternative (hunify : Sound row unify) (hn : n ≤ p.supply.count)
    (ht : (structuralTypes row).Sees P n p t) {us : List Ty}
    (hus : (structuralTypes row).Sees P n p (.union us)) :
    TracedOk P n (Finds row .empty (fun S => t.Firm S ∧ (Ty.union us).Firm S)
      (RelatedUnless t (.union us))) (absorb ctx unify t us) p := by
  have hfirst : Traced P n (fun Q o => ∀ s, o = some s → ∃ u ∈ us,
      Finds row .empty (fun S => t.Firm S ∧ u.Firm S) (RelatedUnder t u) Q s)
      (firstOf (unify t) us) p := traced_firstOf fun u hu q hq =>
    (hunify st (Nat.le_trans hn hq) (ht.later hq) ((hus.union u hu).later hq)).weaken
      fun _ _ h => ⟨u, hu, h⟩
  unfold absorb
  refine hfirst.lift.bind fun o q hq ho => ?_
  cases o with
  | none => exact tracedOk_throw
  | some s =>
      obtain ⟨u, hu, hfinds⟩ := ho s rfl
      refine tracedOk_pure ⟨hfinds.solved, ⟨hfinds.leads.before, fun {S} hS hext hfirm hg => ?_⟩⟩
      have hufirm : u.Firm S := by
        cases hg.2 with
        | union hall _ => exact hall u hu
      obtain ⟨hfirm', hrelated⟩ := hfinds.leads.holds hS hext hfirm ⟨hg.1, hufirm⟩
      refine ⟨hfirm', fun hne => ?_⟩
      rcases hne with hne | hne
      · exact Related.apply_union hS (ht.ok.apply hS) hne hus.ok hu hrelated
      · have htS := (ht.ok.apply hS).tame
        exact hrelated.congr htS ((hus.union u hu).ok.apply hS).tame htS (hus.ok.apply hS).tame rfl
          (Related.form_apply_alternative hS hus.ok hg.2 hne hu)

theorem finds_absorb (hunify : Sound row unify) (hn : n ≤ p.supply.count)
    (ht : (structuralTypes row).Sees P n p t) {us : List Ty}
    (hus : (structuralTypes row).Sees P n p (.union us)) :
    TracedOk P n (Finds row .empty
      (fun S => (t.Firm S ∧ (Ty.union us).Firm S) ∧ ∀ vs, S.apply t ≠ .union vs)
      (RelatedUnder t (.union us))) (absorb ctx unify t us) p :=
  (finds_alternative st hunify hn ht hus).weaken fun _ _ h =>
    ⟨h.solved, h.leads.mono And.left fun _ _ hg hrelated => hrelated (.inl hg.2)⟩

/-- Each of some types other than unions is related to the union that they are absorbed by, as far
as they do not become unions either. -/
theorem finds_absorbAll (hunify : Sound row unify) {target : Ty} : ∀ {ts : List Ty} {s : Subst}
    {p : Progress}, n ≤ p.supply.count → (structuralTypes row).Sees P n p target →
    (∀ t ∈ ts, (structuralTypes row).Sees P n p t) → (structuralTypes row).Has P n p s →
    (∀ {S}, given S → target.Firm S ∧ ∀ t ∈ ts, t.Firm S ∧ ∀ vs, S.apply t ≠ .union vs) →
    TracedOk P n (Finds row s given fun S => ∀ t ∈ ts, RelatedUnder t target S)
      (absorbAll ctx unify target ts s) p
  | [], s, p, _, _, _, hs, _ => tracedOk_pure ⟨hs, .refl fun _ _ _ => List.forall_mem_nil _⟩
  | t :: ts, s, p, hn, htarget, hts, hs, hgiven => by
      have ht := hts t List.mem_cons_self
      have hrest : ∀ (next : Subst) (q : Progress), p.supply.count ≤ q.supply.count →
          Finds row s given (RelatedUnder t target) (Known P n q.supply.count) (next.after s) →
          TracedOk P n (Finds row s given fun S => ∀ t' ∈ t :: ts, RelatedUnder t' target S)
            (absorbAll ctx unify target ts (next.after s)) q := fun next q hq hnext => by
        have hfinds := finds_absorbAll hunify (Nat.le_trans hn hq) (htarget.later hq)
          (fun t ht => (hts t (List.mem_cons_of_mem _ ht)).later hq) hnext.solved fun hg =>
            ⟨(hgiven hg).1, fun t ht => (hgiven hg).2 t (List.mem_cons_of_mem _ ht)⟩
        exact hfinds.weaken fun Q s' h => ⟨h.solved, (hnext.leads.trans h.leads).mono id
          fun _ _ _ hboth => List.forall_mem_cons.2 hboth⟩
      rw [absorbAll]
      split
      · next us hus =>
          have htarget' := htarget.resume hs
          rw [hus] at htarget'
          have hnext : TracedOk P n (fun Q next =>
              Finds row s given (RelatedUnder t target) Q (next.after s))
              (absorb ctx unify (s.apply t) us) p := by
            refine (finds_resume st hn hs (finds_absorb (st.resume hn) hunify (Nat.le_refl _)
              (ht.resume hs) htarget') fun hS hext hfirm hg => ?_).weaken
              fun Q next h => ⟨h.solved, h.leads.mono id fun hS hext _ hrelated => ?_⟩
            · obtain ⟨hfirmu, hall⟩ := hgiven hg
              obtain ⟨hfirmt, hne⟩ := hall t List.mem_cons_self
              refine ⟨⟨hfirmt.apply hS hs.structural hext hfirm ht.ok,
                hus ▸ hfirmu.apply hS hs.structural hext hfirm htarget.ok⟩, ?_⟩
              have hform := hext.form_apply_apply hS hs.structural ht.ok
              have htame := ((ht.ok.apply hs.structural).apply hS).tame
              exact ne_union_of_equiv (ht.ok.apply hS).tame htame
                ((form_eq_iff (ht.ok.apply hS).tame htame).1 hform.symm) hne
            · rw [← hus] at hrelated
              exact hrelated.of_apply hS hs.structural (h.leads.before hS hext) ht.ok htarget.ok
          exact hnext.bind hrest
      · refine (hunify.next st hn hs ht htarget fun hg => ?_).bind hrest
        exact ⟨((hgiven hg).2 t List.mem_cons_self).1, (hgiven hg).1⟩

theorem finds_unifyUnions (hunify : Sound row unify) (hn : n ≤ p.supply.count) {ts us : List Ty}
    (hts : (structuralTypes row).Sees P n p (.union ts))
    (hus : (structuralTypes row).Sees P n p (.union us)) :
    TracedOk P n (Finds row .empty (fun S => (Ty.union ts).Firm S ∧ (Ty.union us).Firm S)
      (RelatedUnder (.union ts) (.union us))) (unifyUnions ctx unify ts us) p := by
  have hparts : ∀ {vs : List Ty} {S : Subst}, (Ty.union vs).Structural row → (Ty.union vs).Firm S →
      ∀ v ∈ vs, v.Firm S ∧ ∀ ws, S.apply v ≠ .union ws := fun hvs hfirm v hv => by
    refine ⟨?_, hfirm.apply_ne_union hvs hv⟩
    cases hfirm with
    | union hall _ => exact hall v hv
  refine tracedOk_orElseThrow ?_ _
  have hleft : ∀ {S : Subst}, (Ty.union ts).Firm S ∧ (Ty.union us).Firm S →
      (Ty.union us).Firm S ∧ ∀ t ∈ ts, t.Firm S ∧ ∀ vs, S.apply t ≠ .union vs :=
    fun hg => ⟨hg.2, hparts hts.ok hg.1⟩
  have hright : ∀ {S : Subst}, (Ty.union ts).Firm S ∧ (Ty.union us).Firm S →
      (Ty.union ts).Firm S ∧ ∀ u ∈ us, u.Firm S ∧ ∀ vs, S.apply u ≠ .union vs :=
    fun hg => ⟨hg.1, hparts hus.ok hg.2⟩
  refine (finds_absorbAll st hunify hn hus hts.union Grammar.solved_empty hleft).bind
    fun s q hq hs => ?_
  refine (finds_absorbAll st hunify (Nat.le_trans hn hq) (hts.later hq)
    (fun u hu => (hus.union u hu).later hq) hs.solved hright).weaken fun Q s' h => ⟨h.solved, ?_⟩
  refine (hs.leads.trans h.leads).mono id fun hS _ hg hboth => ?_
  exact Related.apply_unions hS hts.ok hus.ok (fun t ht => hg.1.apply_ne_union hts.ok ht)
    (fun u hu => hg.2.apply_ne_union hus.ok hu) hboth.1 hboth.2

/-! ## Records -/

/-- What stands behind a row is some fields, and what stands behind another row or nothing. -/
def TakesIn (v : TyVar) (fs : List (String × Ty)) (rest : Option TyVar) (S : Subst) : Prop :=
  (S.behind (some v)).rowId = (S.behind rest).rowId ∧ ∀ name, (S.behind (some v)).formAt name =
    ((Table.get? name fs).map fun t => (S.apply t).form).or ((S.behind rest).formAt name)

omit st in
/-- A row that takes fields in has them in the end. -/
theorem leads_grown {v : TyVar} {fs : List (String × Ty)} {rest : Option TyVar}
    (hs : (structuralTypes row).Solved Q s)
    (h : (structuralTypes row).Grown s v (.record fs rest) Q' s') (hv : row v.id)
    (hgiven : ∀ {S : Subst}, S.Structural row → S.Extends s → s.Firm S → given S →
      ∀ f ∈ fs, f.2.Firm S) : Leads row s s' given (TakesIn v fs rest) := by
  have hget : (Subst.single v (.record fs rest)).get? v.id = some (.record fs rest) := by
    rw [Subst.get?_single, if_pos rfl]
    rfl
  rw [h.eq]
  have hbound : Leads row .empty (.single v (.record fs rest)) (fun S => ∀ f ∈ fs, f.2.Firm S)
      (TakesIn v fs rest) := by
    refine ⟨fun _ _ => ?_, fun {S} hS hext _ hfirm => ⟨?_, ?_⟩⟩
    · intro id u hu
      simp at hu
    · intro id u hu
      rw [Subst.get?_single] at hu
      split at hu
      · obtain ⟨rfl, -⟩ := Subst.held_eq_some hu
        exact .record rest hfirm
      · cases hu
    · have hbehind := hext.behind hS h.bound.structural (v := some v) (by rintro w ⟨⟩; exact hv)
      rw [Subst.behind_of_bound hget] at hbehind
      exact hbehind
  exact hbound.after hs h.bound h.apart hgiven

variable {ra rb : RecordTy}

omit st in
theorem structural_own (h : ra.toTy.Structural row) : ∀ f ∈ ra.own rb, f.2.Structural row := by
  cases h with
  | record _ hfs _ => exact fun f hf => hfs f (List.mem_filter.1 hf).1

omit st in
theorem ascending_of_structural (h : ra.toTy.Structural row) : Table.Ascending ra.fields := by
  cases h with
  | record hasc _ _ => exact hasc

/-- A row takes in the fields that only the other record has. -/
theorem finds_extendRow (hn : n ≤ p.supply.count) (hs : (structuralTypes row).Has P n p s)
    {v : TyVar} {rest : Option TyVar} (hb : (structuralTypes row).Sees P n p rb.toTy)
    (hv : Grammar.Remaining P n p s v.id ∧ row v.id)
    (hrest : ∀ w, rest = some w → Grammar.Remaining P n p s w.id ∧ row w.id) :
    TracedOk P n (fun Q s' =>
        Finds row s (fun S => rb.toTy.Firm S) (TakesIn v (rb.own ra) rest) Q s' ∧
          ∀ id, id ≠ v.id → s.get? id = none → s'.get? id = none)
      (extendRow ctx s v (rb.pick s (Text.Names.diff rb.names ra.names)) rest) p := by
  refine (Grammar.grown_extendRow st hn hs hv
    (Grammar.within_picked hb hs _ hrest)).weaken fun Q s' h => ⟨⟨h.solved, ?_⟩, h.keeps⟩
  rw [RecordTy.pick_diff (ascending_of_structural hb.ok)] at h
  have hown : ∀ f ∈ rb.own ra, f.2.Structural row := structural_own hb.ok
  have hleads : Leads row s s' (fun S => rb.toTy.Firm S)
      (TakesIn v ((rb.own ra).map fun f => (f.1, s.apply f.2)) rest) := by
    refine leads_grown hs h hv.2 fun {S} hS hext hfirm hg => List.forall_mem_map.2 fun f hf => ?_
    cases hg with
    | record _ hfs =>
        exact (hfs f (List.mem_filter.1 hf).1).apply hS hs.structural hext hfirm (hown f hf)
  refine hleads.mono id fun hS hext _ htakes => ⟨htakes.1, fun name => ?_⟩
  rw [htakes.2, Table.get?_map]
  cases hf : Table.get? name (rb.own ra) with
  | none => rfl
  | some t =>
      have hform := (hleads.before hS hext).form_apply_apply hS hs.structural
        (hown _ (Table.mem_of_get? hf))
      simp only [Option.map_some, hform]

omit st in
/-- Records without fields of their own, of which the rows are one or both are closed. -/
theorem sameRest_of_nil (ha : ra.own rb = []) (hb : rb.own ra = [])
    (hrow : ra.row.map TyVar.id = rb.row.map TyVar.id) : S.SameRest ra rb := by
  obtain ⟨hid, hfields⟩ := Subst.behind_congr (S := S) hrow
  refine ⟨hid, fun name => ?_⟩
  rw [ha, hb, RecordTy.formAt, RecordTy.formAt, RecordTy.field?, RecordTy.field?, hfields]

omit st in
/-- A row behind no fields of its own record takes in those of a closed one. -/
theorem sameRest_of_takesIn {v : TyVar} (ha : ra.own rb = []) (hrow : ra.row = some v)
    (h : TakesIn v (rb.own ra) rb.row S) : S.SameRest ra rb := by
  refine ⟨by rw [hrow]; exact h.1, fun name => ?_⟩
  rw [hrow, h.2 name, ha]
  rfl

omit st in
/-- Two rows take in each other's fields, and stand for the same behind them. -/
theorem sameRest_of_both {v w : TyVar} {rest : Option TyVar} (hrowA : ra.row = some v)
    (hrowB : rb.row = some w) (h : TakesIn v (rb.own ra) rest S)
    (h' : TakesIn w (ra.own rb) rest S) : S.SameRest ra rb := by
  refine ⟨by rw [hrowA, hrowB]; exact h.1.trans h'.1.symm, fun name => ?_⟩
  rw [hrowA, hrowB, h.2 name, h'.2 name, RecordTy.get?_own, RecordTy.get?_own]
  -- A name that only one record has is not among what is left of the other.
  cases hfa : ra.field? name <;> cases hfb : rb.field? name <;> simp

theorem finds_unifyRows (hn : n ≤ p.supply.count) (hs : (structuralTypes row).Has P n p s)
    (ha : (structuralTypes row).Sees P n p ra.toTy) (hb : (structuralTypes row).Sees P n p rb.toTy)
    (hfreeA : RowFree s ra) (hfreeB : RowFree s rb) :
    TracedOk P n (Finds row s (fun S => ra.toTy.Firm S ∧ rb.toTy.Firm S) (fun S => S.SameRest ra rb))
      (unifyRows ctx s ra rb (Text.Names.diff ra.names rb.names)
        (Text.Names.diff rb.names ra.names)) p := by
  unfold unifyRows
  split
  · next hrowA hrowB =>
      rw [rowUnder_eq hfreeA] at hrowA
      rw [rowUnder_eq hfreeB] at hrowB
      split
      · next hempty =>
          obtain ⟨hA, hB⟩ := (Bool.and_eq_true _ _).mp hempty
          exact tracedOk_pure ⟨hs, .refl fun _ _ _ => sameRest_of_nil (RecordTy.own_eq_nil hA)
            (RecordTy.own_eq_nil hB) (by rw [hrowA, hrowB])⟩
      · exact tracedOk_throw
  · next v hrowA hrowB =>
      have hv := Grammar.left_rowUnder ha hs hrowA
      rw [rowUnder_eq hfreeA] at hrowA
      rw [rowUnder_eq hfreeB] at hrowB
      split
      · next hempty =>
          refine (finds_extendRow st hn hs hb hv (by rintro w ⟨⟩)).weaken fun Q s' h => ?_
          refine ⟨h.1.solved, h.1.leads.mono And.right fun _ _ _ htakes => ?_⟩
          exact sameRest_of_takesIn (RecordTy.own_eq_nil hempty) hrowA (hrowB ▸ htakes)
      · exact tracedOk_throw
  · next v hrowA hrowB =>
      have hv := Grammar.left_rowUnder hb hs hrowB
      rw [rowUnder_eq hfreeA] at hrowA
      rw [rowUnder_eq hfreeB] at hrowB
      split
      · next hempty =>
          refine (finds_extendRow st hn hs ha hv (by rintro w ⟨⟩)).weaken fun Q s' h => ?_
          refine ⟨h.1.solved, h.1.leads.mono And.left fun _ _ _ htakes => ?_⟩
          exact (sameRest_of_takesIn (RecordTy.own_eq_nil hempty) hrowB (hrowA ▸ htakes)).symm
      · exact tracedOk_throw
  · next v w hrowA hrowB =>
      have hv := Grammar.left_rowUnder ha hs hrowA
      have hw := Grammar.left_rowUnder hb hs hrowB
      rw [rowUnder_eq hfreeA] at hrowA
      rw [rowUnder_eq hfreeB] at hrowB
      split
      · next hid =>
          split
          · next hempty =>
              obtain ⟨hA, hB⟩ := (Bool.and_eq_true _ _).mp hempty
              exact tracedOk_pure ⟨hs, .refl fun _ _ _ => sameRest_of_nil (RecordTy.own_eq_nil hA)
                (RecordTy.own_eq_nil hB) (by rw [hrowA, hrowB]; exact congrArg some hid)⟩
          · exact tracedOk_throw
      · next hid =>
          refine (Grammar.solved_fresh st hn hs _).bind fun rest q hq hrest => ?_
          obtain ⟨hleft, hisRow, hnew⟩ := hrest
          have hs' := hs.later hq
          have hother : rest.id ≠ v.id := by
            have := st.known_le hn hv.1.1
            omega
          refine (finds_extendRow st (Nat.le_trans hn hq) hs' (hb.later hq)
            ⟨⟨Known.mono hq _ hv.1.1, hv.1.2⟩, hv.2⟩
            (by rintro w ⟨⟩; exact ⟨hleft, hisRow⟩)).bind fun s₁ q' hq' hfirst => ?_
          obtain ⟨hfirst, hkeeps⟩ := hfirst
          have hall := Nat.le_trans hq hq'
          refine (finds_extendRow st (Nat.le_trans hn hall) hfirst.solved (ha.later hall)
            ⟨⟨Known.mono hall _ hw.1.1, hkeeps _ (fun heq => hid heq.symm) hw.1.2⟩, hw.2⟩
            ?_).weaken fun Q s₂ h => ?_
          · rintro w ⟨⟩
            exact ⟨⟨Known.mono hq' _ hleft.1, hkeeps _ hother hleft.2⟩, hisRow⟩
          · refine ⟨h.1.solved, ?_⟩
            refine ((hfirst.leads.mono And.right fun _ _ _ h => h).trans
              (h.1.leads.mono And.left fun _ _ _ h => h)).mono id fun _ _ _ hboth => ?_
            exact sameRest_of_both hrowA hrowB hboth.1 hboth.2

theorem finds_unifyRecords (hunify : Sound row unify) (hn : n ≤ p.supply.count)
    (ha : (structuralTypes row).Sees P n p ra.toTy)
    (hb : (structuralTypes row).Sees P n p rb.toTy) :
    TracedOk P n (Finds row .empty (fun S => ra.toTy.Firm S ∧ rb.toTy.Firm S)
      (RelatedUnder ra.toTy rb.toTy)) (unifyRecords ctx unify ra rb) p := by
  have hshared : ∀ {S : Subst}, ra.toTy.Firm S ∧ rb.toTy.Firm S →
      ∀ pair ∈ ra.sharedFields rb, pair.1.Firm S ∧ pair.2.Firm S := by
    rintro S ⟨hfirmA, hfirmB⟩ pair hpair
    obtain ⟨name, hA, hB⟩ := RecordTy.mem_sharedFields.1 hpair
    cases hfirmA with
    | record _ hA' =>
        cases hfirmB with
        | record _ hB' => exact ⟨hA' _ (Table.mem_of_get? hA), hB' _ (Table.mem_of_get? hB)⟩
  unfold unifyRecords
  refine (finds_thread st hunify hn (Grammar.sees_sharedFields ha hb) Grammar.solved_empty
    hshared).bind fun s q hq hs => ?_
  have hn' := Nat.le_trans hn hq
  split
  · refine (hunify.next st hn' hs.solved (ha.later hq) (hb.later hq) id).bind
      fun next q' _ hnext => tracedOk_pure ⟨hnext.solved, ?_⟩
    exact (hs.leads.trans hnext.leads).mono id fun _ _ _ hboth => hboth.2
  · next hgrows =>
      rw [Bool.or_eq_true, not_or] at hgrows
      refine (finds_unifyRows st hn' hs.solved (ha.later hq) (hb.later hq)
        (hs.solved.structural.rowFree ha.ok hgrows.1)
        (hs.solved.structural.rowFree hb.ok hgrows.2)).weaken fun Q s' h => ⟨h.solved, ?_⟩
      refine (hs.leads.trans h.leads).mono id fun hS _ _ hboth => ?_
      exact Related.apply_records hS ha.ok hb.ok hboth.1 hboth.2

/-! ## Unification -/

omit st in
/-- An unknown that is bound to a type is equivalent to it in the end. -/
theorem finds_bindVar {v : TyVar} (hv : (structuralTypes row).Sees P n p (.var v))
    (ht : (structuralTypes row).Sees P n p t) :
    TracedOk P n (Finds row .empty (fun S => t.Firm S) (RelatedUnder (.var v) t))
      (bindVar ctx v t) p := by
  have hsingle : ¬ t.Mentions v.id → Finds row .empty (fun S => t.Firm S)
      (RelatedUnder (.var v) t) (Known P n p.supply.count) (.single v t) := fun hoccurs => by
    refine ⟨Grammar.solved_single hv.var.1 ht hoccurs fun hrow => absurd hrow hv.var.2,
      ⟨fun _ _ id u hu => by simp at hu, fun {S} hS hext _ hfirm => ⟨?_, ?_⟩⟩⟩
    · intro id u hu
      obtain ⟨-, rfl⟩ := Subst.eq_of_get?_single hu
      exact hfirm
    · have hbound : (Subst.single v t).get? v.id = some t := by
        rw [Subst.get?_single, if_pos rfl, Subst.held_of_ne]
        rintro w rfl hid
        exact hoccurs (mentions_var.2 hid)
      obtain ⟨u, hu, hform⟩ := hext v.id t hbound
      rw [RelatedUnder, Subst.apply_var, hu]
      exact Related.of_form (hS.ok _ _ hu).tame (ht.ok.apply hS).tame hform
  unfold bindVar
  split
  · next w =>
      split
      · next hid =>
          refine tracedOk_pure ⟨Grammar.solved_empty, .refl fun {S} hS _ _ => ?_⟩
          have hform : (Ty.var v).form = (Ty.var w).form := form_var.2 hid.symm
          exact Related.of_form (hv.ok.apply hS).tame (ht.ok.apply hS).tame
            (form_apply_congr hS hv.ok ht.ok hform)
      · next hid => exact tracedOk_pure (hsingle (by simpa using hid))
  · split
    · exact tracedOk_throw
    · next hoccurs => exact tracedOk_pure (hsingle fun h => hoccurs (occurs_iff_mentions.2 h))

omit st in
theorem RelatedUnder.symm (h : RelatedUnder a b S) : RelatedUnder b a S := Related.symm h

omit st in
/-- What makes types related makes them related the other way round. -/
theorem Finds.swap {Q : Int → Prop} {given' : Subst → Prop} (h : Finds row s given (RelatedUnder a b) Q s')
    (hgiven : ∀ {S}, given' S → given S) : Finds row s given' (RelatedUnder b a) Q s' :=
  ⟨h.solved, h.leads.mono hgiven fun _ _ _ h => h.symm⟩

omit st in
/-- Nothing has to be found for types that are related as they are. -/
theorem tracedOk_empty (h : ∀ {S : Subst}, S.Structural row → given S → shown S) :
    TracedOk P n (Finds row .empty given shown) (pure .empty) p :=
  tracedOk_pure ⟨Grammar.solved_empty, .refl fun hS _ => h hS⟩

/-- A type that a union absorbs is related to it. -/
theorem finds_absorbed (hunify : Sound row unify) (hn : n ≤ p.supply.count)
    (ht : (structuralTypes row).Sees P n p t) {us : List Ty}
    (hus : (structuralTypes row).Sees P n p (.union us)) (hvar : ∀ v, t ≠ .var v)
    (hunion : ∀ vs, t ≠ .union vs) :
    TracedOk P n (Finds row .empty (fun S => t.Firm S ∧ (Ty.union us).Firm S)
      (RelatedUnder t (.union us))) (absorb ctx unify t us) p :=
  (finds_absorb st hunify hn ht hus).weaken fun _ _ h => ⟨h.solved, h.leads.mono
    (fun hg => ⟨hg, (ht.ok.apply_shape hvar hunion).2⟩) fun _ _ _ h => h⟩

theorem finds_unifyShapes (hunify : Sound row unify) (hn : n ≤ p.supply.count)
    (ha : (structuralTypes row).Sees P n p a) (hb : (structuralTypes row).Sees P n p b)
    (hvarA : ∀ v, a ≠ .var v) (hvarB : ∀ v, b ≠ .var v) :
    TracedOk P n (Finds row .empty (fun S => a.Firm S ∧ b.Firm S) (RelatedUnder a b))
      (unifyShapes ctx unify a b) p := by
  unfold unifyShapes
  split
  · exact finds_unifyUnions st hunify hn ha hb
  · next hunion => exact finds_absorbed st hunify hn ha hb hvarA hunion
  · cases hb.ok
  · next hunion _ =>
      exact (finds_absorbed st hunify hn hb ha hvarB hunion).weaken fun _ _ h => h.swap And.symm
  · cases ha.ok
  · next value =>
      refine tracedOk_empty fun {S} _ _ => ?_
      rw [RelatedUnder, Subst.apply_prim, Subst.apply_lit]
      exact (widening_related.literal value).symm
  · next value =>
      refine tracedOk_empty fun {S} _ _ => ?_
      rw [RelatedUnder, Subst.apply_prim, Subst.apply_lit]
      exact widening_related.literal value
  · next pa ra pb rb =>
      have hpart : ∀ {S : Subst}, (Ty.fn pa ra).Firm S ∧ (Ty.fn pb rb).Firm S →
          ∀ pair ∈ [(pa, pb), (ra, rb)], pair.1.Firm S ∧ pair.2.Firm S := by
        rintro S ⟨hA, hB⟩
        cases hA with
        | fn hp hr =>
            cases hB with
            | fn hp' hr' => simp [hp, hr, hp', hr']
      refine (finds_thread st hunify hn (by simp [ha.fn, hb.fn]) Grammar.solved_empty hpart).weaken
        fun _ _ h => ⟨h.solved, h.leads.mono id fun {S} _ _ _ hpairs => ?_⟩
      rw [RelatedUnder, Subst.apply_fn, Subst.apply_fn]
      exact widening_related.fn (hpairs (pa, pb) (by simp)) (hpairs (ra, rb) (by simp))
  · next as bs =>
      split
      · next hlen =>
          have hpart : ∀ {S : Subst}, (Ty.tuple as).Firm S ∧ (Ty.tuple bs).Firm S →
              ∀ pair ∈ as.zip bs, pair.1.Firm S ∧ pair.2.Firm S := by
            rintro S ⟨hA, hB⟩ pair hpair
            obtain ⟨h₁, h₂⟩ := List.of_mem_zip hpair
            cases hA with
            | tuple hA =>
                cases hB with
                | tuple hB => exact ⟨hA _ h₁, hB _ h₂⟩
          refine (finds_thread st hunify hn (fun pair hpair => ?_) Grammar.solved_empty hpart).weaken
            fun _ _ h => ⟨h.solved, h.leads.mono id fun {S} _ _ _ hpairs => ?_⟩
          · obtain ⟨h₁, h₂⟩ := List.of_mem_zip hpair
            exact ⟨Grammar.within_tuple.1 ha _ h₁, Grammar.within_tuple.1 hb _ h₂⟩
          · rw [RelatedUnder, Subst.apply_tuple, Subst.apply_tuple]
            refine widening_related.tuple (List.forall₂_map_left_iff.2
              (List.forall₂_map_right_iff.2 (List.forall₂_iff_zip.2 ⟨hlen, fun hpair => ?_⟩)))
            exact hpairs _ hpair
      · exact tracedOk_throw
  · exact finds_unifyRecords st hunify hn ha hb
  · exact tracedOk_throw

omit st

theorem sound_unifyStep (hunify : Sound row unify) : Sound row (unifyStep ctx unify) := by
  intro P n p a b st hn ha hb
  unfold unifyStep
  split
  · next hequiv =>
      refine tracedOk_empty fun {S} hS _ => ?_
      have hform := form_congr ha.ok.tame hb.ok.tame hequiv
      exact Related.of_form (ha.ok.apply hS).tame (hb.ok.apply hS).tame
        (form_apply_congr hS ha.ok hb.ok hform)
  · split
    · exact (finds_bindVar ha hb).weaken fun _ _ h =>
        ⟨h.solved, h.leads.mono And.right fun _ _ _ h => h⟩
    · exact (finds_bindVar hb ha).weaken fun _ _ h => h.swap And.left
    · next hvarA hvarB =>
        split
        · next hindirect =>
            rw [Bool.or_eq_true] at hindirect
            exfalso
            rcases hindirect with h | h
            · cases ha.ok <;> cases h
            · cases hb.ok <;> cases h
        · exact finds_unifyShapes st hunify hn ha hb hvarA hvarB

/-- Unification makes types related, at every limit. -/
theorem sound_unify : ∀ limit : Nat, Sound row (Relate.unify ctx limit)
  | 0 => fun _ _ _ _ => tracedOk_exceed _ _
  | limit + 1 => sound_unifyStep (sound_unify limit)

end Relate

namespace Session

/-- Unified types are related under what was found, if that binds no unknown to a union that stands
for an alternative of a union in them. -/
theorem related_of_unify {limit : Nat} {span : Span} {isRow : Int → Prop} {a b : Ty} {σ τ : Session}
    {s : Subst} (ha : a.Structural isRow) (hb : b.Structural isRow)
    (hold : ∀ id, a.Mentions id ∨ b.Mentions id → id ≤ σ.supply.count)
    (h : (unify limit span a b).run σ = (.ok s, τ)) (hfirm : a.Firm s ∧ b.Firm s) :
    Related (s.apply a) (s.apply b) := by
  let n := σ.supply.count
  -- Unknowns that are made on the way are rows.
  let row : Int → Prop := fun id => isRow id ∨ (n : Int) < id
  have hrow : ∀ {id}, a.Mentions id ∨ b.Mentions id → (isRow id ↔ row id) := fun {id} hid => by
    have := hold id hid
    exact ⟨.inl, fun h => h.resolve_right (by omega)⟩
  have st : (structuralTypes row).Started (fun id => id ≤ n) n := ⟨fun _ => id, fun _ => .inr⟩
  have hsees : ∀ {t : Ty}, t.Structural isRow → (∀ id, t.Mentions id → a.Mentions id ∨ b.Mentions id) →
      (structuralTypes row).Sees (fun id => id ≤ n) n { supply := σ.supply } t := fun ht hsub =>
    ⟨ht.resort fun id hid => hrow (hsub id hid), fun id hid => .inl (hold id (hsub id hid))⟩
  have hrun : ((Relate.unify { registry := σ.registry, span } limit a b).run
      { supply := σ.supply }).1 = .ok s := congrArg Prod.fst h
  have hsound : Relate.Sound row (Relate.unify ⟨σ.registry, span⟩ limit) := Relate.sound_unify limit
  obtain ⟨-, -, hfound⟩ := hsound st (Nat.le_refl _) (hsees ha fun _ => .inl)
    (hsees hb fun _ => .inr) (Nat.le_refl _) trivial
  have hfinds := hfound s hrun
  have hs := hfinds.solved.structural
  have hext := Subst.extends_self hfinds.solved
  exact (hfinds.leads.holds hs hext (fun _ _ h => by simp at h) hfirm).2

/-- An unknown with a choice between another one and a record of the first. -/
def choice : Ty :=
  .tuple [.var ⟨2, 0⟩, .union [.var ⟨1, 0⟩, .record [("x", .var ⟨2, 0⟩)] none]]

/-- A tag with a choice between strings and a record of a string. -/
def tagged : Ty := .tuple [.lit "a", .union [.string, .record [("x", .string)] none]]

/-- What is found for them: the unknowns are a string and the tag. -/
def taggedChoice : Subst := .ofList [(⟨1, 0⟩, .string), (⟨2, 0⟩, .lit "a")]

theorem structural_choice : choice.Structural fun _ => False := by
  refine .tuple (List.forall_mem_cons.2 ⟨.var id, List.forall_mem_singleton.2 ?_⟩)
  refine .union (by decide) ?_ (by simp) (by simp [Ty.equiv, equivUnder])
  refine List.forall_mem_cons.2 ⟨.var id, List.forall_mem_singleton.2 ?_⟩
  exact .record (List.pairwise_singleton _ _) (List.forall_mem_singleton.2 (.var id)) (by simp)

theorem structural_tagged : tagged.Structural fun _ => False := by
  refine .tuple (List.forall_mem_cons.2 ⟨.lit "a", List.forall_mem_singleton.2 ?_⟩)
  refine .union (by decide) ?_ (by simp [Ty.string]) (by simp [Ty.equiv, equivUnder, Ty.string])
  refine List.forall_mem_cons.2 ⟨.prim "String", List.forall_mem_singleton.2 ?_⟩
  exact .record (List.pairwise_singleton _ _) (List.forall_mem_singleton.2 (.prim _)) (by simp)

/-- The alternative that is an unknown is bound to a primitive type. -/
theorem firm_choice : choice.Firm taggedChoice ∧ tagged.Firm taggedChoice := by
  constructor
  · refine .tuple (List.forall_mem_cons.2 ⟨.var _, List.forall_mem_singleton.2 (.union ?_ ?_)⟩)
    · exact List.forall_mem_cons.2 ⟨.var _, List.forall_mem_singleton.2
        (.record none (List.forall_mem_singleton.2 (.var _)))⟩
    · intro v hv us heq
      obtain rfl : v = ⟨1, 0⟩ := by simpa using hv
      cases heq
  · refine .tuple (List.forall_mem_cons.2 ⟨.lit _, List.forall_mem_singleton.2 (.union ?_ ?_)⟩)
    · exact List.forall_mem_cons.2 ⟨.prim _, List.forall_mem_singleton.2
        (.record none (List.forall_mem_singleton.2 (.prim _)))⟩
    · simp [Ty.string]

/-- The first unknown of the choice is the tag, and the other one is a string. -/
theorem related_choice :
    (choice.Structural (fun _ => False) ∧ tagged.Structural fun _ => False) ∧
    (∀ id, choice.Mentions id ∨ tagged.Mentions id → id ≤ 2) ∧
    (unify defaultLimit {} choice tagged).run { supply := ⟨2⟩ } =
      (.ok taggedChoice, { supply := ⟨2⟩ }) ∧
    (choice.Firm taggedChoice ∧ tagged.Firm taggedChoice) ∧
    Related (taggedChoice.apply choice) (taggedChoice.apply tagged) := by
  have hold : ∀ id, choice.Mentions id ∨ tagged.Mentions id → id ≤ 2 := by
    intro id hid
    have hsome : choice.free.has ⟨id, 0⟩ = true ∨ tagged.free.has ⟨id, 0⟩ = true :=
      hid.imp has_free.2 has_free.2
    rw [show choice.free = [⟨1, 0⟩, ⟨2, 0⟩] by cbv, show tagged.free = [] by cbv] at hsome
    simp [VarSet.has] at hsome
    omega
  have hrun : (unify defaultLimit {} choice tagged).run { supply := ⟨2⟩ } =
      (.ok taggedChoice, { supply := ⟨2⟩ }) := by cbv
  exact ⟨⟨structural_choice, structural_tagged⟩, hold, hrun, firm_choice,
    related_of_unify structural_choice structural_tagged hold hrun firm_choice⟩

end Session

end RowTypes
