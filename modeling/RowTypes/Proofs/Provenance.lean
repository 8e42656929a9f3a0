import RowTypes.Proofs.Occurrences
import RowTypes.Proofs.Runs
import RowTypes.Solver.Join
import RowTypes.Solver.Merge

/-!
# Where unknowns come from

The numbers in what relating types finds occur in what it is given, or are those of unknowns that
were made on the way.  `Traced` says so of a run: it makes unknowns and gives none back, and its
result is made of numbers that were known at the start and of those made since.

The rules for runs follow the ways in which they are put together, and every function that relates
types is traced if the relation it calls further down is.
-/

namespace RowTypes

/-- A number that satisfies a predicate, or was given out between two counts. -/
def Known (P : Int → Prop) (n m : Nat) (id : Int) : Prop := P id ∨ (n < id ∧ id ≤ m)

theorem Known.mono {P : Int → Prop} {n m m' : Nat} (h : m ≤ m') (id : Int) (hid : Known P n m id) :
    Known P n m' id := hid.imp_right fun ⟨hlt, hle⟩ => ⟨hlt, by omega⟩

/-- What a run goes on from: how many unknowns have been given out, and what types are kept. -/
class Holding (S : Type) where
  count : S → Nat
  Over : (Int → Prop) → S → Prop

/-- Relating types keeps no types. -/
instance : Holding Progress := ⟨fun p => p.supply.count, fun _ _ => True⟩

/-- A session keeps the named types. -/
instance : Holding Session := ⟨fun σ => σ.supply.count, fun P σ => σ.registry.Over P⟩

section Runs

variable {S : Type} [Holding S] {α β : Type} {P : Int → Prop} {n : Nat} {σ : S}
  {made : (Int → Prop) → α → Prop} {made' : (Int → Prop) → β → Prop}

open Holding

/-- A run makes unknowns and gives none back, and what it gives is made of numbers that are known
by then. -/
def Traced (P : Int → Prop) (n : Nat) (made : (Int → Prop) → α → Prop) (m : StateM S α) (σ : S) :
    Prop :=
  n ≤ count σ → Over (Known P n (count σ)) σ → count σ ≤ count (m.run σ).2 ∧
    Over (Known P n (count (m.run σ).2)) (m.run σ).2 ∧
    made (Known P n (count (m.run σ).2)) (m.run σ).1

/-- A run that may fail is traced. -/
def TracedOk (P : Int → Prop) (n : Nat) (made : (Int → Prop) → α → Prop)
    (m : ExceptT Diagnostic (StateM S) α) (σ : S) : Prop :=
  Traced P n (fun Q (r : Except Diagnostic α) => ∀ a, r = .ok a → made Q a) m.run σ

theorem traced_pure {a : α} (h : made (Known P n (count σ)) a) :
    Traced P n made (pure a : StateM S α) σ := fun _ hσ => ⟨Nat.le_refl _, hσ, h⟩

theorem Traced.bind {m : StateM S α} {f : α → StateM S β} (h : Traced P n made m σ)
    (hf : ∀ a τ, count σ ≤ count τ → made (Known P n (count τ)) a → Traced P n made' (f a) τ) :
    Traced P n made' (m >>= f) σ := by
  intro hn hσ
  obtain ⟨hcount, hτ, ha⟩ := h hn hσ
  obtain ⟨hcount', hυ, hb⟩ := hf _ _ hcount ha (Nat.le_trans hn hcount) hτ
  exact ⟨Nat.le_trans hcount hcount', hυ, hb⟩

theorem tracedOk_pure {a : α} (h : made (Known P n (count σ)) a) :
    TracedOk P n made (pure a : ExceptT Diagnostic (StateM S) α) σ :=
  traced_pure (by rintro b ⟨⟩; exact h)

theorem tracedOk_throw {e : Diagnostic} :
    TracedOk P n made (throw e : ExceptT Diagnostic (StateM S) α) σ :=
  fun _ hσ => ⟨Nat.le_refl _, hσ, by rintro b ⟨⟩⟩

theorem TracedOk.bind {m : ExceptT Diagnostic (StateM S) α}
    {f : α → ExceptT Diagnostic (StateM S) β} (h : TracedOk P n made m σ)
    (hf : ∀ a τ, count σ ≤ count τ → made (Known P n (count τ)) a → TracedOk P n made' (f a) τ) :
    TracedOk P n made' (m >>= f) σ := by
  unfold TracedOk
  rw [ExceptT.run_bind]
  refine Traced.bind h fun r τ hcount hr => ?_
  cases r with
  | error e => exact traced_pure (by rintro b ⟨⟩)
  | ok a => exact hf a τ hcount (hr a rfl)

/-- A run that cannot fail, among runs that may. -/
theorem Traced.lift {m : StateM S α} (h : Traced P n made m σ) :
    TracedOk P n made (liftM m : ExceptT Diagnostic (StateM S) α) σ := by
  refine Traced.bind h fun a τ _ ha => traced_pure ?_
  rintro b ⟨⟩
  exact ha

theorem TracedOk.ends {m : ExceptT Diagnostic (StateM S) α} (h : TracedOk P n made m σ)
    (hn : n ≤ count σ) (hσ : Over (Known P n (count σ)) σ) :
    Ends m σ (fun a τ => count σ ≤ count τ ∧ Over (Known P n (count τ)) τ ∧
      made (Known P n (count τ)) a) fun _ τ => count σ ≤ count τ ∧ Over (Known P n (count τ)) τ := by
  obtain ⟨hcount, hτ, ha⟩ := h hn hσ
  unfold Ends
  split
  · next a τ heq =>
      have heq' : m.run.run σ = (.ok a, τ) := heq
      rw [heq'] at hcount hτ ha
      exact ⟨hcount, hτ, ha a rfl⟩
  · next e τ heq =>
      have heq' : m.run.run σ = (.error e, τ) := heq
      rw [heq'] at hcount hτ
      exact ⟨hcount, hτ⟩

theorem tracedOk_of_ends {m : ExceptT Diagnostic (StateM S) α}
    (h : n ≤ count σ → Over (Known P n (count σ)) σ →
      Ends m σ (fun a τ => count σ ≤ count τ ∧ Over (Known P n (count τ)) τ ∧
        made (Known P n (count τ)) a) fun _ τ => count σ ≤ count τ ∧
          Over (Known P n (count τ)) τ) : TracedOk P n made m σ := by
  intro hn hσ
  have hends := h hn hσ
  unfold Ends at hends
  show _ ≤ count (m.run σ).2 ∧ Over (Known P n (count (m.run σ).2)) (m.run σ).2 ∧
    ∀ a, (m.run σ).1 = .ok a → made (Known P n (count (m.run σ).2)) a
  generalize m.run σ = out at hends ⊢
  obtain ⟨r, τ⟩ := out
  cases r with
  | ok a => exact ⟨hends.1, hends.2.1, by rintro b ⟨⟩; exact hends.2.2⟩
  | error e => exact ⟨hends.1, hends.2, by rintro b ⟨⟩⟩

end Runs

theorem Ty.Over.later {P : Int → Prop} {n m m' : Nat} {t : Ty} (h : t.Over (Known P n m))
    (hm : m ≤ m') : t.Over (Known P n m') := h.mono (Known.mono hm)

theorem Subst.Over.later {P : Int → Prop} {n m m' : Nat} {s : Subst} (h : s.Over (Known P n m))
    (hm : m ≤ m') : s.Over (Known P n m') := h.mono (Known.mono hm)

namespace Relate

variable {P : Int → Prop} {n : Nat} {p q : Progress} {ctx : Context} {α : Type}
  {made : (Int → Prop) → α → Prop}

/-! ## Steps of relating types -/

theorem tracedOk_fresh (level : Int) : TracedOk P n (fun Q v => Q v.id) (fresh level) p := by
  refine fun hn _ => ⟨Nat.le_succ _, trivial, ?_⟩
  rintro v ⟨⟩
  exact .inr ⟨by have : n ≤ p.supply.count := hn; dsimp only [Supply.fresh]; omega, Int.le_refl _⟩

theorem tracedOk_assume (a b : Ty) : TracedOk P n (fun _ _ => True) (assume a b) p := by
  refine tracedOk_of_ends fun _ _ => ?_
  rw [Ends, run_assume]
  by_cases hassumed : p.assumed.contains (pairDigest a b) = true
  · rw [if_pos hassumed]
    exact ⟨Nat.le_refl _, trivial, trivial⟩
  · rw [if_neg hassumed]
    exact ⟨Nat.le_refl _, trivial, trivial⟩

theorem tracedOk_exceed (a b : Ty) : TracedOk P n made (exceed ctx a b) p :=
  tracedOk_of_ends fun _ _ => ends_exceed ⟨Nat.le_refl _, trivial⟩

theorem tracedOk_orElseThrow {m : Relate α} (h : TracedOk P n made m p)
    (d : Diagnostic → Diagnostic) : TracedOk P n made (orElseThrow m d) p :=
  tracedOk_of_ends fun hn hp => ends_orElseThrow (h.ends hn hp)

/-- What is found by an attempt is made of known numbers. -/
theorem traced_attempt {m : Relate α} (h : TracedOk P n made m p) :
    Traced P n (fun Q o => ∀ a, o = some a → made Q a) (attempt m) p := by
  intro hn hp
  have hends := h.ends hn hp
  unfold Ends at hends
  show _ ≤ Holding.count (attempt m p).2 ∧ True ∧ _
  rw [show (attempt m).run p = attempt m p from rfl, attempt]
  generalize m.run p = out at hends ⊢
  obtain ⟨r, q⟩ := out
  cases r with
  | ok a => exact ⟨hends.1, trivial, by rintro b ⟨⟩; exact hends.2.2⟩
  | error e => exact ⟨hends.1, trivial, by rintro b ⟨⟩⟩

theorem traced_firstOf {m : Ty → Relate α} : ∀ {ts : List Ty} {p : Progress},
    (∀ t ∈ ts, ∀ q : Progress, p.supply.count ≤ q.supply.count → TracedOk P n made (m t) q) →
      Traced P n (fun Q o => ∀ a, o = some a → made Q a) (firstOf m ts) p
  | [], p, _ => traced_pure (by rintro a ⟨⟩)
  | t :: ts, p, h => by
      rw [firstOf]
      refine (traced_attempt (h t List.mem_cons_self p (Nat.le_refl _))).bind fun o q hq ho => ?_
      cases o with
      | some a =>
          refine traced_pure ?_
          rintro b ⟨⟩
          exact ho a rfl
      | none =>
          exact traced_firstOf fun u hu r hr =>
            h u (List.mem_cons_of_mem _ hu) r (Nat.le_trans hq hr)

theorem tracedOk_expand {name : String} {args : List Ty} (hctx : ctx.registry.Over P)
    (hargs : ∀ t ∈ args, t.Over (Known P n p.supply.count)) :
    TracedOk P n Ty.Over (expand ctx name args) p := by
  unfold expand
  split
  · exact tracedOk_throw
  · next d hd =>
      split
      · next t ht =>
          exact tracedOk_pure
            (Definition.over_expand? ((hctx.lookup? hd).mono fun _ => .inl) hargs ht)
      · exact tracedOk_throw

theorem tracedOk_bindVar (v : TyVar) {t : Ty} (ht : t.Over (Known P n p.supply.count)) :
    TracedOk P n Subst.Over (bindVar ctx v t) p := by
  unfold bindVar
  split
  · split
    · exact tracedOk_pure Subst.over_empty
    · exact tracedOk_pure (Subst.over_single v ht)
  · split
    · exact tracedOk_throw
    · exact tracedOk_pure (Subst.over_single v ht)

/-- A relation is traced wherever it relates types of known numbers. -/
def TracedRel (P : Int → Prop) (n : Nat) (rel : Relation) : Prop :=
  ∀ {p : Progress} {a b : Ty}, a.Over (Known P n p.supply.count) →
    b.Over (Known P n p.supply.count) → TracedOk P n Subst.Over (rel a b) p

variable {rel unify subtype : Relation} {s : Subst}

theorem tracedOk_thread (hrel : TracedRel P n rel) : ∀ {pairs : List (Ty × Ty)} {s : Subst}
    {p : Progress}, (∀ pair ∈ pairs, pair.1.Over (Known P n p.supply.count) ∧
      pair.2.Over (Known P n p.supply.count)) → s.Over (Known P n p.supply.count) →
    TracedOk P n Subst.Over (thread rel pairs s) p
  | [], s, p, _, hs => tracedOk_pure hs
  | (a, b) :: pairs, s, p, h, hs => by
      obtain ⟨ha, hb⟩ := h (a, b) List.mem_cons_self
      rw [thread]
      refine (hrel (hs.apply ha) (hs.apply hb)).bind fun next q hq hnext => ?_
      refine tracedOk_thread hrel (fun pair hpair => ?_) (hnext.after (hs.later hq))
      obtain ⟨h₁, h₂⟩ := h pair (List.mem_cons_of_mem _ hpair)
      exact ⟨h₁.later hq, h₂.later hq⟩

/-! ## Records -/

theorem over_field {r : RecordTy} {Q : Int → Prop} {name : String} {t : Ty} (hr : r.toTy.Over Q)
    (h : r.field? name = some t) : t.Over Q := (Ty.over_record.1 hr).1 _ (Table.mem_of_get? h)

theorem over_pick {r : RecordTy} {Q : Int → Prop} (hr : r.toTy.Over Q) (hs : s.Over Q)
    (names : List String) : ∀ f ∈ r.pick s names, f.2.Over Q := by
  intro f hf
  obtain ⟨name, -, hname⟩ := List.mem_filterMap.1 (Table.mem_ofList hf)
  obtain ⟨t, ht, rfl⟩ := Option.map_eq_some_iff.1 hname
  exact hs.apply (over_field hr ht)

theorem over_sharedFields {a b : RecordTy} {Q : Int → Prop} (ha : a.toTy.Over Q)
    (hb : b.toTy.Over Q) : ∀ pair ∈ a.sharedFields b, pair.1.Over Q ∧ pair.2.Over Q := by
  intro pair hpair
  obtain ⟨name, -, hname⟩ := List.mem_filterMap.1 hpair
  obtain ⟨x, hx, hname⟩ := Option.bind_eq_some_iff.1 hname
  obtain ⟨y, hy, hname⟩ := Option.bind_eq_some_iff.1 hname
  cases hname
  exact ⟨over_field ha hx, over_field hb hy⟩

theorem tracedOk_extendRow {row : TyVar} {fields : List (String × Ty)} {behind : Option TyVar}
    (hs : s.Over (Known P n p.supply.count))
    (h : (Ty.record fields behind).Over (Known P n p.supply.count)) :
    TracedOk P n Subst.Over (extendRow ctx s row fields behind) p :=
  (tracedOk_bindVar row h).bind fun _ _ hq hbound => tracedOk_pure (hbound.after (hs.later hq))

theorem tracedOk_unifyRows {a b : RecordTy} (ha : a.toTy.Over (Known P n p.supply.count))
    (hb : b.toTy.Over (Known P n p.supply.count)) (hs : s.Over (Known P n p.supply.count))
    (onlyA onlyB : List String) :
    TracedOk P n Subst.Over (unifyRows ctx s a b onlyA onlyB) p := by
  have hpick : ∀ {r : RecordTy} (names : List String), r.toTy.Over (Known P n p.supply.count) →
      (Ty.record (r.pick s names) none).Over (Known P n p.supply.count) := fun names hr =>
    Ty.over_record.2 ⟨over_pick hr hs names, by rintro v ⟨⟩⟩
  unfold unifyRows
  split
  · split
    · exact tracedOk_pure hs
    · exact tracedOk_throw
  · split
    · exact tracedOk_extendRow hs (hpick onlyB hb)
    · exact tracedOk_throw
  · split
    · exact tracedOk_extendRow hs (hpick onlyA ha)
    · exact tracedOk_throw
  · split
    · split
      · exact tracedOk_pure hs
      · exact tracedOk_throw
    · -- The one new unknown stands behind both records.
      refine (tracedOk_fresh _).bind fun behind q hq hbehind => ?_
      refine (tracedOk_extendRow (hs.later hq) (Ty.over_record.2 ⟨?_, ?_⟩)).bind
        fun s' q' hq' hs' => tracedOk_extendRow hs' (Ty.over_record.2 ⟨?_, ?_⟩)
      · exact over_pick (hb.later hq) (hs.later hq) onlyB
      · rintro v ⟨⟩
        exact hbehind
      · exact over_pick ((ha.later hq).later hq') hs' onlyA
      · rintro v ⟨⟩
        exact Known.mono hq' _ hbehind

theorem tracedOk_unifyRecords (hunify : TracedRel P n unify) {a b : RecordTy}
    (ha : a.toTy.Over (Known P n p.supply.count)) (hb : b.toTy.Over (Known P n p.supply.count)) :
    TracedOk P n Subst.Over (unifyRecords ctx unify a b) p := by
  unfold unifyRecords
  refine (tracedOk_thread hunify (over_sharedFields ha hb) Subst.over_empty).bind
    fun s q hq hs => ?_
  have ha' := ha.later hq
  have hb' := hb.later hq
  split
  · exact (hunify (hs.apply ha') (hs.apply hb')).bind fun next q' hq' hnext =>
      tracedOk_pure (hnext.after (hs.later hq'))
  · exact tracedOk_unifyRows ha' hb' hs _ _

/-! ## Unification -/

theorem tracedOk_absorb (hunify : TracedRel P n unify) {t : Ty} {alts : List Ty}
    (ht : t.Over (Known P n p.supply.count))
    (halts : ∀ alt ∈ alts, alt.Over (Known P n p.supply.count)) :
    TracedOk P n Subst.Over (absorb ctx unify t alts) p := by
  have hfirst : Traced P n (fun Q o => ∀ s, o = some s → Subst.Over Q s)
      (firstOf (unify t) alts) p := traced_firstOf fun alt halt q hq =>
    hunify (ht.later hq) ((halts alt halt).later hq)
  unfold absorb
  refine hfirst.lift.bind fun o q hq ho => ?_
  cases o with
  | some s => exact tracedOk_pure (ho s rfl)
  | none => exact tracedOk_throw

theorem tracedOk_absorbAll (hunify : TracedRel P n unify) {target : Ty} : ∀ {alts : List Ty}
    {s : Subst} {p : Progress}, target.Over (Known P n p.supply.count) →
    (∀ alt ∈ alts, alt.Over (Known P n p.supply.count)) → s.Over (Known P n p.supply.count) →
    TracedOk P n Subst.Over (absorbAll ctx unify target alts s) p
  | [], s, p, _, _, hs => tracedOk_pure hs
  | alt :: alts, s, p, htarget, halts, hs => by
      have halt := hs.apply (halts alt List.mem_cons_self)
      have htarget' := hs.apply htarget
      have hrest : ∀ (next : Subst) (q : Progress), p.supply.count ≤ q.supply.count →
          next.Over (Known P n q.supply.count) →
          TracedOk P n Subst.Over (absorbAll ctx unify target alts (next.after s)) q :=
        fun next q hq hnext => tracedOk_absorbAll hunify (htarget.later hq)
          (fun alt halt => (halts alt (List.mem_cons_of_mem _ halt)).later hq)
          (hnext.after (hs.later hq))
      rw [absorbAll]
      split
      · next ts hts =>
          rw [hts] at htarget'
          exact (tracedOk_absorb hunify halt (Ty.over_union.1 htarget')).bind hrest
      · exact (hunify halt htarget').bind hrest

theorem tracedOk_unifyUnions (hunify : TracedRel P n unify) {as bs : List Ty}
    (has : ∀ t ∈ as, t.Over (Known P n p.supply.count))
    (hbs : ∀ t ∈ bs, t.Over (Known P n p.supply.count)) :
    TracedOk P n Subst.Over (unifyUnions ctx unify as bs) p := by
  refine tracedOk_orElseThrow ?_ _
  refine (tracedOk_absorbAll hunify (Ty.over_union.2 hbs) has Subst.over_empty).bind
    fun s q hq hs => ?_
  exact tracedOk_absorbAll hunify ((Ty.over_union.2 has).later hq)
    (fun t ht => (hbs t ht).later hq) hs

theorem tracedOk_unifyWithMembers (hunify : TracedRel P n unify) {t : Ty} {members : List Ty}
    (ht : t.Over (Known P n p.supply.count))
    (hmembers : ∀ m ∈ members, m.Over (Known P n p.supply.count)) :
    TracedOk P n Subst.Over (unifyWithMembers ctx unify t members) p := by
  refine tracedOk_orElseThrow (tracedOk_thread hunify (fun pair hpair => ?_) Subst.over_empty) _
  obtain ⟨m, hm, rfl⟩ := List.mem_map.1 hpair
  exact ⟨ht, hmembers m hm⟩

theorem over_sameNameArgs? {a b : Ty} {Q : Int → Prop} {pairs : List (Ty × Ty)} (ha : a.Over Q)
    (hb : b.Over Q) (h : sameNameArgs? a b = some pairs) :
    ∀ pair ∈ pairs, pair.1.Over Q ∧ pair.2.Over Q := by
  unfold sameNameArgs? at h
  split at h
  · split at h
    · cases h
      intro pair hpair
      obtain ⟨h₁, h₂⟩ := List.of_mem_zip hpair
      exact ⟨Ty.over_named.1 ha _ h₁, Ty.over_named.1 hb _ h₂⟩
    · cases h
  · cases h

/-- A type with a reference or a binder at its head is related to another once it is expanded. -/
theorem tracedOk_unifyExpanded (hctx : ctx.registry.Over P) (hunify : TracedRel P n unify)
    {a b : Ty} (ha : a.Over (Known P n p.supply.count)) (hb : b.Over (Known P n p.supply.count)) :
    TracedOk P n Subst.Over (match a, b with
      | .named name args, b => do unify (← expand ctx name args) b
      | a, .named name args => do unify a (← expand ctx name args)
      | .mu v t, b => unify (.unfold v t) b
      | a, .mu v t => unify a (.unfold v t)
      | a, b => unify a b) p := by
  split
  · exact (tracedOk_expand hctx (Ty.over_named.1 ha)).bind fun t q hq ht =>
      hunify ht (hb.later hq)
  · exact (tracedOk_expand hctx (Ty.over_named.1 hb)).bind fun t q hq ht =>
      hunify (ha.later hq) ht
  · exact hunify (Ty.over_unfold ha) hb
  · exact hunify ha (Ty.over_unfold hb)
  · exact hunify ha hb

theorem tracedOk_unifyIndirect (hctx : ctx.registry.Over P) (hunify : TracedRel P n unify)
    {a b : Ty} (ha : a.Over (Known P n p.supply.count)) (hb : b.Over (Known P n p.supply.count)) :
    TracedOk P n Subst.Over (unifyIndirect ctx unify a b) p := by
  unfold unifyIndirect
  refine (tracedOk_assume a b).bind fun assumed q hq _ => ?_
  split
  · exact tracedOk_pure Subst.over_empty
  · dsimp only
    split
    · next pairs hpairs =>
        have hthread := tracedOk_thread hunify
          (over_sameNameArgs? (ha.later hq) (hb.later hq) hpairs) Subst.over_empty
        refine (traced_attempt hthread).lift.bind fun o r hr ho => ?_
        split
        · exact tracedOk_pure (ho _ rfl)
        · exact tracedOk_unifyExpanded hctx hunify ((ha.later hq).later hr) ((hb.later hq).later hr)
    · exact tracedOk_unifyExpanded hctx hunify (ha.later hq) (hb.later hq)

theorem tracedOk_unifyShapes (hunify : TracedRel P n unify) {a b : Ty}
    (ha : a.Over (Known P n p.supply.count)) (hb : b.Over (Known P n p.supply.count)) :
    TracedOk P n Subst.Over (unifyShapes ctx unify a b) p := by
  unfold unifyShapes
  split
  · exact tracedOk_unifyUnions hunify (Ty.over_union.1 ha) (Ty.over_union.1 hb)
  · exact tracedOk_absorb hunify ha (Ty.over_union.1 hb)
  · exact tracedOk_unifyWithMembers hunify ha (Ty.over_inter.1 hb)
  · exact tracedOk_absorb hunify hb (Ty.over_union.1 ha)
  · exact tracedOk_unifyWithMembers hunify hb (Ty.over_inter.1 ha)
  · exact tracedOk_pure Subst.over_empty
  · exact tracedOk_pure Subst.over_empty
  · obtain ⟨hp, hr⟩ := Ty.over_fn.1 ha
    obtain ⟨hp', hr'⟩ := Ty.over_fn.1 hb
    exact tracedOk_thread hunify (by simp [hp, hr, hp', hr']) Subst.over_empty
  · split
    · refine tracedOk_thread hunify (fun pair hpair => ?_) Subst.over_empty
      obtain ⟨h₁, h₂⟩ := List.of_mem_zip hpair
      exact ⟨Ty.over_tuple.1 ha _ h₁, Ty.over_tuple.1 hb _ h₂⟩
    · exact tracedOk_throw
  · exact tracedOk_unifyRecords hunify ha hb
  · exact tracedOk_throw

theorem tracedOk_unifyStep (hctx : ctx.registry.Over P) (hunify : TracedRel P n unify) {a b : Ty}
    (ha : a.Over (Known P n p.supply.count)) (hb : b.Over (Known P n p.supply.count)) :
    TracedOk P n Subst.Over (unifyStep ctx unify a b) p := by
  unfold unifyStep
  split
  · exact tracedOk_pure Subst.over_empty
  · split
    · exact tracedOk_bindVar _ hb
    · exact tracedOk_bindVar _ ha
    · split
      · exact tracedOk_unifyIndirect hctx hunify ha hb
      · exact tracedOk_unifyShapes hunify ha hb

/-- Unification is traced. -/
theorem tracedRel_unify (hctx : ctx.registry.Over P) :
    ∀ limit : Nat, TracedRel P n (Relate.unify ctx limit)
  | 0, _, _, _, _, _ => tracedOk_exceed _ _
  | limit + 1, _, _, _, ha, hb => tracedOk_unifyStep hctx (tracedRel_unify hctx limit) ha hb

/-! ## Subtyping -/

theorem tracedOk_unifyWidth (hunify : TracedRel P n unify) {sub super : RecordTy} :
    ∀ {fs : List (String × Ty)} {s : Subst} {p : Progress},
      sub.toTy.Over (Known P n p.supply.count) →
      (∀ f ∈ fs, f.2.Over (Known P n p.supply.count)) → s.Over (Known P n p.supply.count) →
      TracedOk P n Subst.Over (unifyWidth ctx unify sub super fs s) p
  | [], s, p, _, _, hs => tracedOk_pure hs
  | (name, t) :: fs, s, p, hsub, hfs, hs => by
      have hrest := fun f hf => hfs f (List.mem_cons_of_mem _ hf)
      rw [unifyWidth]
      split
      · exact tracedOk_unifyWidth hunify hsub hrest hs
      · next u hu =>
          refine (tracedOk_orElseThrow (hunify (hs.apply (over_field hsub hu))
            (hs.apply (hfs _ List.mem_cons_self))) _).bind fun next q hq hnext => ?_
          exact tracedOk_unifyWidth hunify (hsub.later hq)
            (fun f hf => (hrest f hf).later hq) (hnext.after (hs.later hq))

theorem tracedOk_subtypeRecords (hunify : TracedRel P n unify) {sub super : RecordTy}
    (hsub : sub.toTy.Over (Known P n p.supply.count))
    (hsuper : super.toTy.Over (Known P n p.supply.count)) :
    TracedOk P n Subst.Over (subtypeRecords ctx unify sub super) p := by
  unfold subtypeRecords
  refine (tracedOk_unifyWidth hunify hsub (Ty.over_record.1 hsuper).1 Subst.over_empty).bind
    fun s q hq hs => ?_
  dsimp only
  split
  · exact tracedOk_pure hs
  · split
    · exact tracedOk_throw
    · refine (tracedOk_fresh _).bind fun behind r hr hbehind => ?_
      refine tracedOk_extendRow (hs.later hr) (Ty.over_record.2 ⟨?_, ?_⟩)
      · exact over_pick ((hsuper.later hq).later hr) (hs.later hr) _
      · rintro v ⟨⟩
        exact hbehind

theorem tracedOk_subtypeIndirect (hctx : ctx.registry.Over P) (hsubtype : TracedRel P n subtype)
    {sub super : Ty} (hsub : sub.Over (Known P n p.supply.count))
    (hsuper : super.Over (Known P n p.supply.count)) :
    TracedOk P n Subst.Over (subtypeIndirect ctx subtype sub super) p := by
  unfold subtypeIndirect
  refine (tracedOk_assume sub super).bind fun assumed q hq _ => ?_
  replace hsub := hsub.later hq
  replace hsuper := hsuper.later hq
  split
  · exact tracedOk_pure Subst.over_empty
  · split
    · exact (tracedOk_expand hctx (Ty.over_named.1 hsub)).bind fun t r hr ht =>
        hsubtype ht (hsuper.later hr)
    · exact hsubtype (Ty.over_unfold hsub) hsuper
    · exact (tracedOk_expand hctx (Ty.over_named.1 hsuper)).bind fun t r hr ht =>
        hsubtype (hsub.later hr) ht
    · exact hsubtype hsub (Ty.over_unfold hsuper)
    · exact hsubtype hsub hsuper

theorem tracedOk_subtypeSome {sub super : Ty} {reason : String}
    {found : StateM Progress (Option Subst)}
    (h : Traced P n (fun Q o => ∀ s, o = some s → Subst.Over Q s) found p) :
    TracedOk P n Subst.Over (subtypeSome ctx sub super reason found) p := by
  unfold subtypeSome
  refine h.lift.bind fun o q _ ho => ?_
  cases o with
  | some s => exact tracedOk_pure (ho s rfl)
  | none => exact tracedOk_throw

theorem tracedOk_subtypeShapes (hunify : TracedRel P n unify) (hsubtype : TracedRel P n subtype)
    {sub super : Ty} (hsub : sub.Over (Known P n p.supply.count))
    (hsuper : super.Over (Known P n p.supply.count)) :
    TracedOk P n Subst.Over (subtypeShapes ctx unify subtype sub super) p := by
  have hunified : TracedOk P n Subst.Over (subtypeUnified ctx unify sub super) p :=
    tracedOk_orElseThrow (hunify hsub hsuper) _
  unfold subtypeShapes
  split
  · refine tracedOk_thread hsubtype (fun pair hpair => ?_) Subst.over_empty
    obtain ⟨t, ht, rfl⟩ := List.mem_map.1 hpair
    exact ⟨Ty.over_union.1 hsub t ht, hsuper⟩
  · exact tracedOk_subtypeSome (traced_firstOf fun t ht q hq =>
      hsubtype (hsub.later hq) ((Ty.over_union.1 hsuper t ht).later hq))
  · exact tracedOk_subtypeSome (traced_firstOf fun t ht q hq =>
      hsubtype ((Ty.over_inter.1 hsub t ht).later hq) (hsuper.later hq))
  · refine tracedOk_thread hsubtype (fun pair hpair => ?_) Subst.over_empty
    obtain ⟨t, ht, rfl⟩ := List.mem_map.1 hpair
    exact ⟨hsub, Ty.over_inter.1 hsuper t ht⟩
  · exact tracedOk_subtypeRecords hunify hsub hsuper
  · obtain ⟨hp, hr⟩ := Ty.over_fn.1 hsub
    obtain ⟨hp', hr'⟩ := Ty.over_fn.1 hsuper
    refine (hsubtype hp' hp).bind fun params q hq hparams => ?_
    refine (hsubtype (hparams.apply (hr.later hq)) (hparams.apply (hr'.later hq))).bind
      fun results q' hq' hresults => ?_
    exact tracedOk_pure (hresults.after (hparams.later hq'))
  · split
    · refine tracedOk_thread hsubtype (fun pair hpair => ?_) Subst.over_empty
      obtain ⟨h₁, h₂⟩ := List.of_mem_zip hpair
      exact ⟨Ty.over_tuple.1 hsub _ h₁, Ty.over_tuple.1 hsuper _ h₂⟩
    · exact hunified
  · exact tracedOk_pure Subst.over_empty
  · exact hunified

theorem tracedOk_subtypeStep (hctx : ctx.registry.Over P) (hunify : TracedRel P n unify)
    (hsubtype : TracedRel P n subtype) {sub super : Ty}
    (hsub : sub.Over (Known P n p.supply.count))
    (hsuper : super.Over (Known P n p.supply.count)) :
    TracedOk P n Subst.Over (subtypeStep ctx unify subtype sub super) p := by
  unfold subtypeStep
  split
  · exact tracedOk_pure Subst.over_empty
  · split
    · exact hunify hsub hsuper
    · exact hunify hsub hsuper
    · split
      · exact tracedOk_subtypeIndirect hctx hsubtype hsub hsuper
      · exact tracedOk_subtypeShapes hunify hsubtype hsub hsuper

/-- Subtyping is traced. -/
theorem tracedRel_subtype (hctx : ctx.registry.Over P) :
    ∀ limit : Nat, TracedRel P n (Relate.subtype ctx limit)
  | 0, _, _, _, _, _ => tracedOk_exceed _ _
  | limit + 1, _, _, _, ha, hb => tracedOk_subtypeStep hctx (tracedRel_unify hctx limit)
      (tracedRel_subtype hctx limit) ha hb

/-! ## Joins -/

/-- A type that was joined, and what was found, are made of known numbers. -/
def Joined.Over (Q : Int → Prop) (j : Joined) : Prop := j.1.Over Q ∧ j.2.Over Q

theorem over_widest {Q : Int → Prop} {a b : Ty} (ha : a.Over Q) (hb : b.Over Q) :
    (widest a b).Over Q := by
  unfold widest
  split
  · exact hb
  · exact ha

theorem tracedOk_joinUnified (hunify : TracedRel P n unify) {a b : Ty}
    (ha : a.Over (Known P n p.supply.count)) (hb : b.Over (Known P n p.supply.count)) :
    TracedOk P n Joined.Over (joinUnified unify a b) p :=
  (hunify ha hb).bind fun _ _ hq hs =>
    tracedOk_pure ⟨hs.apply ((over_widest ha hb).later hq), hs⟩

/-- A notion of being traced follows the ways in which runs are put together. -/
structure Follows (P : Int → Prop) (n : Nat) {m : Type → Type} [Monad m]
    (T : ∀ {α : Type}, ((Int → Prop) → α → Prop) → m α → Progress → Prop) : Prop where
  pure : ∀ {α : Type} {made : (Int → Prop) → α → Prop} {a : α} {p : Progress},
    made (Known P n p.supply.count) a → T made (Pure.pure a) p
  bind : ∀ {α β : Type} {made : (Int → Prop) → α → Prop} {made' : (Int → Prop) → β → Prop}
    {x : m α} {f : α → m β} {p : Progress}, T made x p →
    (∀ a q, p.supply.count ≤ q.supply.count → made (Known P n q.supply.count) a →
      T made' (f a) q) → T made' (x >>= f) p

theorem follows_traced : Follows P n (Traced (S := Progress) P n) :=
  ⟨fun h => traced_pure h, fun h hf => h.bind hf⟩

theorem follows_tracedOk : Follows P n (TracedOk (S := Progress) P n) :=
  ⟨fun h => tracedOk_pure h, fun h hf => h.bind hf⟩

section Following

variable {m : Type → Type} [Monad m]
  {T : ∀ {α : Type}, ((Int → Prop) → α → Prop) → m α → Progress → Prop}
  {join : Ty → Ty → m Joined}

/-- A way to join two types is traced wherever they are made of known numbers. -/
def TracedJoin (P : Int → Prop) (n : Nat) {m : Type → Type}
    (T : ∀ {α : Type}, ((Int → Prop) → α → Prop) → m α → Progress → Prop)
    (join : Ty → Ty → m Joined) : Prop :=
  ∀ {p : Progress} {a b : Ty}, a.Over (Known P n p.supply.count) →
    b.Over (Known P n p.supply.count) → T Joined.Over (join a b) p

theorem traced_joinAll (hT : Follows P n T) (hjoin : TracedJoin P n T join) :
    ∀ {pairs : List (Ty × Ty)} {done : List Ty} {s : Subst} {p : Progress},
      (∀ pair ∈ pairs, pair.1.Over (Known P n p.supply.count) ∧
        pair.2.Over (Known P n p.supply.count)) →
      (∀ t ∈ done, t.Over (Known P n p.supply.count)) → s.Over (Known P n p.supply.count) →
      T Joined.Over (joinAll join pairs done s) p
  | [], done, s, p, _, hdone, hs => hT.pure ⟨Ty.over_tuple.2 (hs.applyAll hdone), hs⟩
  | (a, b) :: pairs, done, s, p, h, hdone, hs => by
      obtain ⟨ha, hb⟩ := h (a, b) List.mem_cons_self
      rw [joinAll]
      refine hT.bind (hjoin (hs.apply ha) (hs.apply hb)) ?_
      rintro ⟨t, next⟩ q hq ⟨ht, hnext⟩
      refine traced_joinAll hT hjoin (fun pair hpair => ?_) (fun u hu => ?_)
        (hnext.after (hs.later hq))
      · obtain ⟨h₁, h₂⟩ := h pair (List.mem_cons_of_mem _ hpair)
        exact ⟨h₁.later hq, h₂.later hq⟩
      · rcases List.mem_append.1 hu with hu | hu
        · exact (hdone u hu).later hq
        · rw [List.mem_singleton.1 hu]
          exact ht

theorem traced_joinTuples (hT : Follows P n T) (hjoin : TracedJoin P n T join) {as bs : List Ty}
    (has : (Ty.tuple as).Over (Known P n p.supply.count))
    (hbs : (Ty.tuple bs).Over (Known P n p.supply.count)) :
    T Joined.Over (joinAll join (as.zip bs) [] .empty) p := by
  refine traced_joinAll hT hjoin (fun pair hpair => ?_) (by simp) Subst.over_empty
  obtain ⟨h₁, h₂⟩ := List.of_mem_zip hpair
  exact ⟨Ty.over_tuple.1 has _ h₁, Ty.over_tuple.1 hbs _ h₂⟩

theorem traced_joinList (hT : Follows P n T) (hjoin : TracedJoin P n T join) :
    ∀ {ts : List Ty} {j : Joined} {p : Progress}, (∀ t ∈ ts, t.Over (Known P n p.supply.count)) →
      j.Over (Known P n p.supply.count) → T Joined.Over (joinList join ts j) p
  | [], (t, s), p, _, hj => hT.pure ⟨hj.2.apply hj.1, hj.2⟩
  | b :: bs, (t, s), p, hts, hj => by
      obtain ⟨ht, hs⟩ := hj
      rw [joinList]
      refine hT.bind (hjoin (hs.apply ht) (hs.apply (hts b List.mem_cons_self))) ?_
      rintro ⟨u, next⟩ q hq ⟨hu, hnext⟩
      exact traced_joinList hT hjoin
        (fun t ht => (hts t (List.mem_cons_of_mem _ ht)).later hq)
        ⟨hu, hnext.after (hs.later hq)⟩

end Following

theorem over_unionOf_pair {Q : Int → Prop} {a b : Ty} (ha : a.Over Q) (hb : b.Over Q) :
    (Ty.unionOf [a, b]).Over Q := Ty.over_unionOf (by simp [ha, hb])

theorem over_unionOf_append {Q : Int → Prop} {alts : List Ty} {b : Ty}
    (halts : (Ty.union alts).Over Q) (hb : b.Over Q) : (Ty.unionOf (alts ++ [b])).Over Q := by
  refine Ty.over_unionOf fun t ht => ?_
  rcases List.mem_append.1 ht with ht | ht
  · exact Ty.over_union.1 halts t ht
  · rw [List.mem_singleton.1 ht]
    exact hb

theorem tracedOk_joinIntoUnion (hunify : TracedRel P n unify) {alts : List Ty} {b : Ty}
    (halts : (Ty.union alts).Over (Known P n p.supply.count))
    (hb : b.Over (Known P n p.supply.count)) :
    TracedOk P n Joined.Over (joinIntoUnion ctx unify alts b) p := by
  have hfirst : Traced P n (fun Q o => ∀ s, o = some s → Subst.Over Q s)
      (firstOf (fun alt => unify alt b) alts) p := traced_firstOf fun t ht q hq =>
    hunify ((Ty.over_union.1 halts t ht).later hq) (hb.later hq)
  unfold joinIntoUnion
  refine hfirst.lift.bind fun o q hq ho => ?_
  cases o with
  | some s => exact tracedOk_pure ⟨(ho s rfl).apply (halts.later hq), ho s rfl⟩
  | none =>
      have hjoined : Joined.Over (Known P n q.supply.count)
          (Ty.unionOf (alts ++ [b]), .empty) :=
        ⟨over_unionOf_append (halts.later hq) (hb.later hq), Subst.over_empty⟩
      dsimp only
      split
      · split
        · exact tracedOk_pure hjoined
        · exact tracedOk_throw
      · exact tracedOk_throw

theorem tracedOk_joinBranchesStep (hunify : TracedRel P n unify)
    {join : Ty → Ty → Relate Joined} (hjoin : TracedJoin P n (TracedOk P n) join) {a b : Ty}
    (ha : a.Over (Known P n p.supply.count)) (hb : b.Over (Known P n p.supply.count)) :
    TracedOk P n Joined.Over (joinBranchesStep ctx unify join a b) p := by
  have hunified := tracedOk_joinUnified hunify ha hb
  unfold joinBranchesStep
  split
  · exact hunified
  · exact hunified
  · split
    · exact tracedOk_pure ⟨over_unionOf_pair ha hb, Subst.over_empty⟩
    · exact hunified
  · exact tracedOk_joinIntoUnion hunify ha hb
  · split
    · exact traced_joinTuples follows_tracedOk hjoin ha hb
    · exact hunified
  · split
    · exact hunified
    · exact tracedOk_pure ⟨Ty.over_prim, Subst.over_empty⟩
  · exact hunified

theorem tracedJoin_joinBranches (hunify : TracedRel P n unify) :
    ∀ depth : Nat, TracedJoin P n (TracedOk P n) (joinBranches ctx unify depth)
  | 0, _, _, _, _, _ => tracedOk_throw
  | depth + 1, _, _, _, ha, hb =>
      tracedOk_joinBranchesStep hunify (tracedJoin_joinBranches hunify depth) ha hb

theorem tracedOk_fitBranches (hsubtype : TracedRel P n subtype) {result : Ty} :
    ∀ {bs : List Ty} {s : Subst} {p : Progress}, result.Over (Known P n p.supply.count) →
      (∀ b ∈ bs, b.Over (Known P n p.supply.count)) → s.Over (Known P n p.supply.count) →
      TracedOk P n Subst.Over (fitBranches ctx subtype result bs s) p
  | [], s, p, _, _, hs => tracedOk_pure hs
  | b :: bs, s, p, hresult, hbs, hs => by
      rw [fitBranches]
      refine (tracedOk_orElseThrow (hsubtype (hs.apply (hbs b List.mem_cons_self))
        (hs.apply hresult)) _).bind fun next q hq hnext => ?_
      exact tracedOk_fitBranches hsubtype (hresult.later hq)
        (fun b hb => (hbs b (List.mem_cons_of_mem _ hb)).later hq) (hnext.after (hs.later hq))

theorem tracedOk_branch (hctx : ctx.registry.Over P) (limit : Nat) {result : Ty}
    {branches : List Ty} (hresult : result.Over (Known P n p.supply.count))
    (hbranches : ∀ b ∈ branches, b.Over (Known P n p.supply.count)) :
    TracedOk P n Subst.Over (branch ctx limit result branches) p := by
  unfold branch
  split
  · exact tracedOk_pure Subst.over_empty
  · next first others =>
      split
      · have hfirst : Joined.Over (Known P n p.supply.count) (first, .empty) :=
          ⟨hbranches first List.mem_cons_self, Subst.over_empty⟩
        refine (traced_joinList follows_tracedOk
          (tracedJoin_joinBranches (tracedRel_unify hctx limit) _)
          (fun t ht => hbranches t (List.mem_cons_of_mem _ ht)) hfirst).bind ?_
        rintro ⟨joined, s⟩ q hq ⟨hjoined, hs⟩
        exact (tracedRel_unify hctx limit (hs.apply (hresult.later hq)) hjoined).bind
          fun bound r hr hbound => tracedOk_pure (hbound.after (hs.later hr))
      · exact tracedOk_fitBranches (tracedRel_subtype hctx limit) hresult hbranches
          Subst.over_empty

/-! ## Patterns -/

theorem traced_joinOrUnion (hunify : TracedRel P n unify) {a b : Ty}
    (ha : a.Over (Known P n p.supply.count)) (hb : b.Over (Known P n p.supply.count)) :
    Traced P n Joined.Over (joinOrUnion unify a b) p := by
  unfold joinOrUnion
  refine (traced_attempt (hunify ha hb)).bind fun o q hq ho => ?_
  cases o with
  | some s => exact traced_pure ⟨(ho s rfl).apply ((over_widest ha hb).later hq), ho s rfl⟩
  | none => exact traced_pure ⟨over_unionOf_pair (ha.later hq) (hb.later hq), Subst.over_empty⟩

theorem traced_joinPatternsStep (hunify : TracedRel P n unify)
    {join : Ty → Ty → StateM Progress Joined} (hjoin : TracedJoin P n (Traced P n) join) {a b : Ty}
    (ha : a.Over (Known P n p.supply.count)) (hb : b.Over (Known P n p.supply.count)) :
    Traced P n Joined.Over (joinPatternsStep unify join a b) p := by
  have hunified := traced_joinOrUnion hunify ha hb
  unfold joinPatternsStep
  split
  · split
    · exact traced_pure ⟨over_unionOf_pair ha hb, Subst.over_empty⟩
    · exact hunified
  · split
    · exact traced_joinTuples follows_traced hjoin ha hb
    · exact hunified
  · split
    · exact hunified
    · exact traced_pure ⟨over_unionOf_pair ha hb, Subst.over_empty⟩
  · refine (traced_firstOf fun t ht q hq =>
      hunify ((Ty.over_union.1 ha t ht).later hq) (hb.later hq)).bind fun o q hq ho => ?_
    cases o with
    | some s => exact traced_pure ⟨(ho s rfl).apply (ha.later hq), ho s rfl⟩
    | none =>
        exact traced_pure ⟨over_unionOf_append (ha.later hq) (hb.later hq), Subst.over_empty⟩
  · exact hunified

theorem tracedJoin_joinPatterns (hunify : TracedRel P n unify) :
    ∀ depth : Nat, TracedJoin P n (Traced P n) (joinPatterns unify depth)
  | 0, _, _, _, ha, hb => traced_joinOrUnion hunify ha hb
  | depth + 1, _, _, _, ha, hb =>
      traced_joinPatternsStep hunify (tracedJoin_joinPatterns hunify depth) ha hb

theorem tracedRel_matchAlternative (hunify : TracedRel P n unify) :
    TracedRel P n (matchAlternative ctx unify) := by
  intro p a b ha hb
  unfold matchAlternative
  split
  · exact tracedOk_bindVar _ hb
  · split
    · exact tracedOk_absorb hunify ha (Ty.over_union.1 hb)
    · exact hunify ha hb

theorem tracedOk_holds (hctx : ctx.registry.Over P) (limit : Nat) {scrutinee : Ty}
    {patterns : List Ty} (hscrutinee : scrutinee.Over (Known P n p.supply.count))
    (hpatterns : ∀ t ∈ patterns, t.Over (Known P n p.supply.count)) :
    TracedOk P n Subst.Over (holds ctx limit scrutinee patterns) p := by
  have hunify : TracedRel P n (Relate.unify ctx limit) := tracedRel_unify hctx limit
  have hpairs : ∀ pair ∈ patterns.map fun t => (t, scrutinee),
      pair.1.Over (Known P n p.supply.count) ∧ pair.2.Over (Known P n p.supply.count) := by
    intro pair hpair
    obtain ⟨t, ht, rfl⟩ := List.mem_map.1 hpair
    exact ⟨hpatterns t ht, hscrutinee⟩
  unfold holds
  split
  · split
    · exact tracedOk_pure Subst.over_empty
    · next first others =>
        have hfirst : Joined.Over (Known P n p.supply.count) (first, .empty) :=
          ⟨hpatterns first List.mem_cons_self, Subst.over_empty⟩
        refine (traced_joinList follows_traced (tracedJoin_joinPatterns hunify _)
          (fun t ht => hpatterns t (List.mem_cons_of_mem _ ht)) hfirst).lift.bind ?_
        rintro ⟨joined, s⟩ q hq ⟨hjoined, hs⟩
        exact (tracedOk_bindVar _ hjoined).bind fun bound r hr hbound =>
          tracedOk_pure (hbound.after (hs.later hr))
  · exact tracedOk_thread (tracedRel_matchAlternative hunify) hpairs Subst.over_empty
  · exact tracedOk_thread hunify hpairs Subst.over_empty

/-! ## Spreads -/

theorem tracedOk_head (hctx : ctx.registry.Over P) {t : Ty}
    (ht : t.Over (Known P n p.supply.count)) : TracedOk P n Ty.Over (head ctx t) p := by
  refine tracedOk_of_ends fun _ _ => ends_head (fun u hu => ⟨Nat.le_refl _, trivial, ?_⟩)
    fun _ => ⟨Nat.le_refl _, trivial⟩
  refine Registry.head?_induction (motive := fun t => t.Over (Known P n p.supply.count))
    (fun h hexpands => ?_) Ty.over_unfold ht hu
  obtain ⟨d, hd, hexpands⟩ := Option.bind_eq_some_iff.1 hexpands
  exact Definition.over_expand? ((hctx.lookup? hd).mono fun _ => .inl) (Ty.over_named.1 h) hexpands

theorem tracedOk_recordShape (hctx : ctx.registry.Over P) {t : Ty}
    (ht : t.Over (Known P n p.supply.count)) :
    TracedOk P n Subst.Over (recordShape ctx t) p := by
  unfold recordShape
  refine (tracedOk_head hctx ht).bind fun u q hq hu => ?_
  split
  · exact tracedOk_pure Subst.over_empty
  · refine (tracedOk_fresh _).bind fun row r hr hrow => tracedOk_bindVar _ ?_
    refine Ty.over_record.2 ⟨by simp, ?_⟩
    rintro v ⟨⟩
    exact hrow
  · exact tracedOk_throw

theorem tracedOk_spreadRecord (hctx : ctx.registry.Over P) {t : Ty}
    (ht : t.Over (Known P n p.supply.count)) :
    TracedOk P n (fun Q r => r.toTy.Over Q) (spreadRecord ctx t) p := by
  unfold spreadRecord
  refine (tracedOk_head hctx ht).bind fun u q hq hu => ?_
  split
  · exact tracedOk_pure hu
  · refine tracedOk_pure (Ty.over_record.2 ⟨by simp, ?_⟩)
    rintro v ⟨⟩
    exact Ty.over_var.1 hu
  · exact tracedOk_throw

/-- What spreading has collected is made of known numbers. -/
structure Merging.Over (Q : Int → Prop) (m : Merging) : Prop where
  fields : ∀ f ∈ m.fields, f.2.Over Q
  subst : m.subst.Over Q

theorem Merging.Over.later {m : Merging} {k k' : Nat} (h : m.Over (Known P n k)) (hk : k ≤ k') :
    m.Over (Known P n k') := ⟨fun f hf => (h.fields f hf).later hk, h.subst.later hk⟩

theorem over_insert {Q : Int → Prop} {fs : Table String Ty} {name : String} {t : Ty}
    (hfs : ∀ f ∈ fs, f.2.Over Q) (ht : t.Over Q) :
    ∀ f ∈ Table.insert name t fs, f.2.Over Q := by
  intro f hf
  rcases Table.mem_insert hf with rfl | hf
  · exact ht
  · exact hfs f hf

theorem tracedOk_overlay (hunify : TracedRel P n unify) (replace : Bool) :
    ∀ {fs : List (String × Ty)} {m : Merging} {p : Progress},
      (∀ f ∈ fs, f.2.Over (Known P n p.supply.count)) → m.Over (Known P n p.supply.count) →
      TracedOk P n Merging.Over (overlay ctx unify replace fs m) p
  | [], m, p, _, hm => tracedOk_pure hm
  | (name, t) :: fs, m, p, hfs, hm => by
      have ht := hm.subst.apply (hfs _ List.mem_cons_self)
      have hrest : ∀ (m : Merging) (q : Progress), p.supply.count ≤ q.supply.count →
          m.Over (Known P n q.supply.count) →
          TracedOk P n Merging.Over (overlay ctx unify replace fs m) q := fun m q hq hm =>
        tracedOk_overlay hunify replace
          (fun f hf => (hfs f (List.mem_cons_of_mem _ hf)).later hq) hm
      rw [overlay]
      dsimp only
      split
      · exact (tracedOk_pure ⟨over_insert hm.fields ht, hm.subst⟩).bind hrest
      · next existing hexisting =>
          have hold := hm.subst.apply (hm.fields _ (Table.mem_of_get? hexisting))
          refine (tracedOk_orElseThrow (hunify hold ht) _).bind fun next q hq hnext => ?_
          refine (tracedOk_pure ⟨?_, hnext.after (hm.subst.later hq)⟩).bind
            fun m' q' hq' hm' => hrest m' q' (Nat.le_trans hq hq') hm'
          dsimp only
          split
          · exact over_insert (hm.later hq).fields (ht.later hq)
          · exact (hm.later hq).fields

theorem tracedOk_overlaySpreads (hctx : ctx.registry.Over P) (hunify : TracedRel P n unify) :
    ∀ {ts : List Ty} {m : Merging} {p : Progress}, (∀ t ∈ ts, t.Over (Known P n p.supply.count)) →
      m.Over (Known P n p.supply.count) →
      TracedOk P n Merging.Over (overlaySpreads ctx unify ts m) p
  | [], m, p, _, hm => tracedOk_pure hm
  | t :: ts, m, p, hts, hm => by
      rw [overlaySpreads]
      refine (tracedOk_spreadRecord hctx (hm.subst.apply (hts t List.mem_cons_self))).bind
        fun r q hq hr => ?_
      refine (tracedOk_overlay hunify false (Ty.over_record.1 hr).1 (hm.later hq)).bind
        fun m' q' hq' hm' => ?_
      exact tracedOk_overlaySpreads hctx hunify (fun u hu =>
        (hts u (List.mem_cons_of_mem _ hu)).later (Nat.le_trans hq hq')) hm'

theorem tracedOk_merge (hctx : ctx.registry.Over P) (hunify : TracedRel P n unify) {result : Ty}
    {spreads : List Ty} {explicit : RecordTy} (hresult : result.Over (Known P n p.supply.count))
    (hspreads : ∀ t ∈ spreads, t.Over (Known P n p.supply.count))
    (hexplicit : explicit.toTy.Over (Known P n p.supply.count)) :
    TracedOk P n Subst.Over (merge ctx unify result spreads explicit) p := by
  have hempty : Merging.Over (Known P n p.supply.count) {} := ⟨by simp, Subst.over_empty⟩
  unfold merge
  refine (tracedOk_overlaySpreads hctx hunify hspreads hempty).bind fun m q hq hm => ?_
  refine (tracedOk_overlay hunify true
    (fun f hf => ((Ty.over_record.1 hexplicit).1 f hf).later hq) hm).bind fun m' q' hq' hm' => ?_
  refine (tracedOk_fresh 0).bind fun row r hr hrow => ?_
  have hmerged : (Ty.record m'.fields (some row)).Over (Known P n r.supply.count) := by
    refine Ty.over_record.2 ⟨(hm'.later hr).fields, ?_⟩
    rintro v ⟨⟩
    exact hrow
  have hsubst := (hm'.later hr).subst
  have hresult' := hresult.later (Nat.le_trans hq (Nat.le_trans hq' hr))
  exact (hunify (hsubst.apply hresult') (hsubst.apply hmerged)).bind fun next r' hr' hnext =>
    tracedOk_pure (hnext.after (hsubst.later hr'))

end Relate

end RowTypes
