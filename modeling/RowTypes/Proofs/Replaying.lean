import RowTypes.Proofs.Coinduction
import RowTypes.Proofs.Fitting

/-!
# Justified pairs are unified

A list of pairs that justifies itself is a plan for unification: each pair of the list is unified,
by coming to pairs of the list and letting those pass that are assumed already.  Alternatives that
the list does not speak of may be tried first.  They bind nothing, whether they succeed or fail, and
leave no assumption behind.

Such a run fails only because the limit is exceeded, and a limit can be named that is not.  Each
step goes to smaller types, except where a reference is expanded or a recursive type is unfolded;
there a pair of the list is assumed that was not before, which happens as often as there are pairs.
-/

namespace RowTypes

namespace Relate

/-! ## Ground types are unified without binding anything -/

section Shows

variable {ctx : Context} {unify : Relation} {m : Relate Subst} {P : Ty → Prop} {a b : Ty} {Q : Prop}

theorem shows_expand {f : Ty → Relate Subst} {name : String} {args : List Ty}
    (h : ∀ t, ctx.registry.expand? name args = some t → Shows (f t) Q) :
    Shows (expand ctx name args >>= f) Q := by
  intro p
  refine Ends.bind ?_
  unfold expand
  split
  · exact ends_throw (.refl p)
  · next d hd =>
      split
      · next t ht => exact ends_pure (h t (by rw [Registry.expand?, hd]; exact ht) p)
      · exact ends_throw (.refl p)

theorem shows_assume {f : Bool → Relate Subst} (hknown : Shows (f true) Q)
    (hnew : Shows (f false) Q) : Shows (assume a b >>= f) Q := by
  intro p
  refine Ends.bind ?_
  rw [Ends, run_assume]
  by_cases hmem : p.assumed.contains (pairDigest a b) = true
  · rw [if_pos hmem]
    exact hknown p
  · rw [if_neg hmem]
    refine (hnew { p with assumed := pairDigest a b :: p.assumed }).imp ?_ ?_
    · exact fun s q hs => ⟨⟨⟨hs.1.count, hs.1.exceeded⟩, fun k hk =>
        hs.1.assumed (List.mem_cons_of_mem _ hk)⟩, hs.2⟩
    · exact fun _ _ h => ⟨h.count, h.exceeded⟩

theorem shows_attempt {f : Option Subst → Relate Subst} (h : Shows m Q)
    (hsome : ∀ s, f (some s) = pure s) (hnone : Shows (f none) Q) :
    Shows (liftM (attempt m) >>= f) Q := by
  intro p
  refine Ends.bind (ends_lift ?_)
  have hends := h p
  unfold Ends at hends
  rw [show (attempt m).run p = attempt m p from rfl, attempt]
  generalize m.run p = out at hends
  obtain ⟨o, q⟩ := out
  cases o with
  | ok s =>
      show Ends (f (some s)) _ _ _
      rw [hsome]
      exact ends_pure ⟨gains_attempt hends.1.toAdvances, hends.2⟩
  | error e =>
      have hgain := gains_attempt (show Advances p q from hends)
      exact (hnone _).imp (fun _ _ h => ⟨hgain.trans h.1, h.2⟩) fun _ _ h =>
        hgain.toAdvances.trans h

variable (hP : ctx.registry.Hereditary P)
include hP

theorem shows_unifyExpanded (ha : P a) (hb : P b)
    (h : ∀ {c d : Ty}, P c → P d → Shows (unify c d) True) :
    Shows (unifyExpanded ctx unify a b) True := by
  unfold unifyExpanded
  split
  · exact shows_expand fun t ht => h (hP.expand ha ht) hb
  · exact shows_expand fun t ht => h ha (hP.expand hb ht)
  · exact h (hP.unfold ha) hb
  · exact h ha (hP.unfold hb)
  · exact h ha hb

theorem shows_unifyIndirect (ha : P a) (hb : P b)
    (h : ∀ {c d : Ty}, P c → P d → Shows (unify c d) True) :
    Shows (unifyIndirect ctx unify a b) True := by
  rw [unifyIndirect_eq]
  refine shows_assume (shows_pure trivial) ?_
  simp only [Bool.false_eq_true, if_false]
  have hexpanded := shows_unifyExpanded hP ha hb h
  cases hpairs : sameNameArgs? a b with
  | none => exact hexpanded
  | some pairs =>
      obtain ⟨name, as, bs, rfl, rfl, hlen, rfl⟩ := sameNameArgs?_eq_some hpairs
      refine shows_attempt (Shows.mono (shows_thread (R := fun _ _ => True) fun e he => ?_)
        fun _ => trivial) (fun _ => rfl) hexpanded
      exact h (hP.named ha _ (List.of_mem_zip he).1) (hP.named hb _ (List.of_mem_zip he).2)

theorem shows_unifyShapes (ha : P a) (hb : P b)
    (h : ∀ {c d : Ty}, P c → P d → Shows (unify c d) True) :
    Shows (unifyShapes ctx unify a b) True := by
  unfold unifyShapes
  split
  · exact (shows_unifyUnions (fun a ha' b hb' => h (hP.union ha _ ha') (hP.union hb _ hb'))
      fun b hb' a ha' => h (hP.union hb _ hb') (hP.union ha _ ha')).mono fun _ => trivial
  · exact (shows_absorb fun b hb' => h ha (hP.union hb _ hb')).mono fun _ => trivial
  · exact (shows_unifyWithMembers fun m hm => h ha (hP.inter hb _ hm)).mono fun _ => trivial
  · exact (shows_absorb fun a ha' => h hb (hP.union ha _ ha')).mono fun _ => trivial
  · exact (shows_unifyWithMembers fun m hm => h hb (hP.inter ha _ hm)).mono fun _ => trivial
  · exact shows_pure trivial
  · exact shows_pure trivial
  · refine (shows_thread (R := fun _ _ => True) ?_).mono fun _ => trivial
    have hfn := hP.fn ha
    have hfn' := hP.fn hb
    exact List.forall_mem_cons.2 ⟨h hfn.1 hfn'.1, List.forall_mem_singleton.2 (h hfn.2 hfn'.2)⟩
  · split
    · refine (shows_thread (R := fun _ _ => True) fun e he => ?_).mono fun _ => trivial
      exact h (hP.tuple ha _ (List.of_mem_zip he).1) (hP.tuple hb _ (List.of_mem_zip he).2)
    · exact shows_throw _
  · obtain rfl := (hP.ground ha).closed
    obtain rfl := (hP.ground hb).closed
    refine (shows_unifyRecords (R := fun _ _ => True) fun name c d hc hd => ?_).mono fun _ => trivial
    exact h (hP.record ha _ (Table.mem_of_get? hc)) (hP.record hb _ (Table.mem_of_get? hd))
  · exact shows_throw _

/-- Unifying ground types binds nothing. -/
theorem shows_unify_ground : ∀ (n : Nat) {a b : Ty}, P a → P b → Shows (Relate.unify ctx n a b) True
  | 0, _, _, _, _ => shows_exceed _ _
  | n + 1, a, b, ha, hb => by
      show Shows (unifyStep ctx (Relate.unify ctx n) a b) _
      unfold unifyStep
      split
      · exact shows_pure trivial
      · split
        · exact absurd (hP.ground ha) Ty.not_ground_var
        · exact absurd (hP.ground hb) Ty.not_ground_var
        · split
          · exact shows_unifyIndirect hP ha hb (shows_unify_ground n)
          · exact shows_unifyShapes hP ha hb (shows_unify_ground n)

end Shows

/-! ## Runs that fail only beyond the limit -/

/-- A run succeeds and binds nothing, unless the limit is exceeded; and it is exceeded only if it is
below a bound that depends on what is assumed at the start. -/
def Replays (n : Nat) (bound : List Digest → Nat) (m : Relate Subst) : Prop :=
  ∀ p, Ends m p (fun s q => Gains p q ∧ s = .empty)
    fun _ q => q.exceeded = true ∧ n < bound p.assumed

section Replays

variable {ctx : Context} {rel unify : Relation} {m : Relate Subst} {n : Nat} {a b : Ty}
  {bound : List Digest → Nat}

/-- Assuming more takes no more steps. -/
def Shrinks (bound : List Digest → Nat) : Prop := ∀ {K K' : List Digest}, K ⊆ K' → bound K' ≤ bound K

theorem replays_pure : Replays n bound (pure .empty) := fun p => ends_pure ⟨.refl p, rfl⟩

theorem Replays.mono {bound' : List Digest → Nat} (h : Replays n bound m)
    (hle : ∀ K, bound K ≤ bound' K) : Replays n bound' m := fun p =>
  (h p).imp (fun _ _ h => h) fun _ _ h => ⟨h.1, Nat.lt_of_lt_of_le h.2 (hle _)⟩

/-- One step more, where the bound is not reached. -/
theorem Replays.step (h : Replays n (fun K => bound K - 1) m) : Replays (n + 1) bound m := fun p =>
  (h p).imp (fun _ _ h => h) fun _ _ h => ⟨h.1, by have := h.2; dsimp only at this; omega⟩

theorem Replays.bind (h : Replays n bound m) (hbound : Shrinks bound) {f : Subst → Relate Subst}
    (hf : Replays n bound (f .empty)) : Replays n bound (m >>= f) := by
  refine fun p => Ends.bind ((h p).imp ?_ fun _ _ h => h)
  rintro s q ⟨hgain, rfl⟩
  refine (hf q).imp (fun s r h => ⟨hgain.trans h.1, h.2⟩) fun _ _ h => ⟨h.1, ?_⟩
  exact Nat.lt_of_lt_of_le h.2 (hbound hgain.assumed)

theorem replays_orElseThrow {d : Diagnostic → Diagnostic} (h : Replays n bound m) :
    Replays n bound (orElseThrow m d) := fun p => ends_orElseThrow (h p)

theorem replays_thread (hbound : Shrinks bound) : ∀ {pairs : List (Ty × Ty)},
    (∀ e ∈ pairs, Replays n bound (rel e.1 e.2)) → Replays n bound (thread rel pairs .empty)
  | [], _ => replays_pure
  | (a, b) :: pairs, h => by
      obtain ⟨hhead, htail⟩ := List.forall_mem_cons.1 h
      rw [thread, Subst.apply_empty, Subst.apply_empty]
      exact hhead.bind hbound (replays_thread hbound htail)

/-- Where one of several attempts is a replay, they fail only beyond the limit. -/
theorem firstOf_replays {f : Ty → Relate Subst} : ∀ {ts : List Ty}, (∀ t ∈ ts, Shows (f t) True) →
    (∃ t ∈ ts, Replays n bound (f t)) → ∀ p : Progress, ((firstOf f ts).run p).1 = none →
      ((firstOf f ts).run p).2.exceeded = true ∧ n < bound p.assumed
  | t :: ts, hall, hsome, p, hnone => by
      obtain ⟨hhead, htail⟩ := List.forall_mem_cons.1 hall
      have hends := hhead p
      have hreplay : Replays n bound (f t) → Ends (f t) p (fun _ _ => True)
          fun _ q => q.exceeded = true ∧ n < bound p.assumed := fun h =>
        (h p).imp (fun _ _ _ => trivial) fun _ _ h => h
      unfold Ends at hends hreplay
      rw [firstOf, StateM.run_bind, show (attempt (f t)).run p = attempt (f t) p from rfl,
        attempt] at hnone ⊢
      generalize (f t).run p = out at hends hreplay hnone
      obtain ⟨o, q⟩ := out
      cases o with
      | ok s => cases hnone
      | error e =>
          obtain ⟨u, hu, hu'⟩ := hsome
          rcases List.mem_cons.1 hu with rfl | hu
          · obtain ⟨hexceeded, hlt⟩ := hreplay hu'
            have hgain := (shows_firstOf htail { q with assumed := p.assumed }).1
            exact ⟨hgain.exceeded hexceeded, hlt⟩
          · exact firstOf_replays htail ⟨u, hu, hu'⟩ { q with assumed := p.assumed } hnone

theorem replays_firstOrThrow {f : Ty → Relate Subst} {ts : List Ty}
    (hall : ∀ t ∈ ts, Shows (f t) True) (h : ∃ t ∈ ts, Replays n bound (f t)) (e : Diagnostic) :
    Replays n bound (do match ← firstOf f ts with
      | some s => pure s
      | none => throw e) := by
  intro p
  refine Ends.bind (ends_lift ?_)
  have hshows := shows_firstOf hall p
  have hnone := firstOf_replays hall h p
  generalize (firstOf f ts).run p = out at hshows hnone
  obtain ⟨o, q⟩ := out
  cases o with
  | none => exact ends_throw (hnone rfl)
  | some s => exact ends_pure ⟨hshows.1, (hshows.2 s rfl).1⟩

theorem replays_absorb {t : Ty} {alts : List Ty} (hall : ∀ alt ∈ alts, Shows (unify t alt) True)
    (h : ∃ alt ∈ alts, Replays n bound (unify t alt)) :
    Replays n bound (absorb ctx unify t alts) := replays_firstOrThrow hall h _

theorem replays_absorbAll (hbound : Shrinks bound) {bs : List Ty} : ∀ {as : List Ty},
    (∀ a ∈ as, ∀ b ∈ bs, Shows (unify a b) True) →
    (∀ a ∈ as, ∃ b ∈ bs, Replays n bound (unify a b)) →
      Replays n bound (absorbAll ctx unify (.union bs) as .empty)
  | [], _, _ => replays_pure
  | a :: as, hall, h => by
      obtain ⟨hallhead, halltail⟩ := List.forall_mem_cons.1 hall
      obtain ⟨hhead, htail⟩ := List.forall_mem_cons.1 h
      simp only [absorbAll, Subst.apply_empty]
      exact (replays_absorb hallhead hhead).bind hbound (replays_absorbAll hbound halltail htail)

theorem replays_unifyRecords (hbound : Shrinks bound) {fs gs : List (String × Ty)}
    (h : ∀ name, Option.Rel (fun a b => Replays n bound (unify a b))
      (Table.get? name fs) (Table.get? name gs)) :
    Replays n bound (unifyRecords ctx unify ⟨fs, none⟩ ⟨gs, none⟩) := by
  have hfield : ∀ name, (RecordTy.field? ⟨fs, none⟩ name).isSome =
      (RecordTy.field? ⟨gs, none⟩ name).isSome := by
    intro name
    have hname := h name
    simp only [RecordTy.field?]
    generalize Table.get? name fs = x, Table.get? name gs = y at hname
    cases hname <;> rfl
  unfold unifyRecords
  refine (replays_thread hbound fun e he => ?_).bind hbound ?_
  · obtain ⟨name, ha, hb⟩ := RecordTy.mem_sharedFields.1 he
    have hname := h name
    rw [show Table.get? name fs = some e.1 from ha,
      show Table.get? name gs = some e.2 from hb] at hname
    cases hname
    assumption
  · rw [diff_eq_nil hfield, diff_eq_nil fun name => (hfield name).symm]
    exact replays_pure

/-! ## Taking justified pairs apart -/

section Justified

variable {P : Ty → Prop} {S : Ty → Ty → Prop}

theorem replays_expand {f : Ty → Relate Subst} {name : String} {args : List Ty} {t : Ty}
    (ht : ctx.registry.expand? name args = some t) (h : Replays n bound (f t)) :
    Replays n bound (expand ctx name args >>= f) := by
  obtain ⟨d, hd, ht⟩ := Option.bind_eq_some_iff.1 ht
  refine fun p => Ends.bind ?_
  unfold expand
  rw [hd]
  dsimp only
  rw [ht]
  exact ends_pure (h p)

theorem unifyShapes_intoUnion {ts : List Ty} (h : ∀ as, a ≠ .union as) :
    unifyShapes ctx unify a (.union ts) = absorb ctx unify a ts := by
  cases a <;> first | rfl | exact absurd rfl (h _)

theorem unifyShapes_intoInter {ts : List Ty} :
    unifyShapes ctx unify a (.inter ts) = unifyWithMembers ctx unify a ts := by
  cases a <;> rfl

theorem unifyShapes_fromUnion {ts : List Ty} (h : ∀ bs, b ≠ .union bs) (h' : ∀ ms, b ≠ .inter ms) :
    unifyShapes ctx unify (.union ts) b = absorb ctx unify b ts := by
  cases b <;> first | rfl | exact absurd rfl (h _) | exact absurd rfl (h' _)

theorem unifyShapes_fromInter {ts : List Ty} (h : ∀ bs, b ≠ .union bs) (h' : ∀ ms, b ≠ .inter ms) :
    unifyShapes ctx unify (.inter ts) b = unifyWithMembers ctx unify b ts := by
  cases b <;> first | rfl | exact absurd rfl (h _) | exact absurd rfl (h' _)

theorem replays_unifyWithMembers (hbound : Shrinks bound) {t : Ty} {members : List Ty}
    (h : ∀ m ∈ members, Replays n bound (unify t m)) :
    Replays n bound (unifyWithMembers ctx unify t members) :=
  replays_orElseThrow (replays_thread hbound (List.forall_mem_map.2 h))

/-- A justified pair of types whose constructors show. -/
theorem replays_unifyShapes (hP : ctx.registry.Hereditary P) (hbound : Shrinks bound) (ha : P a)
    (hb : P b) (hne : a.equiv b = false) (hinda : isIndirect a = false)
    (hindb : isIndirect b = false) (hall : ∀ {c d : Ty}, P c → P d → Shows (unify c d) True)
    (h : ∀ {c d : Ty}, S c d → c.height + d.height < a.height + b.height →
      Replays n bound (unify c d))
    (hjust : ctx.registry.Justified S a b) : Replays n bound (unifyShapes ctx unify a b) := by
  cases hjust with
  | equiv heq => rw [heq] at hne; cases hne
  | args => cases hinda
  | expand => cases hinda
  | expandRight => cases hindb
  | unfold => cases hinda
  | unfoldRight => cases hindb
  | @unions as bs hto hfrom =>
      refine replays_orElseThrow (Replays.bind (replays_absorbAll hbound ?_ ?_) hbound
        (replays_absorbAll hbound ?_ ?_))
      · exact fun c hc d hd => hall (hP.union ha c hc) (hP.union hb d hd)
      · intro c hc
        obtain ⟨d, hd, hcd⟩ := hto c hc
        exact ⟨d, hd, h hcd (Nat.add_lt_add (Ty.height_lt_union hc) (Ty.height_lt_union hd))⟩
      · exact fun d hd c hc => hall (hP.union hb d hd) (hP.union ha c hc)
      · intro d hd
        obtain ⟨c, hc, hdc⟩ := hfrom d hd
        refine ⟨c, hc, h hdc ?_⟩
        exact Nat.add_comm _ _ ▸ Nat.add_lt_add (Ty.height_lt_union hc) (Ty.height_lt_union hd)
  | @intoUnion bs a _ hunion hto =>
      rw [unifyShapes_intoUnion hunion]
      refine replays_absorb (fun d hd => hall ha (hP.union hb d hd)) ?_
      obtain ⟨d, hd, had⟩ := hto
      exact ⟨d, hd, h had (Nat.add_lt_add_left (Ty.height_lt_union hd) _)⟩
  | @intoInter ms a _ hto =>
      rw [unifyShapes_intoInter]
      exact replays_unifyWithMembers hbound fun m hm =>
        h (hto m hm) (Nat.add_lt_add_left (Ty.height_lt_inter hm) _)
  | @fromUnion as b _ hunion hinter hfrom =>
      rw [unifyShapes_fromUnion hunion hinter]
      refine replays_absorb (fun c hc => hall hb (hP.union ha c hc)) ?_
      obtain ⟨c, hc, hbc⟩ := hfrom
      refine ⟨c, hc, h hbc ?_⟩
      exact Nat.add_comm _ _ ▸ Nat.add_lt_add_right (Ty.height_lt_union hc) _
  | @fromInter ms b _ hunion hinter hfrom =>
      rw [unifyShapes_fromInter hunion hinter]
      refine replays_unifyWithMembers hbound fun m hm => h (hfrom m hm) ?_
      exact Nat.add_comm _ _ ▸ Nat.add_lt_add_right (Ty.height_lt_inter hm) _
  | string value => exact replays_pure
  | literal value => exact replays_pure
  | @fn p p' q q' hp hq =>
      have hlow := Ty.height_lt_fn p q
      have hlow' := Ty.height_lt_fn p' q'
      exact replays_thread hbound (List.forall_mem_cons.2
        ⟨h hp (Nat.add_lt_add hlow.1 hlow'.1),
          List.forall_mem_singleton.2 (h hq (Nat.add_lt_add hlow.2 hlow'.2))⟩)
  | @tuple as bs hlen hall' =>
      show Replays n bound (if _ then _ else throw _)
      rw [if_pos hlen]
      exact replays_thread hbound fun e he => h (hall' e he) (Nat.add_lt_add
        (Ty.height_lt_tuple (List.of_mem_zip he).1) (Ty.height_lt_tuple (List.of_mem_zip he).2))
  | @record fs gs hfields =>
      refine replays_unifyRecords hbound fun name => ?_
      refine Ty.rel_imp (hfields name) fun c d hc hd hcd => h hcd (Nat.add_lt_add ?_ ?_)
      · exact Ty.height_lt_record (Table.mem_of_get? hc) none
      · exact Ty.height_lt_record (Table.mem_of_get? hd) none

/-- An attempt at a replay fails beyond the limit, and then it does not matter how things go on. -/
theorem replays_attempt {f : Option Subst → Relate Subst} (h : Replays n bound m)
    (hm : Shows m True) (hsome : ∀ s, f (some s) = pure s) (hnone : Shows (f none) True) :
    Replays n bound (liftM (attempt m) >>= f) := by
  intro p
  refine Ends.bind (ends_lift ?_)
  have hends := h p
  have hadv := hm p
  unfold Ends at hends hadv
  rw [show (attempt m).run p = attempt m p from rfl, attempt]
  generalize m.run p = out at hends hadv
  obtain ⟨o, q⟩ := out
  cases o with
  | ok s =>
      show Ends (f (some s)) _ _ _
      rw [hsome]
      exact ends_pure ⟨gains_attempt hends.1.toAdvances, hends.2⟩
  | error e =>
      have hgain := gains_attempt (show Advances p q from hadv)
      refine (hnone _).imp (fun _ _ h => ⟨hgain.trans h.1, h.2.1⟩) fun _ _ h => ?_
      exact ⟨h.exceeded hends.1, hends.2⟩

/-- Whatever becomes of an attempt, things go on with a replay. -/
theorem replays_after_attempt {f : Option Subst → Relate Subst} (hm : Shows m True)
    (hsome : ∀ s, f (some s) = pure s) (hnone : Replays n bound (f none)) :
    Replays n bound (liftM (attempt m) >>= f) := by
  intro p
  refine Ends.bind (ends_lift ?_)
  have hadv := hm p
  unfold Ends at hadv
  rw [show (attempt m).run p = attempt m p from rfl, attempt]
  generalize m.run p = out at hadv
  obtain ⟨o, q⟩ := out
  cases o with
  | ok s =>
      show Ends (f (some s)) _ _ _
      rw [hsome]
      exact ends_pure ⟨gains_attempt hadv.1.toAdvances, hadv.2.1⟩
  | error e =>
      have hgain := gains_attempt (show Advances p q from hadv)
      exact (hnone { q with assumed := p.assumed }).imp
        (fun _ _ h => ⟨hgain.trans h.1, h.2⟩) fun _ _ h => h

/-- Once a pair is assumed, another bound may hold. -/
theorem replays_assume {f : Bool → Relate Subst} {rest : List Digest → Nat}
    (hknown : f true = pure .empty) (hnew : Replays n rest (f false))
    (hrest : ∀ K, pairDigest a b ∉ K → rest (pairDigest a b :: K) ≤ bound K) :
    Replays n bound (assume a b >>= f) := by
  intro p
  refine Ends.bind ?_
  rw [Ends, run_assume]
  by_cases hmem : p.assumed.contains (pairDigest a b) = true
  · rw [if_pos hmem]
    show Ends (f true) p _ _
    rw [hknown]
    exact ends_pure ⟨.refl p, rfl⟩
  · rw [if_neg hmem]
    rw [List.contains_iff_mem] at hmem
    refine (hnew { p with assumed := pairDigest a b :: p.assumed }).imp ?_ ?_
    · exact fun s q hs => ⟨⟨⟨hs.1.count, hs.1.exceeded⟩, fun k hk =>
        hs.1.assumed (List.mem_cons_of_mem _ hk)⟩, hs.2⟩
    · exact fun _ q h => ⟨h.1, Nat.lt_of_lt_of_le h.2 (hrest _ hmem)⟩

theorem unifyExpanded_right {name : String} {args : List Ty}
    (h : ∀ name args, a ≠ .named name args) : unifyExpanded ctx unify a (.named name args) =
      expand ctx name args >>= unify a := by
  cases a <;> first | rfl | exact absurd rfl (h _ _)

theorem unifyExpanded_mu {v : TyVar} {t : Ty} (h : ∀ name args, b ≠ .named name args) :
    unifyExpanded ctx unify (.mu v t) b = unify (.unfold v t) b := by
  cases b <;> first | rfl | exact absurd rfl (h _ _)

theorem unifyExpanded_mu_right {v : TyVar} {t : Ty} (h : isIndirect a = false) :
    unifyExpanded ctx unify a (.mu v t) = unify a (.unfold v t) := by
  cases a <;> first | rfl | cases h

/-- What follows where relating the arguments of two names fails, or where there are none. -/
theorem replays_after_args {args : Option (List (Ty × Ty))} {next : Relate Subst}
    (hnext : Replays n bound next) :
    (∀ pairs, args = some pairs → Shows (thread unify pairs .empty) True) →
    Replays n bound (match args with
      | none => next
      | some pairs => liftM (attempt (thread unify pairs .empty)) >>= fun found =>
        match found with
        | some s => pure s
        | none => next) := by
  intro hthread
  cases args with
  | none => exact hnext
  | some pairs => exact replays_after_attempt (hthread pairs rfl) (fun _ => rfl) hnext

/-- A justified pair of which one type has to be expanded or unfolded. -/
theorem replays_unifyIndirect {rest : List Digest → Nat} (hP : ctx.registry.Hereditary P)
    (ha : P a) (hb : P b) (hne : a.equiv b = false) (hind : (isIndirect a || isIndirect b) = true)
    (hall : ∀ {c d : Ty}, P c → P d → Shows (unify c d) True) (hshrinks : Shrinks rest)
    (hrest : ∀ K, pairDigest a b ∉ K → rest (pairDigest a b :: K) ≤ bound K)
    (h : ∀ {c d : Ty}, S c d → Replays n rest (unify c d))
    (hjust : ctx.registry.Justified S a b) : Replays n bound (unifyIndirect ctx unify a b) := by
  rw [unifyIndirect_eq]
  refine replays_assume rfl ?_ hrest
  simp only [Bool.false_eq_true, if_false]
  have hthread : ∀ pairs, sameNameArgs? a b = some pairs →
      Shows (thread unify pairs .empty) True := by
    intro pairs hpairs
    obtain ⟨name, as, bs, rfl, rfl, hlen, rfl⟩ := sameNameArgs?_eq_some hpairs
    refine Shows.mono (shows_thread (R := fun _ _ => True) fun e he => ?_) fun _ => trivial
    exact hall (hP.named ha _ (List.of_mem_zip he).1) (hP.named hb _ (List.of_mem_zip he).2)
  have hgo := fun hnext : Replays n rest (unifyExpanded ctx unify a b) =>
    replays_after_args hnext hthread
  cases hjust with
  | equiv heq => rw [heq] at hne; cases hne
  | @args name as bs hlen hargs =>
      have hpairs : sameNameArgs? (.named name as) (.named name bs) = some (as.zip bs) :=
        if_pos ⟨rfl, hlen⟩
      rw [hpairs]
      exact replays_attempt (replays_thread hshrinks fun e he => h (hargs e he))
        (hthread _ hpairs) (fun _ => rfl) (shows_unifyExpanded hP ha hb hall)
  | expand ht hS => exact hgo (replays_expand ht (h hS))
  | expandRight hnamed ht hS =>
      refine hgo ?_
      rw [unifyExpanded_right hnamed]
      exact replays_expand ht (h hS)
  | unfold hnamed hS =>
      refine hgo ?_
      rw [unifyExpanded_mu hnamed]
      exact h hS
  | unfoldRight hinda hS =>
      refine hgo ?_
      rw [unifyExpanded_mu_right hinda]
      exact h hS
  | intoUnion hinda => rw [hinda] at hind; cases hind
  | intoInter hinda => rw [hinda] at hind; cases hind
  | fromUnion hindb => rw [hindb, Bool.or_false] at hind; cases hind
  | fromInter hindb => rw [hindb, Bool.or_false] at hind; cases hind
  | _ => cases hind

end Justified

end Replays

/-! ## The bound -/

/-- How many pairs of a list are not assumed. -/
def unassumed (pairs : List (Ty × Ty)) (assumed : List Digest) : Nat :=
  pairs.countP fun e => !assumed.contains (pairDigest e.1 e.2)

section Bound

variable {pairs : List (Ty × Ty)} {K K' : List Digest} {a b : Ty}

theorem unassumed_mono (pairs : List (Ty × Ty)) (h : K ⊆ K') : unassumed pairs K' ≤ unassumed pairs K := by
  refine List.countP_mono_left fun e _ he => ?_
  simp only [Bool.not_eq_true', List.contains_eq_mem, decide_eq_false_iff_not] at he ⊢
  exact fun hmem => he (h hmem)

/-- Assuming a pair leaves one pair less. -/
theorem unassumed_cons_lt (hmem : (a, b) ∈ pairs) (hnew : pairDigest a b ∉ K) :
    unassumed pairs (pairDigest a b :: K) < unassumed pairs K := by
  unfold unassumed
  induction pairs with
  | nil => cases hmem
  | cons e pairs ih =>
      have hle := unassumed_mono pairs (List.subset_cons_self (pairDigest a b) K)
      unfold unassumed at hle
      rw [List.countP_cons, List.countP_cons]
      rcases List.mem_cons.1 hmem with rfl | hmem
      · rw [if_neg (by simp), if_pos (by simpa using hnew)]
        omega
      · have hlt := ih hmem
        have hone : ∀ c : Prop, ∀ [Decidable c], (if c then 1 else 0) ≤ 1 := by
          intro c _
          split <;> omega
        by_cases he : pairDigest e.1 e.2 ∈ K
        · rw [if_neg (by simp [he]), if_neg (by simp [he])]
          exact hlt
        · have hin : (!K.contains (pairDigest e.1 e.2)) = true := by simpa using he
          have := hone ((!(pairDigest a b :: K).contains (pairDigest e.1 e.2)) = true)
          rw [if_pos hin]
          omega

/-- How many steps a pair of a list takes at most, where no pair of the list is higher than the
given number. -/
def steps (pairs : List (Ty × Ty)) (high : Nat) (a b : Ty) (K : List Digest) : Nat :=
  unassumed pairs K * (high + 1) + (a.height + b.height)

theorem shrinks_steps (pairs : List (Ty × Ty)) (high : Nat) (a b : Ty) :
    Shrinks (steps pairs high a b) := fun h =>
  Nat.add_le_add_right (Nat.mul_le_mul_right _ (unassumed_mono _ h)) _

end Bound

/-- Pairs of a list that justifies itself are unified, unless the limit is exceeded. -/
theorem replays_unify (ctx : Context) {P : Ty → Prop} (hP : ctx.registry.Hereditary P)
    {pairs : List (Ty × Ty)} {high : Nat} (hproper : ∀ e ∈ pairs, P e.1 ∧ P e.2)
    (hhigh : ∀ e ∈ pairs, e.1.height + e.2.height ≤ high)
    (hjust : ∀ e ∈ pairs, ctx.registry.Justified (fun a b => (a, b) ∈ pairs) e.1 e.2) :
    ∀ (n : Nat) {a b : Ty}, (a, b) ∈ pairs →
      Replays n (steps pairs high a b) (Relate.unify ctx n a b)
  | 0, a, b, _ => fun _ => ends_exceed ⟨rfl, by
      have := Ty.height_pos a
      unfold steps
      omega⟩
  | n + 1, a, b, hab => by
      obtain ⟨ha, hb⟩ : P a ∧ P b := hproper _ hab
      have hself : ctx.registry.Justified (fun a b => (a, b) ∈ pairs) a b := hjust _ hab
      have hall : ∀ {c d : Ty}, P c → P d → Shows (Relate.unify ctx n c d) True :=
        shows_unify_ground hP n
      have ih : ∀ {c d : Ty}, (c, d) ∈ pairs →
          Replays n (steps pairs high c d) (Relate.unify ctx n c d) :=
        replays_unify ctx hP hproper hhigh hjust n
      show Replays (n + 1) _ (unifyStep ctx (Relate.unify ctx n) a b)
      unfold unifyStep
      split
      · exact replays_pure
      · next hne =>
          have hne : a.equiv b = false := by simpa using hne
          split
          · exact absurd (hP.ground ha) Ty.not_ground_var
          · exact absurd (hP.ground hb) Ty.not_ground_var
          · split
            · next hind =>
                -- Whatever the pair comes to is no higher than the pairs of the list.
                have hlow : ∀ {c d : Ty}, (c, d) ∈ pairs → Replays n
                    (fun K => unassumed pairs K * (high + 1) + high) (Relate.unify ctx n c d) :=
                  fun hcd => (ih hcd).mono fun K => Nat.add_le_add_left (hhigh _ hcd) _
                refine (replays_unifyIndirect hP ha hb hne hind hall (fun hK => ?_)
                  (fun K hnew => ?_) hlow hself).step
                · exact Nat.add_le_add_right (Nat.mul_le_mul_right _ (unassumed_mono _ hK)) _
                · have hlt := Nat.mul_le_mul_right (high + 1) (unassumed_cons_lt hab hnew)
                  rw [Nat.succ_mul] at hlt
                  have := Ty.height_pos a
                  unfold steps
                  omega
            · next hind =>
                rw [Bool.not_eq_true, Bool.or_eq_false_iff] at hind
                refine (replays_unifyShapes hP (fun hK => ?_) ha hb hne hind.1 hind.2 hall
                  (fun hcd hlt => (ih hcd).mono fun K => ?_) hself).step
                · exact Nat.sub_le_sub_right (shrinks_steps pairs high a b hK) 1
                · unfold steps
                  omega

end Relate

end RowTypes
