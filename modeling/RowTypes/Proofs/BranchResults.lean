import RowTypes.Proofs.Joins
import RowTypes.Proofs.MostGeneral

/-!
# The result of branches

The type that joining branches gives their result is one that each branch can be used as: every
branch fits it, and what fits is accepted as a subtype.  A union is searched for the first
alternative that accepts, and that may be an earlier one than the one that fits, so accepting may
bind unknowns; whatever it binds, the rest of a tuple still fits.

This is so for branches without alternatives of their own, as long as no unknown in them comes to
stand for alternatives.
-/

namespace RowTypes

open Equations

namespace Relate

open RecordTy

/-! ## Accepting what fits -/

/-- A run finds a settled substitution, unless the limit is exceeded. -/
def Passes (κ : Sorts) (P : Int → Prop) (p : Progress) (m : Relate Subst) : Prop :=
  Ends m p (fun s q => Advances p q ∧ Found κ P p.supply.count q.supply.count s)
    fun _ q => q.exceeded = true

section Steps

variable {κ : Sorts} {P Q : Int → Prop} {n m : Nat} {p : Progress} {ctx : Context} {rel : Relation}
  {a b : Ty} {s : Subst}

/-- Relating two types under what was found adds to it. -/
theorem found_step (hrel : Adapts κ rel) (hP : ∀ id, P id → id ≤ n)
    (hfresh : ∀ id : Int, n < id → κ.isRow id) (hn : n ≤ p.supply.count)
    (hs : Found κ P n p.supply.count s) (ha : a.Unmixed κ) (hb : b.Unmixed κ)
    (hina : ∀ id, a.Mentions id → P id) (hinb : ∀ id, b.Mentions id → P id) :
    Ends (rel (s.apply a) (s.apply b)) p
      (fun next q => Advances p q ∧ Found κ P n q.supply.count (next.after s))
      fun _ q => Advances p q := by
  have hleft : ∀ id, Mentioned [(s.apply a, s.apply b)] id →
      s.get? id = none ∧ (P id ∨ (n < id ∧ id ≤ p.supply.count)) := fun id hid =>
    (mentioned_pair.1 hid).elim (hs.left ha hina) (hs.left hb hinb)
  have hold : ∀ id, Mentioned [(s.apply a, s.apply b)] id → id ≤ p.supply.count := by
    intro id hid
    rcases (hleft id hid).2 with hid | ⟨-, hid⟩
    · have := hP id hid
      omega
    · exact hid
  have hE : Asked κ p.supply.count [(s.apply a, s.apply b)] :=
    asked_pair (hs.settled.apply ha) (hs.settled.apply hb)
      (fun id hid => hold id (mentioned_pair.2 (.inl hid)))
      (fun id hid => hold id (mentioned_pair.2 (.inr hid))) fun id hid => hfresh id (by omega)
  refine (hrel p _ _ hE).imp ?_ fun _ _ h => h
  rintro next q ⟨hadv, hnext⟩
  exact ⟨hadv, hs.append hP hn hadv.count hleft hnext.toFound⟩

end Steps

section Width

variable {κ : Sorts} {P : Int → Prop} {ctx : Context} {rel : Relation} {sub super : RecordTy}
  {n : Nat} {p : Progress} {s : Subst}

/-- The row of a record under what was found is that of the record then. -/
theorem mentions_rowUnder (hs : s.Settled κ) (hsub : sub.toTy.Unmixed κ) {w : TyVar}
    (hw : sub.rowUnder s = some w) : (s.apply sub.toTy).Mentions w.id ∧ κ.isRow w.id := by
  have hrow : ∀ v, sub.row = some v → κ.isRow v.id := by
    cases hsub with
    | record _ _ hrow _ => exact hrow
  have hrest : sub.rowUnder s = (s.rest sub.row).row := by
    unfold RecordTy.rowUnder
    cases hv : sub.row with
    | none => rfl
    | some v =>
        dsimp only
        rw [Subst.apply_var, Subst.rest]
        rcases hs.row_cases (hrow v hv) with h | ⟨gs, rest, h⟩ <;> rw [h] <;> rfl
  have happly := hs.apply_record sub.fields hrow
  have hunmixed := hs.apply hsub
  rw [RecordTy.toTy, happly] at hunmixed ⊢
  rw [hrest] at hw
  refine ⟨Ty.mentions_record.2 (.inr ⟨w, hw, rfl⟩), ?_⟩
  cases hunmixed with
  | record _ _ hrow _ => exact hrow w hw

theorem mem_pick {r : RecordTy} {names : List String} {f : String × Ty} (hf : f ∈ r.pick s names) :
    ∃ t, r.field? f.1 = some t ∧ f.2 = s.apply t := by
  obtain ⟨name, -, hname⟩ := List.mem_filterMap.1 (Table.mem_ofList hf)
  obtain ⟨t, ht, rfl⟩ := Option.map_eq_some_iff.1 hname
  exact ⟨t, ht, rfl⟩

variable (hrel : Adapts κ rel) (hP : ∀ id, P id → id ≤ n)
  (hfresh : ∀ id : Int, n < id → κ.isRow id) (hsub : sub.toTy.Unmixed κ)
  (hsuper : super.toTy.Unmixed κ) (hinsub : ∀ id, sub.toTy.Mentions id → P id)
  (hinsuper : ∀ id, super.toTy.Mentions id → P id)

include hrel hP hfresh hsub hsuper hinsub hinsuper

/-- The fields of a record are unified with those of a wider one, one after the other. -/
theorem ends_unifyWidth : ∀ {fs : List (String × Ty)} {s : Subst} {p : Progress},
    (∀ f ∈ fs, f ∈ super.fields) → n ≤ p.supply.count → Found κ P n p.supply.count s →
      Ends (unifyWidth ctx rel sub super fs s) p
        (fun s q => Advances p q ∧ Found κ P n q.supply.count s) fun _ q => Advances p q
  | [], s, p, _, _, hs => ends_pure ⟨.refl p, hs⟩
  | (name, t) :: fs, s, p, hfs, hn, hs => by
      obtain ⟨hmem, hfs⟩ := List.forall_mem_cons.1 hfs
      rw [unifyWidth]
      split
      · exact ends_unifyWidth hfs hn hs
      · next u hu =>
          have ht : t.Unmixed κ := by
            cases hsuper with
            | record _ _ _ hgs => exact hgs _ hmem
          have hstep := found_step hrel hP hfresh hn hs (unmixed_field hsub hu) ht
            (fun id hid => hinsub id (mentions_field hu hid)) fun id hid =>
              hinsuper id (Ty.mentions_record.2 (.inl ⟨_, hmem, hid⟩))
          refine Ends.bind (ends_orElseThrow (hstep.imp ?_ fun _ _ h => h))
          rintro next q ⟨hadv, hnext⟩
          exact (ends_unifyWidth hfs (Nat.le_trans hn hadv.count) hnext).imp
            (fun _ _ h => h.imp_left hadv.trans) fun _ _ hadv' => hadv.trans hadv'

omit hrel in
/-- An open record grows the fields it lacks. -/
theorem ends_extend {names : List String} {w : TyVar} (hn : n ≤ p.supply.count)
    (hs : Found κ P n p.supply.count s) (hw : sub.rowUnder s = some w) :
    Ends (do
      let behind ← fresh w.level
      extendRow ctx s w (super.pick s names) (some behind)) p
      (fun s q => Advances p q ∧ Found κ P n q.supply.count s) fun _ q => Advances p q := by
  obtain ⟨hmentions, hrow⟩ := mentions_rowUnder hs.settled hsub hw
  have hadv : Advances p { p with supply := ⟨p.supply.count + 1⟩ } := ⟨Nat.le_succ _, id⟩
  refine Ends.bind (ends_fresh ?_)
  generalize hbehind : (⟨(p.supply.count : Int) + 1, w.level⟩ : TyVar) = behind
  have hid : behind.id = p.supply.count + 1 := by rw [← hbehind]
  have hpicked : ∀ {f : String × Ty}, f ∈ super.pick s names → f.2.Unmixed κ ∧
      ∀ id, f.2.Mentions id → s.get? id = none ∧ (P id ∨ (n < id ∧ id ≤ p.supply.count)) := by
    intro f hf
    obtain ⟨t, ht, hft⟩ := mem_pick hf
    rw [hft]
    exact ⟨hs.settled.apply (unmixed_field hsuper ht), fun id hid =>
      hs.left (unmixed_field hsuper ht)
        (fun id hid => hinsuper id (mentions_field ht hid)) hid⟩
  have hrecord : (Ty.record (super.pick s names) (some behind)).Unmixed κ := by
    cases hsub with
    | record hrec _ _ _ =>
        refine .record hrec (Table.ascending_ofList _) ?_ fun f hf => (hpicked hf).1
        rintro v ⟨⟩
        exact hfresh _ (by omega)
  unfold extendRow
  rw [bindVar_record]
  split
  · exact Ends.bind (ends_throw hadv)
  · next hocc =>
      refine Ends.bind (ends_pure (ends_pure ⟨hadv, ?_⟩))
      have hsingle := found_single (v := w) (p.supply.count + 1) (p.supply.count + 1) hrecord
        (fun _ => ⟨_, _, rfl⟩) fun h => hocc (Ty.occurs_iff_mentions.2 h)
      refine (hs.later (Nat.le_succ _)).append hP (by omega) (Nat.le_refl _) (fun id hid => ?_)
        hsingle
      have hlater : ∀ {id : Int}, s.get? id = none ∧ (P id ∨ (n < id ∧ id ≤ p.supply.count)) →
          s.get? id = none ∧ (P id ∨ (n < id ∧ id ≤ (p.supply.count + 1 : Nat))) := fun h =>
        h.imp_right fun h => h.imp_right fun ⟨hlt, hle⟩ => ⟨hlt, by omega⟩
      rcases hid with rfl | hid
      · exact hlater (hs.left hsub hinsub hmentions)
      · rcases Ty.mentions_record.1 hid with ⟨f, hf, hid⟩ | ⟨v, hv, hid⟩
        · exact hlater ((hpicked hf).2 id hid)
        · cases hv
          exact ⟨hs.unbound hP hn (by omega), .inr (by omega)⟩

variable (sub super) in
/-- What making a record a subtype of another finds is settled. -/
theorem ends_subtypeRecords (hn : n ≤ p.supply.count) :
    Ends (subtypeRecords ctx rel sub super) p
      (fun s q => Advances p q ∧ Found κ P n q.supply.count s) fun _ q => Advances p q := by
  unfold subtypeRecords
  refine Ends.bind ((ends_unifyWidth hrel hP hfresh hsub hsuper hinsub hinsuper (fun f hf => hf) hn
    (found_empty κ P n _)).imp ?_ fun _ _ h => h)
  rintro s q ⟨hadv, hs⟩
  dsimp only
  split
  · exact ends_pure ⟨hadv, hs⟩
  · split
    · exact ends_throw hadv
    · next w hw =>
        exact (ends_extend hP hfresh hsub hsuper hinsub hinsuper (Nat.le_trans hn hadv.count) hs
          hw).imp (fun _ _ ⟨hadv', hs⟩ => ⟨hadv.trans hadv', hs⟩) fun _ _ hadv' => hadv.trans hadv'

end Width

section Acceptance

variable {κ : Sorts} {n : Nat} {p : Progress} {ctx : Context} {a t : Ty} {T : List Ty}

theorem ends_subtype_record {fs gs : List (String × Ty)} {row row' : Option TyVar} (limit : Nat)
    (hT : Given κ p.supply.count [.record fs row, .record gs row'])
    (ha : (Ty.record fs row).Unmixed κ) (hb : (Ty.record gs row').Unmixed κ) :
    Ends (subtype ctx limit (.record fs row) (.record gs row')) p
      (fun s q => Advances p q ∧
        Found κ (Among [.record fs row, .record gs row']) p.supply.count q.supply.count s)
      fun _ q => Advances p q := by
  cases limit with
  | zero => exact ends_exceed ⟨Nat.le_refl _, fun _ => rfl⟩
  | succ limit =>
      rw [subtype]
      unfold subtypeStep
      split
      · exact ends_pure ⟨.refl p, found_empty κ _ _ _⟩
      · exact ends_subtypeRecords ⟨fs, row⟩ ⟨gs, row'⟩ (adapts_unify ctx κ limit) hT.older
          hT.fresh ha hb (fun id hid => among_pair.2 (.inl hid))
          (fun id hid => among_pair.2 (.inr hid)) (Nat.le_refl _)

/-- Where one of several attempts has to succeed, all fail only if the limit is exceeded. -/
theorem firstOf_exceeded {f : Ty → Relate Subst} : ∀ {ts : List Ty} {p : Progress},
    (∀ t ∈ ts, ∀ q, p.supply.count ≤ q.supply.count →
      Ends (f t) q (fun _ r => Advances q r) fun _ r => Advances q r) →
    (∃ t ∈ ts, ∀ q, p.supply.count ≤ q.supply.count →
      Ends (f t) q (fun _ _ => True) fun _ r => r.exceeded = true) →
    ((firstOf f ts).run p).1 = none → ((firstOf f ts).run p).2.exceeded = true
  | t :: ts, p, h, ⟨u, hu, hsome⟩, hnone => by
      have hhead := h t List.mem_cons_self p (Nat.le_refl _)
      have hsucceeds := hsome p (Nat.le_refl _)
      rw [firstOf, StateM.run_bind, show (attempt (f t)).run p = attempt (f t) p from rfl,
        attempt] at hnone ⊢
      unfold Ends at hhead
      rcases hout : (f t).run p with ⟨_ | s, q⟩
      · rw [hout] at hhead hnone
        have hadv : Advances p q := hhead
        have htail : ∀ u ∈ ts, ∀ r, q.supply.count ≤ r.supply.count →
            Ends (f u) r (fun _ r' => Advances r r') fun _ r' => Advances r r' :=
          fun u hu r hr => h u (List.mem_cons_of_mem _ hu) r (Nat.le_trans hadv.count hr)
        rcases List.mem_cons.1 hu with rfl | hu
        · have hlast := (firstOf_ends (R := fun _ _ _ _ => True)
            (p := { q with assumed := p.assumed }) fun u hu r hr =>
              (htail u hu r hr).imp (fun _ _ h => ⟨h, trivial⟩) fun _ _ h => h).1
          unfold Ends at hsucceeds
          rw [hout] at hsucceeds
          exact hlast.exceeded hsucceeds
        · exact firstOf_exceeded (p := { q with assumed := p.assumed }) htail
            ⟨u, hu, fun r hr => hsome r (Nat.le_trans hadv.count hr)⟩ hnone
      · rw [hout] at hnone
        cases hnone

/-- A record that fits an alternative is accepted by that one or an earlier one. -/
theorem passes_alternative {fs : List (String × Ty)} {row : Option TyVar} {ts : List Ty}
    {reason : String} (limit : Nat) (hT : Given κ p.supply.count [.record fs row, .union ts])
    (ha : (Ty.record fs row).Unmixed κ) (hmem : t ∈ ts) (hfits : (Ty.record fs row).Fits t) :
    Passes κ (Among [.record fs row, .union ts]) p
      (subtypeSome ctx (.record fs row) (.union ts) reason
        (firstOf (subtype ctx limit (.record fs row)) ts)) := by
  obtain ⟨hdivided, hts⟩ := (hT.joint (.union ts) (by simp)).of_mem_union
  have hin : ∀ {u : Ty} {id : Int}, u ∈ ts → Among [.record fs row, u] id →
      Among [.record fs row, .union ts] id := fun hu hid =>
    among_pair.2 ((among_pair.1 hid).imp_right fun hid => Ty.mentions_union.2 ⟨_, hu, hid⟩)
  have halt : ∀ u ∈ ts, ∀ q : Progress, p.supply.count ≤ q.supply.count →
      Ends (subtype ctx limit (.record fs row) u) q (fun s r => Advances q r ∧
        Found κ (Among [.record fs row, .union ts]) q.supply.count r.supply.count s)
        fun _ r => Advances q r := by
    intro u hu q hq
    obtain ⟨gs, row', rfl⟩ := hdivided.record u hu
    have hgiven : Given κ q.supply.count [.record fs row, .record gs row'] := by
      refine ⟨by simp [Ty.Joint.unmixed ha, Ty.Joint.unmixed (hts _ hu)], fun id hid => ?_,
        fun id hid => hT.fresh id (by omega)⟩
      have := hT.older id (hin hu hid)
      omega
    exact (ends_subtype_record limit hgiven ha (hts _ hu)).imp
      (fun s r ⟨hadv, hs⟩ => ⟨hadv, hs.mono fun _ => hin hu⟩) fun _ _ h => h
  have hfirst := firstOf_ends (p := p) (R := fun _ n s m =>
    Found κ (Among [.record fs row, .union ts]) n m s) halt
  have hexceeded := firstOf_exceeded (p := p) (fun u hu q hq =>
    (halt u hu q hq).imp (fun _ _ h => h.1) fun _ _ h => h)
    ⟨t, hmem, fun q _ => (accepts_subtype limit ha (hts t hmem) hfits q).imp
      (fun _ _ _ => trivial) fun _ _ h => h⟩
  refine Ends.bind (ends_lift ?_)
  generalize (firstOf (subtype ctx limit (.record fs row)) ts).run p = out at hfirst hexceeded
  obtain ⟨o, q⟩ := out
  obtain ⟨hadv, hsome⟩ := hfirst
  cases o with
  | some s =>
      obtain ⟨-, -, n, hn, -, hs⟩ := hsome s rfl
      exact ends_pure ⟨hadv, hs.earlier hn⟩
  | none => exact ends_throw (hexceeded rfl)

/-- Pairs that fit are accepted one after the other. -/
theorem passes_thread {rel : Relation}
    (hrel : ∀ (p : Progress) (a t : Ty), Given κ p.supply.count [a, t] → a.Unmixed κ → a.Under t →
      Passes κ (Among [a, t]) p (rel a t)) (hT : Given κ n T) :
    ∀ {pairs : Equations} {s : Subst} {p : Progress},
      (∀ e ∈ pairs, e.1 ∈ T ∧ e.2 ∈ T ∧ e.1.Unmixed κ) →
      (∀ e ∈ pairs, (s.apply e.1).Under (s.apply e.2)) → n ≤ p.supply.count →
      Found κ (Among T) n p.supply.count s →
      Ends (thread rel pairs s) p
        (fun s q => Advances p q ∧ Found κ (Among T) n q.supply.count s)
        fun _ q => q.exceeded = true
  | [], _, p, _, _, _, hs => ends_pure ⟨.refl p, hs⟩
  | (a, t) :: pairs, s, p, hpairs, hunder, hn, hs => by
      obtain ⟨⟨ha, ht, hunmixed⟩, hpairs⟩ := List.forall_mem_cons.1 hpairs
      obtain ⟨hhead, hunder⟩ := List.forall_mem_cons.1 hunder
      have hleft := left_pair hs hT ha ht
      have hgiven := given_pair hT hn (hs.settled.joint (hT.joint a ha))
        (hs.settled.joint (hT.joint t ht)) fun id hid => (hleft id hid).2
      refine Ends.bind ((hrel p _ _ hgiven (hs.settled.apply hunmixed) hhead).imp ?_ fun _ _ h => h)
      rintro next q ⟨hadv, hnext⟩
      have hapart := hs.apart hT.older hn (fun id hid => (hleft id hid).1) hnext
      refine (passes_thread hrel hT hpairs (fun e he => ?_) (Nat.le_trans hn hadv.count)
        (hs.append hT.older hn hadv.count hleft hnext)).imp
        (fun _ _ ⟨hadv', hs⟩ => ⟨hadv.trans hadv', hs⟩) fun _ _ h => h
      obtain ⟨-, hmem, he'⟩ := hpairs e he
      rw [hs.settled.apply_after hnext.settled hapart he',
        hs.settled.joint_after hnext.settled hapart (hT.joint _ hmem)]
      exact hnext.settled.under (hs.settled.apply he') (hs.settled.joint (hT.joint _ hmem))
        (hunder e he)

/-- Tuples are accepted element by element. -/
theorem passes_tuple {rel : Relation} {as ts : List Ty}
    (hrel : ∀ (p : Progress) (a t : Ty), Given κ p.supply.count [a, t] → a.Unmixed κ → a.Under t →
      Passes κ (Among [a, t]) p (rel a t))
    (hT : Given κ p.supply.count [.tuple as, .tuple ts]) (ha : (Ty.tuple as).Unmixed κ)
    (hall : ∀ e ∈ as.zip ts, e.1.Under e.2) :
    Passes κ (Among [.tuple as, .tuple ts]) p (thread rel (as.zip ts) .empty) := by
  have has : ∀ u ∈ as, u.Unmixed κ := by
    cases ha with
    | tuple has => exact has
  have hgiven : Given κ p.supply.count (as ++ ts) := by
    refine ⟨?_, fun id hid => hT.older id (among_tuple hid), hT.fresh⟩
    exact List.forall_mem_append.2
      ⟨fun u hu => .unmixed (has u hu), (hT.joint (.tuple ts) (by simp)).of_mem_tuple⟩
  refine (passes_thread hrel hgiven (fun e he => ?_) (fun e he => ?_) (Nat.le_refl _)
    (found_empty κ _ _ _)).imp
    (fun s q ⟨hadv, hs⟩ => ⟨hadv, hs.mono fun _ => among_tuple⟩) fun _ _ h => h
  · obtain ⟨hea, het⟩ := List.of_mem_zip he
    exact ⟨List.mem_append_left _ hea, List.mem_append_right _ het, has _ hea⟩
  · rw [Subst.apply_empty, Subst.apply_empty]
    exact hall e he

/-- What fits a joint type is accepted as a subtype of it, unless the limit is exceeded. -/
theorem passes_subtype (ctx : Context) : ∀ (limit : Nat) (p : Progress) (a t : Ty),
    Given κ p.supply.count [a, t] → a.Unmixed κ → a.Under t →
      Passes κ (Among [a, t]) p (subtype ctx limit a t)
  | 0, _, _, _, _, _, _ => ends_exceed rfl
  | limit + 1, p, a, t, hT, ha, h => by
      have hnothing : Passes κ (Among [a, t]) p (pure .empty) :=
        ends_pure ⟨.refl p, found_empty κ _ _ _⟩
      have ht := hT.joint t (by simp)
      cases h with
      | fits h =>
          refine (accepts_subtype (limit + 1) ha (ht.unmixed_of_fits h) h p).imp ?_ fun _ _ h => h
          rintro s q ⟨hadv, rfl⟩
          exact ⟨hadv, found_empty κ _ _ _⟩
      | @alternative _ u ts hmem h =>
          obtain ⟨gs, row', rfl⟩ := ht.of_mem_union.1.record u hmem
          cases h with
          | record hrow hnames hfields =>
              rw [subtype]
              unfold subtypeStep
              split
              · exact hnothing
              · exact passes_alternative limit hT ha hmem (.record hrow hnames hfields)
      | @tuple as ts hlen hall =>
          rw [subtype]
          unfold subtypeStep
          split
          · exact hnothing
          · show Ends (if as.length = ts.length then _ else _) p _ _
            rw [if_pos hlen]
            exact passes_tuple (passes_subtype ctx limit) hT ha hall

end Acceptance

/-! ## The result -/

section Result

variable {κ : Sorts} {n : Nat} {p : Progress} {ctx : Context} {limit : Nat} {r : TyVar}
  {branches : List Ty} {t : Ty} {s : Subst}

/-- An unknown is bound to a type in which it does not occur. -/
theorem ends_unify_free (h : ¬ t.Mentions r.id) :
    Ends (unify ctx limit (.var r) t) p (fun s q => s = .single r t ∧ q = p) fun _ _ => True := by
  cases limit with
  | zero => exact ends_exceed trivial
  | succ limit =>
      have hequiv : ¬ (Ty.var r).equiv t = true := by
        intro heq
        obtain ⟨w, rfl, hid⟩ := Ty.exists_var_of_equiv heq
        exact h (Ty.mentions_var.2 hid.symm)
      rw [unify]
      unfold unifyStep
      rw [if_neg hequiv]
      show Ends (bindVar ctx r t) p _ _
      unfold bindVar
      split
      · next w =>
          rw [if_neg fun hw => h (Ty.mentions_var.2 hw)]
          exact ends_pure ⟨rfl, rfl⟩
      · rw [if_neg fun hocc => h (Ty.occurs_iff_mentions.1 hocc)]
        exact ends_pure ⟨rfl, rfl⟩

/-- Each branch fits the result, under what was found. -/
structure Resolves (κ : Sorts) (n : Nat) (r : TyVar) (branches : List Ty) (s : Subst) : Prop where
  given : ∀ b ∈ branches, Given κ n [s.apply b, s.apply (.var r)]
  unmixed : ∀ b ∈ branches, (s.apply b).Unmixed κ
  under : ∀ b ∈ branches, (s.apply b).Under (s.apply (.var r))

section Binding

variable {m : Nat} (h : Reached κ n m branches branches t s)
  (hr : ∀ id, Among branches id ∨ (n < id ∧ id ≤ m) → id ≠ r.id)
include h hr

theorem Reached.result_free : s.get? r.id = none := by
  cases hget : s.get? r.id with
  | none => rfl
  | some u => exact absurd rfl (hr r.id (h.found.inside r.id (.inl ⟨u, hget⟩)))

theorem Reached.result_off : ¬ (s.apply t).Mentions r.id := fun hid =>
  hr r.id ((h.found.settled.mentions_or_of_joint h.joint hid).elim (h.inside r.id)
    (h.found.inside r.id)) rfl

theorem Reached.get?_result :
    ((Subst.single r (s.apply t)).after s).get? r.id = some (s.apply t) := by
  rw [Subst.get?_after (Subst.ordered_single _ _) h.found.settled.ordered, h.result_free hr]
  exact (get?_single_of_free (h.result_off hr) r.id).trans (if_pos rfl)

/-- Binding the result changes no other binding. -/
theorem Reached.get?_other {id : Int} (hid : id ≠ r.id) :
    ((Subst.single r (s.apply t)).after s).get? id = s.get? id := by
  have hord := h.found.settled.ordered
  have hsingle := get?_single_of_free (h.result_off hr)
  rw [Subst.get?_after (Subst.ordered_single _ _) hord]
  cases hget : s.get? id with
  | none => exact (hsingle id).trans (if_neg hid)
  | some u =>
      have hself : (Subst.single r (s.apply t)).apply u = u := by
        refine (h.found.settled.unmixed hget).stable.apply_eq_self fun j hj => ?_
        rw [hsingle, if_neg (hr j (h.found.inside j (.inr ⟨id, u, hget, hj⟩)))]
      show Subst.held id ((Subst.single r (s.apply t)).apply u) = some u
      rw [hself]
      exact Subst.held_of_ne fun w hw => hord.proper (hw ▸ hget)

/-- Each branch fits what the result is bound to. -/
theorem Reached.resolves (hT : Given κ n branches) (hunmixed : ∀ b ∈ branches, b.Unmixed κ)
    (hnm : n ≤ m) : Resolves κ m r branches ((Subst.single r (s.apply t)).after s) := by
  have hs := h.found.settled
  have hbranch : ∀ b ∈ branches, ((Subst.single r (s.apply t)).after s).apply b = s.apply b :=
    fun b hb => Subst.apply_congr_of_unmixed (hunmixed b hb) fun id hid =>
      h.get?_other hr (hr id (.inl ⟨b, hb, hid⟩))
  have hresult : ((Subst.single r (s.apply t)).after s).apply (.var r) = s.apply t := by
    rw [Subst.apply_var, h.get?_result hr]
    rfl
  refine ⟨fun b hb => ?_, fun b hb => ?_, fun b hb => ?_⟩
  · rw [hbranch b hb, hresult]
    refine given_pair hT hnm (.unmixed (hs.apply (hunmixed b hb))) (hs.joint h.joint)
      fun id hid => ?_
    exact (h.left hT hb id (among_pair.2 (among_pair.1 hid).symm)).2
  · rw [hbranch b hb]
    exact hs.apply (hunmixed b hb)
  · rw [hbranch b hb, hresult]
    exact h.under b hb

end Binding

/-- Each branch fits the result, unless another unknown is bound to alternatives. -/
theorem ends_branch (hT : Given κ p.supply.count branches) (hunmixed : ∀ b ∈ branches, b.Unmixed κ)
    (hle : r.id ≤ p.supply.count) (hoff : ¬ Among branches r.id) :
    Ends (branch ctx limit (.var r) branches) p
      (fun s q => s.Ordered ∧ (Resolves κ q.supply.count r branches s ∨
        ∃ id t, id ≠ r.id ∧ s.get? id = some t ∧ t.Split)) fun _ _ => True := by
  cases branches with
  | nil => exact ends_pure ⟨Subst.ordered_empty, .inl ⟨by simp, by simp, by simp⟩⟩
  | cons first others =>
      have hstart : Reached κ p.supply.count p.supply.count (first :: others) [first] first
          .empty := by
        refine ⟨found_empty κ _ _ _, hT.joint first (by simp),
          fun id hid => .inl ⟨first, by simp, hid⟩, List.forall_mem_singleton.2 ?_⟩
        rw [Subst.apply_empty]
        exact .fits (Ty.fits_refl (hunmixed first (by simp)))
      refine Ends.bind ((ends_joinList (joining_joinBranches ctx κ limit _) hT hunmixed hstart
        (Nat.le_refl _) (fun u hu => hu)).imp ?_ fun _ _ h => h)
      rintro ⟨joined, s⟩ q (⟨hcount, t, ht, hs⟩ | hspoilt)
      · have ht : joined = s.apply t := ht
        subst ht
        have hr : ∀ id, Among (first :: others) id ∨
            (p.supply.count < id ∧ id ≤ q.supply.count) → id ≠ r.id := by
          rintro id (hid | hid) rfl
          · exact hoff hid
          · omega
        show Ends (unify ctx limit (s.apply (.var r)) (s.apply t) >>= fun bound =>
          pure (bound.after s)) q _ _
        rw [Subst.apply_var, hs.result_free hr]
        refine Ends.bind ((ends_unify_free (hs.result_off hr)).imp ?_ fun _ _ h => h)
        rintro _ _ ⟨rfl, rfl⟩
        exact ends_pure ⟨Subst.ordered_after _ _, .inl (hs.resolves hr hT hunmixed hcount)⟩
      · refine Ends.bind ((orderly_unify ctx limit _ _ q).imp (fun bound _ hbound => ?_)
          fun _ _ h => h)
        obtain ⟨hord, id, u, hid, hget, hsplit⟩ := hspoilt.after hbound
        refine ends_pure ⟨hord, .inr ⟨id, u, ?_, hget, hsplit⟩⟩
        rintro rfl
        exact hid.elim hoff (by omega)

end Result

end Relate

/-! ## Solving -/

theorem Ty.Unmixed.sortsFrom {isRow : Int → Prop} {n : Nat} {t : Ty} (h : t.Unmixed ⟨isRow, True⟩)
    (hle : ∀ id, t.Mentions id → id ≤ n) : t.Unmixed (ConstraintSet.sortsFrom isRow n) :=
  Ty.unmixed_of_core_stamp (h.core_stamp.sortsFrom fun id hid => hle id (h.mentions_stamp.1 hid))

/-- A set of one constraint: the type of the result of branches, which have no alternatives and do
not mention it, with rows and other unknowns told apart by their numbers, and of unknowns that have
been given out. -/
structure ConstraintSet.Branching (isRow : Int → Prop) (n : Nat) (r : TyVar) (branches : List Ty)
    (cs : ConstraintSet) : Prop where
  only : ∃ c, cs.items = [c] ∧ c.demand = .branch (.var r) branches
  unmixed : ∀ b ∈ branches, b.Unmixed ⟨isRow, True⟩
  older : ∀ b ∈ branches, ∀ id, b.Mentions id → id ≤ n
  result : r.id ≤ n
  off : ∀ b ∈ branches, ¬ b.Mentions r.id

namespace ConstraintSet.Branching

variable {isRow : Int → Prop} {n : Nat} {r : TyVar} {branches : List Ty} {cs : ConstraintSet}

/-- Every unknown that is given out from now on is a row. -/
theorem unmixed_sortsFrom (h : cs.Branching isRow n r branches) :
    ∀ b ∈ branches, b.Unmixed (sortsFrom isRow n) :=
  fun b hb => (h.unmixed b hb).sortsFrom (h.older b hb)

theorem given (h : cs.Branching isRow n r branches) :
    Given (sortsFrom isRow n) n branches := by
  refine ⟨fun b hb => .unmixed (h.unmixed_sortsFrom b hb), ?_, fun id hid => .inr hid⟩
  rintro id ⟨b, hb, hid⟩
  exact h.older b hb id hid

theorem not_among (h : cs.Branching isRow n r branches) : ¬ Among branches r.id := by
  rintro ⟨b, hb, hid⟩
  exact h.off b hb hid

end ConstraintSet.Branching

namespace Session

variable {isRow : Int → Prop} {limit : Nat} {σ τ : Session} {cs : ConstraintSet} {r : TyVar}
  {branches : List Ty} {s : Subst}

/-- Solving a set of one constraint meets it, and finds what that adds. -/
theorem solve_single {c : Constraint} (hitems : cs.items = [c]) (htrivial : c.isTrivial = false)
    (hsolve : (solve limit cs).run σ = ({ subst := s }, τ)) :
    ∃ next, (discharge limit (c.apply .empty)).run σ = (.ok next, τ) ∧
      (next.Ordered → ∀ id, s.get? id = next.get? id) := by
  have hsorted : cs.simplify.sorted = [c] := by
    rw [ConstraintSet.sorted, ConstraintSet.simplify, ConstraintSet.items_filter, hitems]
    simp [htrivial]
  rw [solve, hsorted, run_solveInOrder] at hsolve
  dsimp only [List.foldl_nil] at hsolve
  generalize (discharge limit (c.apply .empty)).run σ = out at hsolve
  obtain ⟨result, υ⟩ := out
  cases result with
  | error e => cases hsolve
  | ok next =>
      dsimp only at hsolve
      split at hsolve
      · next hempty =>
          obtain ⟨hsubst, rfl⟩ := Prod.mk.inj hsolve
          cases hsubst
          exact ⟨next, rfl, fun _ id => (Subst.get?_of_isEmpty hempty id).symm⟩
      · obtain ⟨hsubst, rfl⟩ := Prod.mk.inj hsolve
        cases hsubst
        exact ⟨next, rfl, fun hord id => Subst.get?_after hord Subst.ordered_empty id⟩

/-- Meeting the constraint resolves the result. -/
theorem ends_discharge_branch (limit : Nat) {c : Constraint}
    (hdemand : c.demand = .branch (.var r) branches) {κ : Sorts}
    (hT : Given κ σ.supply.count branches) (hunmixed : ∀ b ∈ branches, b.Unmixed κ)
    (hle : r.id ≤ σ.supply.count) (hoff : ¬ Among branches r.id) :
    Ends (discharge limit (c.apply .empty)) σ
      (fun s τ => s.Ordered ∧ (Relate.Resolves κ τ.supply.count r branches s ∨
        ∃ id t, id ≠ r.id ∧ s.get? id = some t ∧ t.Split)) fun _ _ => True := by
  have happlied : (c.apply .empty).demand = .branch (.var r) branches := by
    rw [Constraint.apply, hdemand, Demand.apply, Subst.apply_empty, Subst.applyAll_eq_map,
      Subst.map_apply_of_isEmpty rfl]
  have htrivial : (c.apply .empty).isTrivial = false := by rw [Constraint.isTrivial, happlied]
  unfold discharge
  rw [if_neg (by simp [htrivial]), happlied]
  exact ends_relating (Relate.ends_branch hT hunmixed hle hoff)

/-- The result of branches covers every branch: a branch can be used as the result, unless the
limit is exceeded on the way. -/
theorem subtype_result (h : cs.Branching isRow σ.supply.count r branches)
    (hsolve : (solve limit cs).run σ = ({ subst := s }, τ))
    (hothers : ∀ id t, id ≠ r.id → s.get? id = some t → ¬ t.Split) {b : Ty} (hb : b ∈ branches)
    (limit' : Nat) (span : Span) {ρ : Session} (hρ : τ.supply.count ≤ ρ.supply.count) :
    Ends (subtype limit' span (s.apply b) (s.apply (.var r))) ρ (fun _ _ => True)
      fun _ υ => υ.exceeded = true := by
  obtain ⟨c, hitems, hdemand⟩ := h.only
  have htrivial : c.isTrivial = false := by rw [Constraint.isTrivial, hdemand]
  obtain ⟨next, hmet, hget⟩ := solve_single hitems htrivial hsolve
  have hunmixed := h.unmixed_sortsFrom
  have hends := ends_discharge_branch limit hdemand h.given hunmixed h.result h.not_among
  unfold Ends at hends
  rw [hmet] at hends
  obtain ⟨hord, hresolves | ⟨id, t, hne, ht, hsplit⟩⟩ := hends
  · have hbranch : s.apply b = next.apply b :=
      Subst.apply_congr_of_unmixed (hunmixed b hb) fun id _ => hget hord id
    have hresult : s.apply (.var r) = next.apply (.var r) := by
      rw [Subst.apply_var, Subst.apply_var, hget hord]
    rw [hbranch, hresult]
    exact ends_relating ((Relate.passes_subtype _ limit' _ _ _ ((hresolves.given b hb).later hρ)
      (hresolves.unmixed b hb) (hresolves.under b hb)).imp (fun _ _ _ => trivial) fun _ _ =>
        exceeded_afterRelating)
  · exact absurd hsplit (hothers id t hne (by rw [hget hord, ht]))

def circle : Ty := .record [("kind", .lit "circle")] none

def square : Ty := .record [("kind", .lit "square")] none

/-- The branches `({kind: "circle"}, t₂)` and `({kind: "square"}, Int)` with the result `t₁`. -/
def circleOrSquare : Constraint where
  demand := .branch (.var ⟨1, 0⟩) [.tuple [circle, .var ⟨2, 0⟩], .tuple [square, .int]]

/-- What is found for them: `t₁` is a pair of either shape and a number, and `t₂` is a number. -/
def eitherShape : Subst :=
  .ofList [(⟨1, 0⟩, .tuple [.union [circle, square], .int]), (⟨2, 0⟩, .int)]

theorem branching_circleOrSquare :
    (ConstraintSet.ofList [circleOrSquare]).Branching (fun _ => False) 2 ⟨1, 0⟩
      [.tuple [circle, .var ⟨2, 0⟩], .tuple [square, .int]] := by
  have hrecord : ∀ value, (Ty.record [("kind", .lit value)] none).Unmixed ⟨fun _ => False, True⟩ :=
    fun value => .record trivial (List.pairwise_singleton _ _) (by rintro v ⟨⟩)
      (List.forall_mem_singleton.2 (.lit value))
  refine ⟨⟨circleOrSquare, rfl, rfl⟩, ?_, ?_, by decide, ?_⟩
  · refine List.forall_mem_cons.2 ⟨.tuple ?_, List.forall_mem_singleton.2 (.tuple ?_)⟩
    · exact List.forall_mem_cons.2
        ⟨hrecord _, List.forall_mem_singleton.2 (.var fun hrow => hrow)⟩
    · exact List.forall_mem_cons.2 ⟨hrecord _, List.forall_mem_singleton.2 (.prim _)⟩
  · simp [circle, square, Ty.int]
  · simp [circle, square, Ty.int]

/-- The second branch is accepted by the second alternative. -/
theorem subtype_result_square :
    (solve 250 (.ofList [circleOrSquare])).run (sessionOf 2) =
      ({ subst := eitherShape }, sessionOf 2) ∧
    Ends (subtype 250 {} (eitherShape.apply (.tuple [square, .int]))
      (eitherShape.apply (.var ⟨1, 0⟩))) (sessionOf 2) (fun _ _ => True)
      fun _ υ => υ.exceeded = true := by
  have hsolve : (solve 250 (.ofList [circleOrSquare])).run (sessionOf 2) =
      ({ subst := eitherShape }, sessionOf 2) := by
    have hrun : (solve 250 (.ofList [circleOrSquare])).run (sessionOf 2) =
        ({ subst := eitherShape }, { sessionOf 2 with ends := True ∧ True }) := by
      with_unfolding_all rfl
    rw [hrun, with_ends trivial ⟨trivial, trivial⟩]
  refine ⟨hsolve, subtype_result branching_circleOrSquare hsolve (fun id t hid ht => ?_) (by simp)
    250 {} (Nat.le_refl _)⟩
  have hget : eitherShape.get? id =
      if id = 1 then some (.tuple [.union [circle, square], .int])
      else if id = 2 then some .int else none := by
    show Option.map _ (Table.get? id [(1, _), (2, _)]) = _
    rw [Table.get?_cons, Table.get?_cons]
    split
    · rfl
    · split <;> rfl
  rw [hget, if_neg hid] at ht
  split at ht
  · cases ht
    exact fun hsplit => by cases hsplit
  · cases ht

end Session

end RowTypes
