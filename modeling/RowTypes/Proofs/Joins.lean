import RowTypes.Proofs.LiteralUnification
import RowTypes.Proofs.OrderedRuns
import RowTypes.Proofs.ToldApart

/-!
# What joins come to

The join of a joint type and a type without alternatives is a joint type that is as wide as the
first, and that the second fits.  Joining the elements of tuples, and joining branches one after
the other, keeps that, since both last under what is found later.

There is one way to leave the joint types: an unknown is joined with alternatives, and bound to
them.  From then on anything may happen, but the unknown stays bound to alternatives to the end,
so such a run is known by its outcome.
-/

namespace RowTypes

open Equations

/-- An unknown occurs in one of some types. -/
def Among (ts : List Ty) (id : Int) : Prop := ∃ t ∈ ts, t.Mentions id

/-- Types that can be joined when so many unknowns have been given out. -/
structure Given (κ : Sorts) (n : Nat) (ts : List Ty) : Prop where
  joint : ∀ t ∈ ts, t.Joint κ
  older : ∀ id, Among ts id → id ≤ n
  fresh : ∀ id : Int, n < id → κ.isRow id

/-- An unknown that satisfies a predicate, or is newer, is bound to alternatives. -/
def Spoilt (P : Int → Prop) (n : Nat) (s : Subst) : Prop :=
  s.Ordered ∧ ∃ id t, (P id ∨ n < id) ∧ s.get? id = some t ∧ t.Split

section Sequence

variable {κ : Sorts} {P Q : Int → Prop} {n m m' : Nat} {s next : Subst} {ts : List Ty} {t : Ty}

theorem among_pair {a b : Ty} {id : Int} : Among [a, b] id ↔ a.Mentions id ∨ b.Mentions id := by
  simp [Among]

theorem Given.later (h : Given κ n ts) (hnm : n ≤ m) : Given κ m ts := by
  refine ⟨h.joint, fun id hid => ?_, fun id hid => h.fresh id (by omega)⟩
  have := h.older id hid
  omega

theorem Found.free_of_among (h : Found κ P n m s) (hts : ∀ t ∈ ts, t.Joint κ)
    (hP : ∀ id, Among ts id → P id) {id : Int} (hid : Among (ts.map s.apply) id) :
    s.get? id = none ∧ (P id ∨ (n < id ∧ id ≤ m)) := by
  obtain ⟨u, hu, hid⟩ := hid
  obtain ⟨t, ht, rfl⟩ := List.mem_map.1 hu
  refine ⟨h.settled.free_of_joint (hts t ht) hid, ?_⟩
  rcases h.settled.mentions_or_of_joint (hts t ht) hid with hid | hid
  · exact .inl (hP id ⟨t, ht, hid⟩)
  · exact h.inside id hid

/-- Alternatives that an unknown is bound to stay alternatives. -/
theorem Spoilt.after (h : Spoilt P n s) (hnext : next.Ordered) : Spoilt P n (next.after s) := by
  obtain ⟨hord, id, t, hid, hget, hsplit⟩ := h
  refine ⟨Subst.ordered_after next s, id, next.apply t, hid, ?_, Subst.split_apply next hsplit⟩
  rw [Subst.get?_after hnext hord, hget]
  refine Subst.held_of_ne fun w hw => ?_
  have hvar := Subst.split_apply next hsplit
  rw [hw] at hvar
  cases hvar

theorem Found.spoilt (h : Found κ P n m s) (hP : ∀ id, P id → id ≤ n) (hnm : n ≤ m)
    (hQ : ∀ id, Q id → s.get? id = none ∧ (P id ∨ (n < id ∧ id ≤ m))) (hnext : Spoilt Q m next) :
    Spoilt P n (next.after s) := by
  obtain ⟨hord, id, t, hid, hget, hsplit⟩ := hnext
  have hfree : s.get? id = none := hid.elim (fun hid => (hQ id hid).1) (h.unbound hP hnm)
  refine ⟨Subst.ordered_after next s, id, t, ?_, ?_, hsplit⟩
  · rcases hid with hid | hid
    · exact (hQ id hid).2.imp_right And.left
    · exact .inr (by omega)
  · rw [Subst.get?_after hord h.settled.ordered, hfree]
    exact hget

end Sequence

namespace Relate

/-- A type that two types were joined to: it is as wide as the first, and the second fits it. -/
structure Covers (κ : Sorts) (n m : Nat) (a b t : Ty) (s : Subst) : Prop where
  found : Found κ (Among [a, b]) n m s
  joint : t.Joint κ
  inside : ∀ id, t.Mentions id → s.get? id = none ∧ (Among [a, b] id ∨ (n < id ∧ id ≤ m))
  widens : (s.apply a).Widens t
  under : (s.apply b).Under t

/-- A join that succeeds covers both types, unless it binds an unknown to alternatives. -/
def Joins (κ : Sorts) (p : Progress) (a b : Ty) (m : Relate Joined) : Prop :=
  Ends m p (fun j q => p.supply.count ≤ q.supply.count ∧
      Covers κ p.supply.count q.supply.count a b j.1 j.2 ∨
        Spoilt (Among [a, b]) p.supply.count j.2)
    fun _ _ => True

section Steps

variable {κ : Sorts} {n m : Nat} {p : Progress} {ctx : Context} {rel : Relation} {a b : Ty}
  {s : Subst}

/-- One of the types themselves, under what was found. -/
theorem Covers.inside_apply {u : Ty} (hs : Found κ (Among [a, b]) n m s)
    (h : Given κ n [a, b]) (hu : u ∈ [a, b]) (id : Int) (hid : (s.apply u).Mentions id) :
    s.get? id = none ∧ (Among [a, b] id ∨ (n < id ∧ id ≤ m)) :=
  hs.free_of_among h.joint (fun _ h => h) ⟨_, List.mem_map_of_mem hu, hid⟩

theorem asked_of_given (h : Given κ n [a, b]) (ha : a.Unmixed κ) (hb : b.Unmixed κ) :
    Asked κ n [(a, b)] :=
  asked_pair ha hb (fun id hid => h.older id (among_pair.2 (.inl hid)))
    (fun id hid => h.older id (among_pair.2 (.inr hid))) h.fresh

theorem among_of_mentioned {id : Int} (h : Mentioned [(a, b)] id) : Among [a, b] id := h

theorem covers_widest (h : Given κ n [a, b]) (ha : a.Unmixed κ) (hb : b.Unmixed κ)
    (hs : Adjusts κ n m [(a, b)] s) : Covers κ n m a b (s.apply (widest a b)) s := by
  have hfound : Found κ (Among [a, b]) n m s := hs.toFound.mono fun _ => among_of_mentioned
  have hfits : (s.apply a).Fits (s.apply b) := hs.fits (a, b) List.mem_cons_self
  have hkeep : Covers κ n m a b (s.apply a) s :=
    ⟨hfound, .unmixed (hs.settled.apply ha), Covers.inside_apply hfound h (by simp), .refl _,
      .fits hfits.symm⟩
  cases ha with
  | lit value =>
      show Covers κ n m _ b (s.apply b) s
      have hb' := hs.settled.apply hb
      refine ⟨hfound, .unmixed hb', Covers.inside_apply hfound h (by simp), ?_,
        .fits (Ty.fits_refl hb')⟩
      rw [Subst.apply_lit] at hfits ⊢
      generalize s.apply b = u at hfits
      cases hfits with
      | lit _ => exact .refl _
      | asString _ => exact .string value
  | _ => exact hkeep

/-- Unifying types without alternatives covers them. -/
theorem joins_unified (hrel : Adapts κ rel) (h : Given κ p.supply.count [a, b]) (ha : a.Unmixed κ)
    (hb : b.Unmixed κ) : Joins κ p a b (joinUnified rel a b) := by
  refine Ends.bind ((hrel p a b (asked_of_given h ha hb)).imp ?_ fun _ _ _ => trivial)
  rintro s q ⟨hadv, hs⟩
  exact ends_pure (.inl ⟨hadv.count, covers_widest h ha hb hs⟩)

/-- Nothing has to be found. -/
theorem covers_empty {t : Ty} (n m : Nat) (ht : t.Joint κ)
    (hin : ∀ id, t.Mentions id → Among [a, b] id) (hwidens : a.Widens t) (hunder : b.Under t) :
    Covers κ n m a b t .empty := by
  refine ⟨found_empty κ _ n m, ht, fun id hid => ⟨rfl, .inl (hin id hid)⟩, ?_, ?_⟩
  · rwa [Subst.apply_empty]
  · rwa [Subst.apply_empty]

/-- An unknown that is joined with alternatives is bound to them. -/
theorem joins_split_var {v : TyVar} {limit : Nat} (ha : a.Split) :
    Joins κ p a (.var v) (joinUnified (unify ctx limit) a (.var v)) := by
  refine Ends.bind ?_
  cases limit with
  | zero => exact ends_exceed trivial
  | succ limit =>
      have hvar : ∀ w, a ≠ .var w := by
        rintro w rfl
        cases ha
      have hbind : unify ctx (limit + 1) a (.var v) = bindVar ctx v a := by
        rw [unify]
        unfold unifyStep
        rw [if_neg fun heq => (Ty.exists_var_of_equiv_var heq).elim hvar]
        cases ha <;> rfl
      rw [hbind]
      unfold bindVar
      split
      · next w => exact absurd rfl (hvar w)
      · split
        · exact ends_throw trivial
        · refine ends_pure (ends_pure (.inr ⟨Subst.ordered_single v a, v.id, a, ?_, ?_, ha⟩))
          · exact .inl (among_pair.2 (.inr (Ty.mentions_var.2 rfl)))
          · rw [Subst.get?_single, if_pos rfl]
            exact Subst.held_of_ne fun w hw => absurd hw (hvar w)

/-- A tuple goes with no type of another shape. -/
theorem ends_unify_tuple {as : List Ty} {limit : Nat} {ok : Subst → Progress → Prop}
    (hb : b.Unmixed κ) (hvar : ∀ v, b ≠ .var v)
    (hlen : ∀ bs, b = .tuple bs → as.length ≠ bs.length) :
    Ends (unify ctx limit (.tuple as) b) p ok fun _ _ => True := by
  cases limit with
  | zero => exact ends_exceed trivial
  | succ limit =>
      have hequiv : (Ty.tuple as).equiv b = false := by
        rw [Bool.eq_false_iff]
        intro heq
        obtain ⟨bs, rfl, helems⟩ := Ty.exists_tuple_of_equiv heq
        exact hlen bs rfl helems.length_eq
      rw [unify]
      unfold unifyStep
      rw [if_neg (by simp [hequiv])]
      cases hb with
      | @var v _ => exact absurd rfl (hvar v)
      | @tuple bs _ =>
          show Ends (if _ then _ else throw _) p _ _
          rw [if_neg (hlen bs rfl)]
          exact ends_throw trivial
      | _ => exact ends_throw trivial

/-- A tuple and a type that is no tuple of its length are unified. -/
theorem joins_tuple_unified {as : List Ty} {limit : Nat}
    (h : Given κ p.supply.count [.tuple as, b]) (hb : b.Unmixed κ)
    (hlen : ∀ bs, b = .tuple bs → as.length ≠ bs.length) :
    Joins κ p (.tuple as) b (joinUnified (unify ctx limit) (.tuple as) b) := by
  rcases (h.joint (.tuple as) (by simp)).unmixed_or_split with ha | ha
  · exact joins_unified (adapts_unify ctx κ limit) h ha hb
  · by_cases hvar : ∃ v, b = .var v
    · obtain ⟨v, rfl⟩ := hvar
      exact joins_split_var ha
    · exact Ends.bind (ends_unify_tuple hb (fun v hv => hvar ⟨v, hv⟩) hlen)

/-- Records told apart become alternatives. -/
theorem joins_apart {fs gs : List (String × Ty)} {row row' : Option TyVar}
    (ha : (Ty.record fs row).Unmixed κ) (hb : (Ty.record gs row').Unmixed κ)
    (hapart : RecordTy.toldApart ⟨fs, row⟩ ⟨gs, row'⟩ = true) :
    Joins κ p (.record fs row) (.record gs row')
      (pure (Ty.unionOf [.record fs row, .record gs row'], .empty)) := by
  have hasc : Table.Ascending fs := by
    cases ha with
    | record _ hasc _ _ => exact hasc
  have hdivided : Ty.Divided [.record fs row, .record gs row'] := by
    refine ⟨Nat.le_refl 2, by simp, List.pairwise_pair.2 ?_⟩
    exact Ty.toldApart_of_toldApart (a := ⟨fs, row⟩) (b := ⟨gs, row'⟩) hasc hapart
  rw [hdivided.unionOf_eq]
  refine ends_pure (.inl ⟨Nat.le_refl _, covers_empty _ _ (.union hdivided ?_) (fun id hid => ?_)
    (.alternative (by simp)) (.alternative (by simp) (Ty.fits_refl hb))⟩)
  · simpa using ⟨ha, hb⟩
  · exact Ty.mentions_union.1 hid

/-- What the first attempt that succeeds finds, and how many unknowns were used until then. -/
theorem firstOf_ends {α : Type} {f : Ty → Relate α} {R : Ty → Nat → α → Nat → Prop} :
    ∀ {ts : List Ty} {p : Progress}, (∀ t ∈ ts, ∀ q, p.supply.count ≤ q.supply.count →
      Ends (f t) q (fun a r => Advances q r ∧ R t q.supply.count a r.supply.count)
        fun _ r => Advances q r) →
      Advances p ((firstOf f ts).run p).2 ∧
        ∀ a, ((firstOf f ts).run p).1 = some a → ∃ t ∈ ts, ∃ n, p.supply.count ≤ n ∧
          n ≤ ((firstOf f ts).run p).2.supply.count ∧
          R t n a ((firstOf f ts).run p).2.supply.count
  | [], p, _ => ⟨.refl p, by rintro a ⟨⟩⟩
  | t :: ts, p, h => by
      have hhead := h t List.mem_cons_self p (Nat.le_refl _)
      unfold Ends at hhead
      rw [firstOf, StateM.run_bind, show (attempt (f t)).run p = attempt (f t) p from rfl, attempt]
      generalize (f t).run p = out at hhead
      obtain ⟨r, q⟩ := out
      cases r with
      | ok a =>
          obtain ⟨hadv, hR⟩ := hhead
          refine ⟨⟨hadv.count, hadv.exceeded⟩, ?_⟩
          rintro b ⟨⟩
          exact ⟨t, List.mem_cons_self, _, Nat.le_refl _, hadv.count, hR⟩
      | error e =>
          have hadv : Advances p q := hhead
          obtain ⟨hadv', hsome⟩ := firstOf_ends (p := { q with assumed := p.assumed })
            fun u hu r hr => h u (List.mem_cons_of_mem _ hu) r (Nat.le_trans hadv.count hr)
          have hstart : Advances p { q with assumed := p.assumed } := ⟨hadv.count, hadv.exceeded⟩
          refine ⟨hstart.trans hadv', fun a ha => ?_⟩
          obtain ⟨u, hu, n, hn, hn', hR⟩ := hsome a ha
          exact ⟨u, List.mem_cons_of_mem _ hu, n, Nat.le_trans hadv.count hn, hn', hR⟩

/-- A type that goes with an alternative leaves the union as it is; one that is told apart from all
of them is added. -/
theorem joins_intoUnion (hrel : Adapts κ rel) {alts : List Ty}
    (h : Given κ p.supply.count [.union alts, b]) (hb : b.Unmixed κ) :
    Joins κ p (.union alts) b (joinIntoUnion ctx rel alts b) := by
  obtain ⟨hdivided, halts⟩ := (h.joint (.union alts) (by simp)).of_mem_union
  have hmention : ∀ {alt : Ty} {id : Int}, alt ∈ alts → alt.Mentions id →
      Among [.union alts, b] id := fun halt hid =>
    among_pair.2 (.inl (Ty.mentions_union.2 ⟨_, halt, hid⟩))
  have hfirst := firstOf_ends (f := fun alt => rel alt b) (p := p)
    (R := fun alt n s m => Adjusts κ n m [(alt, b)] s) fun alt halt q hq => by
      refine hrel q alt b (asked_pair (halts alt halt) hb (fun id hid => ?_) (fun id hid => ?_)
        fun id hid => h.fresh id (by omega))
      · have := h.older id (hmention halt hid)
        omega
      · have := h.older id (among_pair.2 (.inr hid))
        omega
  refine Ends.bind (ends_lift ?_)
  generalize (firstOf (fun alt => rel alt b) alts).run p = out at hfirst
  obtain ⟨o, q⟩ := out
  obtain ⟨hadv, hsome⟩ := hfirst
  have hle := hadv.count
  dsimp only at hle hsome ⊢
  cases o with
  | some s =>
      obtain ⟨alt, halt, n, hn, hn', hs⟩ := hsome s rfl
      have hfound : Found κ (Among [.union alts, b]) p.supply.count q.supply.count s := by
        refine (hs.toFound.earlier hn).mono fun id hid => ?_
        exact (mentioned_pair.1 hid).elim (hmention halt) fun hid => among_pair.2 (.inr hid)
      refine ends_pure (.inl ⟨hle, hfound, hs.settled.joint (.union hdivided halts),
        Covers.inside_apply hfound h (by simp), .refl _, ?_⟩)
      rw [Subst.apply_divided s hdivided]
      exact .alternative (List.mem_map_of_mem halt) (hs.fits (alt, b) List.mem_cons_self).symm
  | none =>
      cases hb with
      | @record gs row' hrec hasc hrow hgs =>
          show Ends (if (alts.all fun t => (t.record?).any fun r => r.toldApart ⟨gs, row'⟩) = true
            then _ else throw _) q _ _
          split
          · next hall =>
              have hb : (Ty.record gs row').Unmixed κ := .record hrec hasc hrow hgs
              have hdivided' := hdivided.append halts hall
              rw [hdivided'.unionOf_eq]
              refine ends_pure (.inl ⟨hle, covers_empty _ _ (.union hdivided' ?_)
                (fun id hid => ?_) (.union fun t ht => List.mem_append_left _ ht)
                (.alternative (by simp) (Ty.fits_refl hb))⟩)
              · exact List.forall_mem_append.2 ⟨halts, List.forall_mem_singleton.2 hb⟩
              · obtain ⟨t, ht, hid⟩ := Ty.mentions_union.1 hid
                rcases List.mem_append.1 ht with ht | ht
                · exact hmention ht hid
                · exact among_pair.2 (.inr (List.mem_singleton.1 ht ▸ hid))
          · exact ends_throw trivial
      | _ => exact ends_throw trivial

end Steps

/-! ## Joining one after the other -/

section Sequences

variable {κ : Sorts} {P : Int → Prop} {n m m' : Nat} {p : Progress} {T : List Ty} {a b t u : Ty}
  {s next : Subst} {join : Ty → Ty → Relate Joined}

/-- Joins of what can be joined. -/
structure Joining (κ : Sorts) (join : Ty → Ty → Relate Joined) : Prop where
  joins : ∀ (p : Progress) (a b : Ty), Given κ p.supply.count [a, b] → b.Unmixed κ →
    Joins κ p a b (join a b)
  ordered : ∀ a b, Yields (fun j : Joined => j.2.Ordered) (join a b)

theorem given_pair (hT : Given κ n T) (hnm : n ≤ m) (ha : a.Joint κ) (hb : b.Joint κ)
    (hin : ∀ id, Among [a, b] id → Among T id ∨ (n < id ∧ id ≤ m)) : Given κ m [a, b] := by
  refine ⟨by simp [ha, hb], fun id hid => ?_, fun id hid => hT.fresh id (by omega)⟩
  rcases hin id hid with hid | ⟨-, hid⟩
  · have := hT.older id hid
    omega
  · exact hid

theorem left_pair (hs : Found κ (Among T) n m s) (hT : Given κ n T) (ha : a ∈ T) (hb : b ∈ T)
    (id : Int) (hid : Among [s.apply a, s.apply b] id) :
    s.get? id = none ∧ (Among T id ∨ (n < id ∧ id ≤ m)) := by
  refine hs.free_of_among hT.joint (fun _ h => h) ?_
  rcases among_pair.1 hid with hid | hid
  · exact ⟨_, List.mem_map_of_mem ha, hid⟩
  · exact ⟨_, List.mem_map_of_mem hb, hid⟩

/-- What covers two types that are left by what was found before. -/
theorem Covers.append (h : Covers κ m m' a b t next) (hs : Found κ (Among T) n m s)
    (hT : Given κ n T) (hnm : n ≤ m) (hmm : m ≤ m')
    (hin : ∀ id, Among [a, b] id → s.get? id = none ∧ (Among T id ∨ (n < id ∧ id ≤ m))) :
    next.Apart s ∧ Found κ (Among T) n m' (next.after s) ∧ (next.after s).apply t = t ∧
      ∀ id, t.Mentions id → Among T id ∨ (n < id ∧ id ≤ m') := by
  have hapart := hs.apart hT.older hnm (fun id hid => (hin id hid).1) h.found
  have hafter := hs.append hT.older hnm hmm hin h.found
  have hmentions : ∀ id, t.Mentions id →
      (next.after s).get? id = none ∧ (Among T id ∨ (n < id ∧ id ≤ m')) := by
    intro id hid
    obtain ⟨hfree, hold⟩ := h.inside id hid
    rw [Subst.get?_after h.found.settled.ordered hs.settled.ordered]
    rcases hold with hold | ⟨hlt, hle⟩
    · obtain ⟨hnone, hinside⟩ := hin id hold
      rw [hnone]
      exact ⟨hfree, hinside.imp_right fun ⟨hlt, hle⟩ => ⟨hlt, by omega⟩⟩
    · rw [hs.unbound hT.older hnm hlt]
      exact ⟨hfree, .inr ⟨by omega, hle⟩⟩
  exact ⟨hapart, hafter, h.joint.stable.apply_eq_self fun id hid => (hmentions id hid).1,
    fun id hid => (hmentions id hid).2⟩

/-- The elements that were joined so far, of tuples that were paired. -/
structure Gathered (κ : Sorts) (n m : Nat) (T : List Ty) (E : Equations) (done : List Ty)
    (s : Subst) : Prop where
  found : Found κ (Among T) n m s
  length : E.length = done.length
  joint : ∀ t ∈ done, t.Joint κ
  inside : ∀ t ∈ done, ∀ id, t.Mentions id → Among T id ∨ (n < id ∧ id ≤ m)
  widens : ∀ e ∈ (E.map Prod.fst).zip done, (s.apply e.1).Widens (s.apply e.2)
  under : ∀ e ∈ (E.map Prod.snd).zip done, (s.apply e.1).Under (s.apply e.2)

/-- The pairs are of types that are given, and what is to fit has no alternatives. -/
def Paired (κ : Sorts) (T : List Ty) (E : Equations) : Prop :=
  ∀ e ∈ E, e.1 ∈ T ∧ e.2 ∈ T ∧ e.2.Unmixed κ

theorem zip_concat {as ts : List Ty} (hlen : as.length = ts.length) {e : Ty × Ty}
    (he : e ∈ (as ++ [a]).zip (ts ++ [t])) : e ∈ as.zip ts ∨ e = (a, t) := by
  rw [List.zip_append hlen, List.mem_append] at he
  exact he.imp_right fun he => by simpa using he

/-- One more pair is joined. -/
theorem Gathered.step {E : Equations} {done : List Ty} (h : Gathered κ n m T E done s)
    (hT : Given κ n T) (hnm : n ≤ m) (hmm : m ≤ m') (hE : Paired κ T (E ++ [(a, b)]))
    (hcovers : Covers κ m m' (s.apply a) (s.apply b) t next) :
    Gathered κ n m' T (E ++ [(a, b)]) (done ++ [t]) (next.after s) := by
  obtain ⟨hoff, hpair⟩ := List.forall_mem_append.1 hE
  obtain ⟨ha, hb, hunmixed⟩ := List.forall_mem_singleton.1 hpair
  have hs := h.found.settled
  have hnext := hcovers.found.settled
  obtain ⟨hapart, hafter, hself, hinside⟩ :=
    hcovers.append h.found hT hnm hmm (left_pair h.found hT ha hb)
  have happly : ∀ {u : Ty}, u.Joint κ → (next.after s).apply u = next.apply (s.apply u) :=
    hs.joint_after hnext hapart
  refine ⟨hafter, by simp [h.length], ?_, ?_, fun e he => ?_, fun e he => ?_⟩
  · exact List.forall_mem_append.2 ⟨h.joint, List.forall_mem_singleton.2 hcovers.joint⟩
  · refine List.forall_mem_append.2 ⟨fun u hu id hid => ?_, List.forall_mem_singleton.2 hinside⟩
    exact (h.inside u hu id hid).imp_right fun ⟨hlt, hle⟩ => ⟨hlt, by omega⟩
  · rw [List.map_append, List.map_singleton] at he
    rcases zip_concat (by simpa using h.length) he with he | rfl
    · obtain ⟨hfst, hdone⟩ := List.of_mem_zip he
      obtain ⟨x, hx, hxe⟩ := List.mem_map.1 hfst
      have hjoint : e.1.Joint κ := hxe ▸ hT.joint _ (hoff x hx).1
      rw [happly hjoint, happly (h.joint _ hdone)]
      exact Subst.widens_apply next (hs.joint hjoint) (hs.joint (h.joint _ hdone)) (h.widens e he)
    · rw [hself, happly (hT.joint a ha)]
      exact hcovers.widens
  · rw [List.map_append, List.map_singleton] at he
    rcases zip_concat (by simpa using h.length) he with he | rfl
    · obtain ⟨hsnd, hdone⟩ := List.of_mem_zip he
      obtain ⟨x, hx, hxe⟩ := List.mem_map.1 hsnd
      have hunmixed : e.1.Unmixed κ := hxe ▸ (hoff x hx).2.2
      rw [happly (.unmixed hunmixed), happly (h.joint _ hdone)]
      exact hnext.under (hs.apply hunmixed) (hs.joint (h.joint _ hdone)) (h.under e he)
    · rw [hself, happly (.unmixed hunmixed)]
      exact hcovers.under

theorem spoilt_joinAll (hjoin : Joining κ join) : ∀ {pairs : Equations} {done : List Ty} {s : Subst}
    {p : Progress}, Spoilt P n s →
      Ends (joinAll join pairs done s) p (fun j _ => Spoilt P n j.2) fun _ _ => True
  | [], _, _, _, h => ends_pure h
  | (_, _) :: _, _, _, p, h => Ends.bind ((hjoin.ordered _ _ p).imp
      (fun _ _ hord => spoilt_joinAll hjoin (h.after hord)) fun _ _ h => h)

/-- Joining pairs one after the other. -/
theorem ends_joinAll (hjoin : Joining κ join) (hT : Given κ n T) :
    ∀ {pairs E : Equations} {done : List Ty} {s : Subst} {p : Progress},
      Gathered κ n p.supply.count T E done s → n ≤ p.supply.count → Paired κ T (E ++ pairs) →
      Ends (joinAll join pairs done s) p
        (fun j q => (p.supply.count ≤ q.supply.count ∧ ∃ done', j.1 = .tuple (done'.map j.2.apply) ∧
          Gathered κ n q.supply.count T (E ++ pairs) done' j.2) ∨ Spoilt (Among T) n j.2)
        fun _ _ => True
  | [], E, done, s, p, h, _, _ => by
      rw [List.append_nil]
      refine ends_pure (.inl ⟨Nat.le_refl _, done, ?_, h⟩)
      rw [Subst.applyAll_eq_map]
  | (a, b) :: pairs, E, done, s, p, h, hn, hE => by
      have happend : E ++ (a, b) :: pairs = (E ++ [(a, b)]) ++ pairs := by simp
      rw [happend] at hE ⊢
      have hE' : Paired κ T (E ++ [(a, b)]) := fun e he => hE e (List.mem_append_left _ he)
      obtain ⟨ha, hb, hunmixed⟩ := hE' (a, b) (by simp)
      have hleft := left_pair h.found hT ha hb
      have hgiven : Given κ p.supply.count [s.apply a, s.apply b] :=
        given_pair hT hn (h.found.settled.joint (hT.joint a ha))
          (h.found.settled.joint (hT.joint b hb)) fun id hid => (hleft id hid).2
      refine Ends.bind ((hjoin.joins p _ _ hgiven (h.found.settled.apply hunmixed)).imp ?_
        fun _ _ h => h)
      rintro ⟨t, next⟩ q (⟨hle, hcovers⟩ | hspoilt)
      · refine (ends_joinAll hjoin hT (h.step hT hn hle hE' hcovers) (Nat.le_trans hn hle) hE).imp
          (fun j r hj => ?_) fun _ _ h => h
        exact hj.imp_left fun ⟨hle', hdone⟩ => ⟨Nat.le_trans hle hle', hdone⟩
      · exact (spoilt_joinAll hjoin (h.found.spoilt hT.older hn hleft hspoilt)).imp
          (fun _ _ h => .inr h) fun _ _ h => h

theorem among_tuple {as bs : List Ty} {id : Int} (h : Among (as ++ bs) id) :
    Among [.tuple as, .tuple bs] id := by
  obtain ⟨t, ht, hid⟩ := h
  rw [among_pair, Ty.mentions_tuple, Ty.mentions_tuple]
  exact (List.mem_append.1 ht).imp (fun ht => ⟨t, ht, hid⟩) fun ht => ⟨t, ht, hid⟩

/-- The tuple of elements that cover pairs covers the tuples of these. -/
theorem Gathered.covers {as bs done : List Ty} (hlen : as.length = bs.length)
    (h : Gathered κ n m (as ++ bs) (as.zip bs) done s) :
    Covers κ n m (.tuple as) (.tuple bs) (.tuple (done.map s.apply)) s := by
  have hlen' : as.length = done.length := by
    have := h.length
    rw [List.length_zip] at this
    omega
  have hwidens := h.widens
  have hunder := h.under
  rw [List.map_fst_zip (Nat.le_of_eq hlen)] at hwidens
  rw [List.map_snd_zip (Nat.le_of_eq hlen.symm)] at hunder
  have hs := h.found.settled
  refine ⟨h.found.mono fun _ => among_tuple,
    .tuple (List.forall_mem_map.2 fun u hu => hs.joint (h.joint u hu)), fun id hid => ?_, ?_, ?_⟩
  · obtain ⟨w, hw, hid⟩ := Ty.mentions_tuple.1 hid
    obtain ⟨u, hu, rfl⟩ := List.mem_map.1 hw
    refine ⟨hs.free_of_joint (h.joint u hu) hid, Or.imp_left among_tuple ?_⟩
    exact (hs.mentions_or_of_joint (h.joint u hu) hid).elim (h.inside u hu id) (h.found.inside id)
  · rw [Subst.apply_tuple]
    refine .tuple (by simpa using hlen') fun e he => ?_
    rw [List.zip_map, List.mem_map] at he
    obtain ⟨e, he, rfl⟩ := he
    exact hwidens e he
  · rw [Subst.apply_tuple]
    refine .tuple (by simpa using hlen.symm.trans hlen') fun e he => ?_
    rw [List.zip_map, List.mem_map] at he
    obtain ⟨e, he, rfl⟩ := he
    exact hunder e he

/-- Tuples are joined element by element. -/
theorem joins_tuple (hjoin : Joining κ join) {as bs : List Ty} (hlen : as.length = bs.length)
    (h : Given κ p.supply.count [.tuple as, .tuple bs]) (hbs : ∀ t ∈ bs, t.Unmixed κ) :
    Joins κ p (.tuple as) (.tuple bs) (joinAll join (as.zip bs) [] .empty) := by
  have has := (h.joint (.tuple as) (by simp)).of_mem_tuple
  have hT : Given κ p.supply.count (as ++ bs) := by
    refine ⟨?_, fun id hid => h.older id (among_tuple hid), h.fresh⟩
    exact List.forall_mem_append.2 ⟨has, fun t ht => .unmixed (hbs t ht)⟩
  have hpaired : Paired κ (as ++ bs) ([] ++ as.zip bs) := by
    intro e he
    obtain ⟨hea, heb⟩ := List.of_mem_zip he
    exact ⟨List.mem_append_left _ hea, List.mem_append_right _ heb, hbs _ heb⟩
  have hnone : Gathered κ p.supply.count p.supply.count (as ++ bs) [] [] .empty :=
    ⟨found_empty κ _ _ _, rfl, by simp, by simp, by simp, by simp⟩
  refine (ends_joinAll hjoin hT hnone (Nat.le_refl _) hpaired).imp ?_ fun _ _ h => h
  rintro ⟨t, s⟩ q (⟨hle, done, ht, hdone⟩ | ⟨hord, id, u, hid, hget, hsplit⟩)
  · have ht : t = .tuple (done.map s.apply) := ht
    subst ht
    exact .inl ⟨hle, hdone.covers hlen⟩
  · exact .inr ⟨hord, id, u, hid.imp_left among_tuple, hget, hsplit⟩

end Sequences

/-! ## Branches -/

section Branches

variable {κ : Sorts} {n : Nat} {p : Progress} {ctx : Context} {a b : Ty} {limit : Nat}
  {join : Ty → Ty → Relate Joined}

/-- A step from a tuple. -/
theorem joins_step_tuple (hjoin : Joining κ join) {as : List Ty}
    (h : Given κ p.supply.count [.tuple as, b]) (hb : b.Unmixed κ) :
    Joins κ p (.tuple as) b (joinBranchesStep ctx (unify ctx limit) join (.tuple as) b) := by
  have hunified : (∀ bs, b = .tuple bs → as.length ≠ bs.length) →
      Joins κ p (.tuple as) b (joinUnified (unify ctx limit) (.tuple as) b) :=
    joins_tuple_unified h hb
  cases hb with
  | @tuple bs hbs =>
      rw [joinBranchesStep]
      split
      · next hlen => exact joins_tuple hjoin hlen h hbs
      · next hlen =>
          refine hunified ?_
          rintro _ ⟨⟩
          exact hlen
  | _ => exact hunified (by rintro _ ⟨⟩)

/-- A step from alternatives. -/
theorem joins_step_union {alts : List Ty} (h : Given κ p.supply.count [.union alts, b])
    (hb : b.Unmixed κ) :
    Joins κ p (.union alts) b (joinBranchesStep ctx (unify ctx limit) join (.union alts) b) := by
  have hinto : Joins κ p (.union alts) b (joinIntoUnion ctx (unify ctx limit) alts b) :=
    joins_intoUnion (adapts_unify ctx κ limit) h hb
  cases hb with
  | var _ => exact joins_split_var (.union (h.joint (.union alts) (by simp)).of_mem_union.1)
  | _ => exact hinto

/-- A step of joining a joint type and a type without alternatives. -/
theorem joins_step (hjoin : Joining κ join) (h : Given κ p.supply.count [a, b])
    (hb : b.Unmixed κ) : Joins κ p a b (joinBranchesStep ctx (unify ctx limit) join a b) := by
  have hunified : a.Unmixed κ → Joins κ p a b (joinUnified (unify ctx limit) a b) := fun ha =>
    joins_unified (adapts_unify ctx κ limit) h ha hb
  cases h.joint a (by simp) with
  | union _ _ => exact joins_step_union h hb
  | tuple _ => exact joins_step_tuple hjoin h hb
  | unmixed ha =>
      have hunified := hunified ha
      cases ha with
      | var _ => exact hunified
      | tuple _ => exact joins_step_tuple hjoin h hb
      | prim name => cases hb <;> exact hunified
      | fn _ _ => cases hb <;> exact hunified
      | lit value =>
          cases hb with
          | lit value' =>
              rw [joinBranchesStep]
              split
              · exact hunified
              · exact ends_pure (.inl ⟨Nat.le_refl _, covers_empty _ _ (.unmixed (.prim "String"))
                  (fun id hid => absurd hid Ty.mentions_prim) (.string value)
                  (.fits (.asString value'))⟩)
          | _ => exact hunified
      | record hrec hasc hrow hfs =>
          cases hb with
          | record hrec' hasc' hrow' hgs =>
              rw [joinBranchesStep]
              split
              · next hapart =>
                  exact joins_apart (.record hrec hasc hrow hfs) (.record hrec' hasc' hrow' hgs)
                    hapart
              · exact hunified
          | _ => exact hunified

theorem joining_joinBranches (ctx : Context) (κ : Sorts) (limit : Nat) :
    ∀ depth : Nat, Joining κ (joinBranches ctx (unify ctx limit) depth)
  | 0 => ⟨fun _ _ _ _ _ => ends_throw trivial, yields_joinBranches (orderly_unify ctx limit) 0⟩
  | depth + 1 =>
      ⟨fun _ _ _ h hb => joins_step (joining_joinBranches ctx κ limit depth) h hb,
        yields_joinBranches (orderly_unify ctx limit) (depth + 1)⟩

/-- The branches that were joined so far fit the type that was reached. -/
structure Reached (κ : Sorts) (n m : Nat) (T joined : List Ty) (t : Ty) (s : Subst) : Prop where
  found : Found κ (Among T) n m s
  joint : t.Joint κ
  inside : ∀ id, t.Mentions id → Among T id ∨ (n < id ∧ id ≤ m)
  under : ∀ b ∈ joined, (s.apply b).Under (s.apply t)

variable {m m' : Nat} {T done : List Ty} {t : Ty} {s next : Subst}

/-- What was reached, and the next branch, under what was found. -/
theorem Reached.left (h : Reached κ n m T done a s) (hT : Given κ n T) (hb : b ∈ T) (id : Int)
    (hid : Among [s.apply a, s.apply b] id) :
    s.get? id = none ∧ (Among T id ∨ (n < id ∧ id ≤ m)) := by
  rcases among_pair.1 hid with hid | hid
  · refine ⟨h.found.settled.free_of_joint h.joint hid, ?_⟩
    exact (h.found.settled.mentions_or_of_joint h.joint hid).elim (h.inside id) (h.found.inside id)
  · exact h.found.free_of_among hT.joint (fun _ h => h) ⟨_, List.mem_map_of_mem hb, hid⟩

/-- One more branch is joined. -/
theorem Reached.step (h : Reached κ n m T done a s) (hT : Given κ n T)
    (hunmixed : ∀ t ∈ T, t.Unmixed κ) (hnm : n ≤ m) (hmm : m ≤ m')
    (hdone : ∀ u ∈ done ++ [b], u ∈ T)
    (hcovers : Covers κ m m' (s.apply a) (s.apply b) t next) :
    Reached κ n m' T (done ++ [b]) t (next.after s) := by
  have hb := hdone b (by simp)
  have hs := h.found.settled
  have hnext := hcovers.found.settled
  obtain ⟨hapart, hafter, hself, hinside⟩ :=
    hcovers.append h.found hT hnm hmm (h.left hT hb)
  refine ⟨hafter, hcovers.joint, hinside, fun u hu => ?_⟩
  have hu' := hunmixed u (hdone u hu)
  rw [hself, hs.apply_after hnext hapart hu']
  rcases List.mem_append.1 hu with hu | hu
  · exact (hnext.under (hs.apply hu') (hs.joint h.joint) (h.under u hu)).widen hcovers.widens
  · rw [List.mem_singleton.1 hu]
    exact hcovers.under

theorem spoilt_joinList (hjoin : Joining κ join) {P : Int → Prop} :
    ∀ {bs : List Ty} {t : Ty} {s : Subst} {p : Progress}, Spoilt P n s →
      Ends (joinList join bs (t, s)) p (fun j _ => Spoilt P n j.2) fun _ _ => True
  | [], _, _, _, h => ends_pure h
  | _ :: _, _, _, p, h => Ends.bind ((hjoin.ordered _ _ p).imp
      (fun _ _ hord => spoilt_joinList hjoin (h.after hord)) fun _ _ h => h)

/-- Joining branches one after the other. -/
theorem ends_joinList (hjoin : Joining κ join) (hT : Given κ n T)
    (hunmixed : ∀ t ∈ T, t.Unmixed κ) :
    ∀ {bs done : List Ty} {t : Ty} {s : Subst} {p : Progress},
      Reached κ n p.supply.count T done t s → n ≤ p.supply.count → (∀ u ∈ done ++ bs, u ∈ T) →
      Ends (joinList join bs (t, s)) p
        (fun j q => (p.supply.count ≤ q.supply.count ∧ ∃ u, j.1 = j.2.apply u ∧
          Reached κ n q.supply.count T (done ++ bs) u j.2) ∨ Spoilt (Among T) n j.2)
        fun _ _ => True
  | [], done, t, s, p, h, _, _ => by
      rw [List.append_nil]
      exact ends_pure (.inl ⟨Nat.le_refl _, t, rfl, h⟩)
  | b :: bs, done, t, s, p, h, hn, hdone => by
      have happend : done ++ b :: bs = (done ++ [b]) ++ bs := by simp
      rw [happend] at hdone ⊢
      have hdone' : ∀ u ∈ done ++ [b], u ∈ T := fun u hu => hdone u (List.mem_append_left _ hu)
      have hb := hdone' b (by simp)
      have hs := h.found.settled
      have hleft := h.left hT hb
      have hgiven : Given κ p.supply.count [s.apply t, s.apply b] :=
        given_pair hT hn (hs.joint h.joint) (hs.joint (hT.joint b hb))
          fun id hid => (hleft id hid).2
      refine Ends.bind ((hjoin.joins p _ _ hgiven (hs.apply (hunmixed b hb))).imp ?_ fun _ _ h => h)
      rintro ⟨u, next⟩ q (⟨hle, hcovers⟩ | hspoilt)
      · have hnext := h.step hT hunmixed hn hle hdone' hcovers
        refine (ends_joinList hjoin hT hunmixed hnext (Nat.le_trans hn hle) hdone).imp
          (fun j r hj => ?_) fun _ _ h => h
        exact hj.imp_left fun ⟨hle', hu⟩ => ⟨Nat.le_trans hle hle', hu⟩
      · exact (spoilt_joinList hjoin (h.found.spoilt hT.older hn hleft hspoilt)).imp
          (fun _ _ h => .inr h) fun _ _ h => h

end Branches

end Relate

end RowTypes
