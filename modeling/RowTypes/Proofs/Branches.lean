import RowTypes.Proofs.Unification
import RowTypes.Solver.Subtype

/-!
# Branches without records

Where no type has records, unions or literals in it, subtyping and joining have nothing to decide:
a type is a subtype of another only if the two are one, and a join of two is either of them.  So
the branches of a conditional answer the equations between each of them and the result, whichever
of the two ways is taken.

A join of tuples goes down element by element under what the earlier elements gave, and the depth
it is allowed is spent on the way.  It is never used up.  The unknowns that are left and the height
of the types together bound the depth, by the height doubled once for each unknown: a binding takes
one unknown away and at most doubles the height, and an element is lower than its tuple.
-/

namespace RowTypes

open Equations

/-- A complaint that may be any. -/
def anyComplaint (_ : Diagnostic) : Prop := True

namespace Relate

variable {κ : Sorts} {p : Progress} {ctx : Context} {n : Nat}

theorem decides_any {excuse : Diagnostic → Prop} {rel : Relation} (h : Decides κ excuse rel) :
    Decides κ anyComplaint rel :=
  fun p a b hE => (h p a b hE).weaken fun _ _ => trivial

/-- Complaining in another way is still no answer where there was none. -/
theorem Answers.orElseThrow {E : Equations} {m : Relate Subst} {d : Diagnostic → Diagnostic}
    (h : Answers κ anyComplaint n p E m) :
    Answers κ anyComplaint n p E (Relate.orElseThrow m d) :=
  ends_orElseThrow h

/-! ## Subtyping -/

/-- That two functions are one, the parameters first and the other way round. -/
theorem amounts_fn_flipped (n : Nat) {a r a' r' : Ty} (hf : (Ty.fn a r).Core κ)
    (hf' : (Ty.fn a' r').Core κ) :
    Amounts κ n n [(.fn a r, .fn a' r')] ([(a', a)] ++ [(r, r')]) :=
  amounts_fn_of n hf hf' (fun t ht => or_left_comm.1 (by simpa [sides] using ht))
    fun θ => by simp [Valuation.Unifies, eq_comm]

theorem answers_subtypeShapes (hκ : ¬ κ.records) {unify subtype : Relation}
    (hunify : Decides κ anyComplaint unify) (hsub : Decides κ anyComplaint subtype) {a b : Ty}
    (hE : Posed κ p.supply.count [(a, b)]) (hva : ∀ v, a ≠ .var v) (hvb : ∀ v, b ≠ .var v) :
    Answers κ anyComplaint p.supply.count p [(a, b)] (subtypeShapes ctx unify subtype a b) := by
  have ha := hE.core a (by simp [sides])
  have hb := hE.core b (by simp [sides])
  have hunified : Answers κ anyComplaint p.supply.count p [(a, b)]
      (subtypeUnified ctx unify a b) := Answers.orElseThrow (hunify p a b hE)
  cases ha with
  | @var v _ => exact absurd rfl (hva v)
  | record hrec _ _ _ => exact absurd hrec hκ
  | prim name =>
      cases hb with
      | @var v _ => exact absurd rfl (hvb v)
      | record hrec _ _ _ => exact absurd hrec hκ
      | _ => exact hunified
  | fn hp hr =>
      cases hb with
      | @var v _ => exact absurd rfl (hvb v)
      | record hrec _ _ _ => exact absurd hrec hκ
      | fn hp' hr' =>
          -- Parameters are related the other way round, which as equations is the same.
          have hparts := amounts_fn_flipped p.supply.count (.fn hp hr) (.fn hp' hr')
          have hposed := hE.of_amounts hparts fun t ht => by
            rcases (by simpa [sides] using ht : t = _ ∨ t = _ ∨ t = _ ∨ t = _) with
              rfl | rfl | rfl | rfl <;> assumption
          refine Answers.of_amounts hparts (Nat.le_refl _) (Nat.le_refl _) ?_
          refine Ends.bind ((hsub p _ _ hposed.left).imp ?_ ?_)
          · rintro s q ⟨hadv, hs⟩
            have hresult := hsub q _ _ (hs.posed hposed hadv.count)
            exact (hs.answers hposed hadv.count hresult).since hadv
          · rintro e q ⟨hadv, href⟩
            exact ⟨hadv, fun θ hr hu => href θ (Valuation.respectsAll_append.1 hr).1
              (Valuation.unifies_append.1 hu).1⟩
      | _ => exact hunified
  | @tuple as has =>
      cases hb with
      | @var v _ => exact absurd rfl (hvb v)
      | record hrec _ _ _ => exact absurd hrec hκ
      | @tuple bs hbs =>
          rw [subtypeShapes]
          split
          · next hlen =>
              have hparts := amounts_tuple p.supply.count hlen (.tuple has) (.tuple hbs)
              refine Answers.of_amounts hparts (Nat.le_refl _) (Nat.le_refl _)
                (answers_pairs hsub (hE.of_amounts hparts fun t ht => ?_))
              exact (mem_sides_zip ht).elim (has t) (hbs t)
          · exact hunified
      | _ => exact hunified

theorem decides_subtypeStep (hκ : ¬ κ.records) {unify subtype : Relation}
    (hunify : Decides κ anyComplaint unify) (hsub : Decides κ anyComplaint subtype) :
    Decides κ anyComplaint (subtypeStep ctx unify subtype) := by
  intro p a b hE
  unfold subtypeStep
  split
  · next heq => exact answers_equiv hE heq
  · split
    · exact hunify p _ _ hE
    · exact hunify p _ _ hE
    · next hva hvb =>
        have hdirect : (isIndirect a || isIndirect b) = false := by
          cases hE.core a (by simp [sides]) <;> cases hE.core b (by simp [sides]) <;> rfl
        rw [if_neg (by rw [hdirect]; simp)]
        exact answers_subtypeShapes hκ hunify hsub hE hva hvb

/-- Without records, subtyping answers that the types are one. -/
theorem decides_subtype (ctx : Context) (hκ : ¬ κ.records) :
    ∀ limit : Nat, Decides κ anyComplaint (subtype ctx limit)
  | 0 => fun _ _ _ _ => ends_exceed ⟨⟨Nat.le_refl _, fun _ => rfl⟩, fun _ _ _ => ⟨rfl, trivial⟩⟩
  | limit + 1 => decides_subtypeStep hκ (decides_any (decides_unify ctx κ limit))
      (decides_subtype ctx hκ limit)

/-! ## Joins -/

/-- Under what solves equations, a type stands for another one. -/
structure Represents (κ : Sorts) (E : Equations) (s : Subst) (t a : Ty) : Prop where
  core : t.Core κ
  free : ∀ id, t.Mentions id → s.get? id = none
  inside : ∀ id, t.Mentions id → Mentioned E id ∨ a.Mentions id
  form : ∀ θ : Valuation, θ.Absorbs κ s → θ.form t = θ.form a

/-- A run answers equations and gives a type that stands for one of theirs. -/
def AnswersWith (κ : Sorts) (n : Nat) (p : Progress) (E : Equations) (a : Ty) (m : Relate Joined) :
    Prop :=
  Ends m p
    (fun j q => Advances p q ∧ Solves κ n q.supply.count E j.2 ∧ Represents κ E j.2 j.1 a)
    fun e q => Advances p q ∧ Refutes E (q.exceeded = true ∧ anyComplaint e)

theorem Solves.over_of_simple {m : Nat} {E : Equations} {s : Subst} (hκ : ¬ κ.records)
    (h : Solves κ n m E s) {id : Int} (hid : s.Mentions id) : Mentioned E id :=
  (h.inside id hid).resolve_right fun hrec => hκ hrec.1

/-- What a type is under what solves equations stands for it. -/
theorem represents_apply {m : Nat} {E : Equations} {s : Subst} {a : Ty} (hκ : ¬ κ.records)
    (h : Solves κ n m E s) (hcore : a.Core κ) : Represents κ E s (s.apply a) a where
  core := h.solved.core.apply hcore
  free := fun _ => h.solved.free_of_mentions hcore
  inside := fun _ hid => (Subst.mentions_or_of_apply h.solved.core hcore hid).elim .inr
    fun hid => .inl (Solves.over_of_simple hκ h hid)
  form := fun _ habs => habs.form_apply h.solved.core hcore

theorem answersWith_unified (hκ : ¬ κ.records) {rel : Relation} (hrel : Decides κ anyComplaint rel)
    {a b : Ty} (hE : Posed κ p.supply.count [(a, b)]) :
    AnswersWith κ p.supply.count p [(a, b)] a (joinUnified rel a b) := by
  have ha : a.Core κ := hE.core a (by simp [sides])
  have hwidest : widest a b = a := by cases ha <;> rfl
  refine Ends.bind ((hrel p a b hE).imp ?_ fun _ _ h => h)
  rintro s q ⟨hadv, hs⟩
  rw [hwidest]
  exact ends_pure ⟨hadv, hs, represents_apply hκ hs ha⟩

/-- What stands for a type is as high as the type is then. -/
theorem Represents.height_eq {m : Nat} {E : Equations} {s : Subst} {t a : Ty}
    (h : Solves κ n m E s) (hr : Represents κ E s t a) (ha : a.Core κ) :
    t.height = (s.apply a).height := by
  have htame : ∀ {u : Ty} (j : Int) (w : Ty), u.Mentions j → s.get? j = some w → w.Tame :=
    fun j w _ hw => (h.solved.core j w hw).1.tame
  have hform := hr.form s.valuation h.solved.absorbs_valuation
  rw [Subst.form_valuation hr.core htame, Subst.form_valuation ha htame,
    hr.core.stable.apply_eq_self hr.free] at hform
  exact Ty.height_eq_of_form hr.core.tame (h.solved.core.apply ha).tame hform

/-- What a run may need: types of some height, with some unknowns in them. -/
structure Fits (E : Equations) (ids : List Int) (h : Nat) (depth : Nat) : Prop where
  mentioned : ∀ id, Mentioned E id → id ∈ ids
  height : ∀ t ∈ sides E, t.height ≤ h
  depth : doubled ids.length h ≤ depth

/-- What the unknowns that are left and the height that was reached come to is what it was. -/
theorem doubled_left (s : Subst) (ids : List Int) (h : Nat) :
    doubled (ids.filter fun id => !s.binds id).length (doubled (ids.countP s.binds) h) =
      doubled ids.length h := by
  have hlen : (ids.filter fun id => !s.binds id).length = ids.countP fun id => !s.binds id :=
    List.countP_eq_length_filter.symm
  have hsum := List.length_eq_countP_add_countP s.binds (l := ids)
  have hnot : (ids.countP fun id => decide ¬ s.binds id = true) =
      ids.countP fun id => !s.binds id := by
    congr 1
    funext id
    cases s.binds id <;> rfl
  rw [← doubled_add, hlen, hsum, hnot]

/-- Equations said anew need no more than they did. -/
theorem Fits.restates {m depth h : Nat} {E F G : Equations} {s : Subst} {ids : List Int}
    (hκ : ¬ κ.records) (hfits : Fits (E ++ F) ids h depth) (hG : Restates κ n m E F s G) :
    Fits G (ids.filter fun id => !s.binds id) (doubled (ids.countP s.binds) h) depth where
  mentioned := by
    intro id hid
    refine List.mem_filter.2 ⟨?_, ?_⟩
    · exact (hG.inside id hid).elim (hfits.mentioned id) fun hrec => absurd hrec.1 hκ
    · rw [Subst.binds, hG.free id hid]
      rfl
  height := hG.height hκ ids h hfits.mentioned hfits.height
  depth := by
    rw [doubled_left]
    exact hfits.depth

theorem Fits.left {depth h : Nat} {E F : Equations} {ids : List Int}
    (hfits : Fits (E ++ F) ids h depth) : Fits E ids h depth where
  mentioned := fun id hid => hfits.mentioned id (mentioned_append.2 (.inl hid))
  height := fun t ht => hfits.height t (by rw [sides_append]; exact List.mem_append_left _ ht)
  depth := hfits.depth

/-- A join that answers what fits into some depth. -/
def JoinsWithin (κ : Sorts) (depth : Nat) (join : Ty → Ty → Relate Joined) : Prop :=
  ∀ (p : Progress) (a b : Ty) (ids : List Int) (h : Nat), Posed κ p.supply.count [(a, b)] →
    Fits [(a, b)] ids h depth → AnswersWith κ p.supply.count p [(a, b)] a (join a b)

/-- The elements joined so far stand for the left sides of the equations. -/
structure Collected (κ : Sorts) (E : Equations) (s : Subst) (done : List Ty) : Prop where
  core : ∀ t ∈ done, t.Core κ
  inside : ∀ t ∈ done, ∀ id, t.Mentions id → Mentioned E id
  form : ∀ θ : Valuation, θ.Absorbs κ s → done.map θ.form = E.map fun e => θ.form e.1

theorem Collected.represents {m : Nat} {E : Equations} {s : Subst} {done : List Ty}
    (hκ : ¬ κ.records) (h : Solves κ n m E s) (hE : Posed κ n E) (hdone : Collected κ E s done) :
    Represents κ E s (.tuple (s.applyAll done)) (.tuple (E.map (·.1))) := by
  rw [Subst.applyAll_eq_map]
  have hcore : ∀ t ∈ done.map s.apply, t.Core κ := by
    intro t ht
    obtain ⟨u, hu, rfl⟩ := List.mem_map.1 ht
    exact h.solved.core.apply (hdone.core u hu)
  refine ⟨.tuple hcore, fun id hid => ?_, fun id hid => ?_, fun θ habs => ?_⟩
  · obtain ⟨t, ht, hid⟩ := Ty.mentions_tuple.1 hid
    obtain ⟨u, hu, rfl⟩ := List.mem_map.1 ht
    exact h.solved.free_of_mentions (hdone.core u hu) hid
  · obtain ⟨t, ht, hid⟩ := Ty.mentions_tuple.1 hid
    obtain ⟨u, hu, rfl⟩ := List.mem_map.1 ht
    exact .inl ((Subst.mentions_or_of_apply h.solved.core (hdone.core u hu) hid).elim
      (hdone.inside u hu id) (Solves.over_of_simple hκ h))
  · have hfirst : ∀ t ∈ E.map (·.1), t.Core κ := by
      intro t ht
      obtain ⟨e, he, rfl⟩ := List.mem_map.1 ht
      exact hE.core _ (mem_sides.2 ⟨e, he, .inl rfl⟩)
    refine (Valuation.form_tuple hcore hfirst).2 ?_
    have happly : (done.map s.apply).map θ.form = done.map θ.form := by
      rw [List.map_map]
      exact List.map_congr_left fun t ht => habs.form_apply h.solved.core (hdone.core t ht)
    rw [happly, hdone.form θ habs, List.map_map]
    rfl

/-- Joining the elements of tuples one after the other answers that they are one. -/
theorem answersWith_joinAll (hκ : ¬ κ.records) {depth h : Nat} {ids : List Int}
    {join : Ty → Ty → Relate Joined} (hjoin : JoinsWithin κ depth join) :
    ∀ {pairs E : Equations} {done : List Ty} {s : Subst} {p : Progress},
      Solves κ n p.supply.count E s → Posed κ n (E ++ pairs) → n ≤ p.supply.count →
      Fits (E ++ pairs) ids h depth → Collected κ E s done →
      AnswersWith κ n p (E ++ pairs) (.tuple ((E ++ pairs).map (·.1))) (joinAll join pairs done s)
  | [], E, done, s, p, hs, hE, _, _, hdone => by
      rw [List.append_nil] at hE ⊢
      exact ends_pure ⟨.refl p, hs, hdone.represents hκ hs hE⟩
  | (a, b) :: pairs, E, done, s, p, hs, hE, hn, hfits, hdone => by
      have happend : E ++ (a, b) :: pairs = (E ++ [(a, b)]) ++ pairs := by simp
      rw [happend] at hE hfits ⊢
      have hG := hs.restates hE.left
      refine Ends.bind ((hjoin p _ _ _ _ (hG.posed hE.left hn)
        (hfits.left.restates hκ hG)).imp ?_ ?_)
      · rintro ⟨t, next⟩ q ⟨hadv, hnext, ht⟩
        have hs' := hG.append hs hE.left hn hadv.count hnext
        have hapart := hG.apart hs hE.left hn hnext
        have hdone' : Collected κ (E ++ [(a, b)]) (next.after s) (done ++ [t]) := by
          refine ⟨fun u hu => ?_, fun u hu id hid => ?_, fun θ habs => ?_⟩
          · rcases List.mem_append.1 hu with hu | hu
            · exact hdone.core u hu
            · rw [List.mem_singleton.1 hu]; exact ht.core
          · rcases List.mem_append.1 hu with hu | hu
            · exact mentioned_append.2 (.inl (hdone.inside u hu id hid))
            · rw [List.mem_singleton.1 hu] at hid
              have hmem : Mentioned [(s.apply a, s.apply b)] id :=
                (ht.inside id hid).elim (fun h => h) fun h => mentioned_pair.2 (.inl h)
              exact (hG.inside id hmem).resolve_right fun hrec => hκ hrec.1
          · obtain ⟨habs₁, habs₂⟩ :=
              Valuation.Absorbs.of_after hs.solved hnext.solved hapart habs
            have ha : a.Core κ := hE.left.core a (by simp [sides])
            rw [List.map_append, List.map_append, hdone.form θ habs₁]
            show _ ++ [θ.form t] = _ ++ [θ.form a]
            rw [ht.form θ habs₂, habs₁.form_apply hs.solved.core ha]
        refine (answersWith_joinAll hκ hjoin hs' hE (Nat.le_trans hn hadv.count) hfits
          hdone').imp ?_ ?_
        · rintro j r ⟨hadv', h⟩
          exact ⟨hadv.trans hadv', h⟩
        · rintro e r ⟨hadv', h⟩
          exact ⟨hadv.trans hadv', h⟩
      · rintro e q ⟨hadv, href⟩
        refine ⟨hadv, fun θ hr hu => ?_⟩
        exact hG.refutes hs hE.left href θ (Valuation.respectsAll_append.1 hr).1
          (Valuation.unifies_append.1 hu).1

theorem AnswersWith.of_amounts {E F : Equations} {a : Ty} {m : Relate Joined}
    (hEF : Amounts κ p.supply.count p.supply.count E F) (hκ : ¬ κ.records)
    (h : AnswersWith κ p.supply.count p F a m) : AnswersWith κ p.supply.count p E a m := by
  refine h.imp ?_ fun _ _ ⟨hadv, href⟩ => ⟨hadv, href.of_amounts hEF⟩
  rintro j q ⟨hadv, hs, ht⟩
  refine ⟨hadv, hs.of_amounts hEF (Nat.le_refl _) hadv.count, ht.core, ht.free, fun id hid => ?_,
    ht.form⟩
  exact (ht.inside id hid).imp_left fun hid =>
    (hEF.mentioned id hid).resolve_right fun hrec => hκ hrec.1

/-- The elements of tuples fit into one step less. -/
theorem Fits.zip {as bs : List Ty} {ids : List Int} {h depth : Nat}
    (hfits : Fits [(.tuple as, .tuple bs)] ids h (depth + 1)) :
    Fits (as.zip bs) ids (h - 1) depth := by
  have ha := hfits.height (.tuple as) (by simp [sides])
  have hb := hfits.height (.tuple bs) (by simp [sides])
  have hdepth := hfits.depth
  refine ⟨fun id hid => hfits.mentioned id (mentioned_pair.2 ?_), fun t ht => ?_, ?_⟩
  · obtain ⟨t, ht, hid⟩ := hid
    rw [Ty.mentions_tuple, Ty.mentions_tuple]
    exact (mem_sides_zip ht).imp (fun h => ⟨t, h, hid⟩) fun h => ⟨t, h, hid⟩
  · rcases mem_sides_zip ht with ht | ht
    · exact Nat.le_sub_one_of_lt (Nat.lt_of_lt_of_le (Ty.height_lt_tuple ht) ha)
    · exact Nat.le_sub_one_of_lt (Nat.lt_of_lt_of_le (Ty.height_lt_tuple ht) hb)
  · rw [doubled_eq] at hdepth ⊢
    have hpos := Nat.two_pow_pos ids.length
    have hsub := Nat.mul_sub (2 ^ ids.length) h 1
    have hle := Nat.mul_le_mul_left (2 ^ ids.length) (Nat.le_trans (Nat.le_add_left 1 _) ha)
    omega

/-- Joining branches answers that they are one, in the depth they fit into. -/
theorem joinsWithin_joinBranches (hκ : ¬ κ.records) {rel : Relation}
    (hrel : Decides κ anyComplaint rel) :
    ∀ depth : Nat, JoinsWithin κ depth (joinBranches ctx rel depth)
  | 0 => by
      -- There is no depth zero: even a type of height one needs a step.
      intro p a b ids h _ hfits
      have hdepth := hfits.depth
      have ha := hfits.height a (by simp [sides])
      have := Ty.height_pos a
      have := le_doubled ids.length h
      omega
  | depth + 1 => by
      intro p a b ids h hE hfits
      have ha := hE.core a (by simp [sides])
      have hb := hE.core b (by simp [sides])
      have hunified := answersWith_unified hκ hrel hE
      rw [joinBranches]
      cases ha with
      | var _ => exact hunified
      | record hrec _ _ _ => exact absurd hrec hκ
      | prim name =>
          cases hb with
          | record hrec _ _ _ => exact absurd hrec hκ
          | _ => exact hunified
      | fn hp hr =>
          cases hb with
          | record hrec _ _ _ => exact absurd hrec hκ
          | _ => exact hunified
      | @tuple as has =>
          cases hb with
          | record hrec _ _ _ => exact absurd hrec hκ
          | @tuple bs hbs =>
              rw [joinBranchesStep]
              split
              · next hlen =>
                  have hparts := amounts_tuple p.supply.count hlen (.tuple has) (.tuple hbs)
                  have hposed := hE.of_amounts hparts fun t ht =>
                    (mem_sides_zip ht).elim (has t) (hbs t)
                  have hempty : Collected κ [] .empty [] :=
                    ⟨by simp, by simp, fun θ _ => rfl⟩
                  have hfst : (as.zip bs).map (fun e => e.1) = as :=
                    List.map_fst_zip (Nat.le_of_eq hlen)
                  have hall : AnswersWith κ p.supply.count p (as.zip bs)
                      (.tuple ((as.zip bs).map fun e => e.1))
                      (joinAll (joinBranches ctx rel depth) (as.zip bs) [] .empty) :=
                    answersWith_joinAll (E := []) hκ (joinsWithin_joinBranches hκ hrel depth)
                      (solves_nil κ p.supply.count) hposed (Nat.le_refl _) hfits.zip hempty
                  rw [hfst] at hall
                  exact hall.of_amounts hparts hκ
              · exact hunified
          | _ => exact hunified

/-- What stands for two types restates that these are one. -/
theorem Represents.restates {m : Nat} {E : Equations} {s : Subst} {t u a b : Ty}
    (hκ : ¬ κ.records) (hs : Solves κ n m E s) (hE : Posed κ n (E ++ [(a, b)]))
    (ht : Represents κ E s t a) (hu : Represents κ E s u b) :
    Restates κ n m E [(a, b)] s [(t, u)] := by
  have ha : a.Core κ := hE.core a (by simp [sides])
  have hb : b.Core κ := hE.core b (by simp [sides])
  have hcore : ∀ v ∈ sides [(t, u)], v.Core κ := by
    intro v hv
    rcases (by simpa [sides] using hv : v = t ∨ v = u) with rfl | rfl
    · exact ht.core
    · exact hu.core
  refine ⟨hcore, fun id hid => ?_, fun id hid => .inl (mentioned_append.2 ?_), fun θ habs => ?_,
    fun θ _ _ _ v hv => Valuation.respects_of_core hκ (hcore v hv),
    fun _ ids hgt hids hsides v hv => ?_⟩
  · exact (mentioned_pair.1 hid).elim (ht.free id) (hu.free id)
  · rw [mentioned_pair]
    rcases mentioned_pair.1 hid with hid | hid
    · exact (ht.inside id hid).imp_right .inl
    · exact (hu.inside id hid).imp_right .inr
  · rw [unifies_pair, unifies_pair, ht.form θ habs, hu.form θ habs]
  -- `t` is as high as `s.apply a`, so the bound on heights under `s` carries over.
  · have hgrow : ∀ c ∈ sides [(a, b)], c.Core κ →
        (s.apply c).height ≤ doubled (ids.countP s.binds) hgt := by
      intro c hc hcore
      rw [sides_append] at hsides
      exact hs.growth hκ ids hgt (fun id hid => hids id (mentioned_append.2 (.inl hid)))
        (fun t ht => hsides t (List.mem_append_left _ ht)) c hcore
        (hsides c (List.mem_append_right _ hc))
    rcases (by simpa [sides] using hv : v = t ∨ v = u) with rfl | rfl
    · rw [ht.height_eq hs ha]
      exact hgrow a (by simp [sides]) ha
    · rw [hu.height_eq hs hb]
      exact hgrow b (by simp [sides]) hb

/-- What stands for a type after more was found. -/
theorem Represents.step {m m' : Nat} {E : Equations} {s next : Subst} {t u a b : Ty}
    (hκ : ¬ κ.records) (hs : Solves κ n m E s) (hG : Restates κ n m E [(a, b)] s [(t, u)])
    (hE : Posed κ n (E ++ [(a, b)])) (hn : n ≤ m) (hnext : Solves κ m m' [(t, u)] next)
    (ht : Represents κ E s t a) {w : Ty} (hw : Represents κ [(t, u)] next w t) :
    Represents κ (E ++ [(a, b)]) (next.after s) w a := by
  have hapart := hG.apart hs hE hn hnext
  have hpair : ∀ id, w.Mentions id → Mentioned [(t, u)] id := fun id hid =>
    (hw.inside id hid).elim (fun h => h) fun h => mentioned_pair.2 (.inl h)
  refine ⟨hw.core, fun id hid => ?_, fun id hid => ?_, fun θ habs => ?_⟩
  · rw [Subst.get?_after_apart hs.solved hnext.solved hapart, hG.free id (hpair id hid)]
    exact hw.free id hid
  · exact .inl ((hG.inside id (hpair id hid)).resolve_right fun hrec => hκ hrec.1)
  · obtain ⟨habs₁, habs₂⟩ := Valuation.Absorbs.of_after hs.solved hnext.solved hapart habs
    rw [hw.form θ habs₂, ht.form θ habs₁]

/-- Joining a list of types into the first one answers that they are all one with it. -/
theorem answersWith_joinList (hκ : ¬ κ.records) {depth h : Nat} {ids : List Int} {a : Ty}
    {join : Ty → Ty → Relate Joined} (hjoin : JoinsWithin κ depth join) :
    ∀ {bs : List Ty} {E : Equations} {t : Ty} {s : Subst} {p : Progress},
      Solves κ n p.supply.count E s → Posed κ n (E ++ bs.map fun b => (a, b)) → a.Core κ →
      n ≤ p.supply.count → Fits (E ++ bs.map fun b => (a, b)) ids h depth →
      Represents κ E s t a →
      AnswersWith κ n p (E ++ bs.map fun b => (a, b)) a (joinList join bs (t, s))
  | [], E, t, s, p, hs, hE, _, _, _, ht => by
      rw [List.map_nil, List.append_nil] at hE ⊢
      have happly : s.apply t = t := ht.core.stable.apply_eq_self ht.free
      rw [joinList, happly]
      exact ends_pure ⟨.refl p, hs, ht⟩
  | b :: bs, E, t, s, p, hs, hE, ha, hn, hfits, ht => by
      have happend : E ++ (b :: bs).map (fun b => (a, b)) =
          (E ++ [(a, b)]) ++ bs.map fun b => (a, b) := by simp
      rw [happend] at hE hfits ⊢
      have hb : b.Core κ := hE.core b (by simp [sides])
      have hG := ht.restates hκ hs hE.left (represents_apply hκ hs hb)
      rw [joinList, ht.core.stable.apply_eq_self ht.free]
      refine Ends.bind ((hjoin p _ _ _ _ (hG.posed hE.left hn)
        (hfits.left.restates hκ hG)).imp ?_ ?_)
      · rintro ⟨w, next⟩ q ⟨hadv, hnext, hw⟩
        have hs' := hG.append hs hE.left hn hadv.count hnext
        have hw' := ht.step hκ hs hG hE.left hn hnext hw
        refine (answersWith_joinList hκ hjoin hs' hE ha (Nat.le_trans hn hadv.count) hfits
          hw').imp ?_ ?_
        · rintro j r ⟨hadv', h⟩
          exact ⟨hadv.trans hadv', h⟩
        · rintro e r ⟨hadv', h⟩
          exact ⟨hadv.trans hadv', h⟩
      · rintro e q ⟨hadv, href⟩
        refine ⟨hadv, fun θ hr hu => ?_⟩
        exact hG.refutes hs hE.left href θ (Valuation.respectsAll_append.1 hr).1
          (Valuation.unifies_append.1 hu).1

/-! ## Branches -/

/-- Fitting branches to a result relates the pairs of them one after the other. -/
theorem fitBranches_eq_thread (sub : Relation) (result : Ty) :
    ∀ (branches : List Ty) (s : Subst), fitBranches ctx sub result branches s =
      thread (fun a b => Relate.orElseThrow (sub a b) fun _ =>
        mismatch ctx b a "a branch does not fit how the result is used")
        (branches.map fun b => (b, result)) s
  | [], _ => rfl
  | b :: bs, s => by
      rw [fitBranches, List.map_cons, thread]
      congr 1
      funext next
      exact fitBranches_eq_thread sub result bs _

/-- The depth that joins are given is one that the types fit into. -/
theorem fits_joinDepth (first : Ty) (others : List Ty) :
    Fits (others.map fun b => (first, b)) ((Ty.frees (first :: others)).map (·.id))
      (Ty.heightAll (first :: others)) (joinDepth (first :: others)) where
  mentioned := by
    rintro id ⟨t, ht, hid⟩
    have hmem : t ∈ first :: others := by
      obtain ⟨e, he, hte⟩ := mem_sides.1 ht
      obtain ⟨b, hb, rfl⟩ := List.mem_map.1 he
      rcases hte with rfl | rfl
      · exact List.mem_cons_self
      · exact List.mem_cons_of_mem _ hb
    have hhas : (Ty.frees (first :: others)).has ⟨id, 0⟩ = true := Ty.has_frees.2 ⟨t, hmem, hid⟩
    obtain ⟨w, hw, hid⟩ := List.any_eq_true.1 hhas
    exact List.mem_map.2 ⟨w, hw, by simpa using hid⟩
  height := by
    intro t ht
    obtain ⟨e, he, hte⟩ := mem_sides.1 ht
    obtain ⟨b, hb, rfl⟩ := List.mem_map.1 he
    rcases hte with rfl | rfl
    · exact Ty.height_le_heightAll List.mem_cons_self
    · exact Ty.height_le_heightAll (List.mem_cons_of_mem _ hb)
  depth := by
    rw [List.length_map, joinDepth]
    exact Nat.le_add_left _ _

theorem mem_sides_joined {result first t : Ty} {others : List Ty}
    (h : t ∈ sides ((others.map fun b => (first, b)) ++ [(result, first)])) :
    t ∈ sides ((first :: others).map fun b => (b, result)) := by
  obtain ⟨e, he, hte⟩ := mem_sides.1 h
  rcases List.mem_append.1 he with he | he
  · obtain ⟨b, hb, rfl⟩ := List.mem_map.1 he
    rcases hte with rfl | rfl
    · exact mem_sides.2 ⟨(t, result), by simp, .inl rfl⟩
    · exact mem_sides.2 ⟨(t, result), List.mem_map.2 ⟨t, by simp [hb], rfl⟩, .inl rfl⟩
  · rw [List.mem_singleton.1 he] at hte
    exact mem_sides.2 ⟨(first, result), by simp, hte.symm⟩

/-- That branches are one with the first of them and the result with it. -/
theorem amounts_joined (n : Nat) (result first : Ty) (others : List Ty) :
    Amounts κ n n ((first :: others).map fun b => (b, result))
      ((others.map fun b => (first, b)) ++ [(result, first)]) := by
  refine amounts_of_sides n (fun t => mem_sides_joined) fun θ => ⟨fun h => ?_, fun h => ?_⟩
  · obtain ⟨hothers, hresult⟩ := Valuation.unifies_append.1 h
    have hfirst := unifies_pair.1 hresult
    intro e he
    obtain ⟨b, hb, rfl⟩ := List.mem_map.1 he
    rcases List.mem_cons.1 hb with rfl | hb
    · exact hfirst.symm
    · exact (hothers (first, b) (List.mem_map.2 ⟨b, hb, rfl⟩)).symm.trans hfirst.symm
  · have hfirst : θ.form first = θ.form result := h (first, result) (by simp)
    refine Valuation.unifies_append.2 ⟨fun e he => ?_, unifies_pair.2 hfirst.symm⟩
    obtain ⟨b, hb, rfl⟩ := List.mem_map.1 he
    exact hfirst.trans (h (b, result) (List.mem_map.2 ⟨b, by simp [hb], rfl⟩)).symm

/-- Joining branches and binding the result to the join answers that they are one. -/
theorem answers_joined (hκ : ¬ κ.records) (limit : Nat) {result first : Ty} {others : List Ty}
    (hE : Posed κ p.supply.count ((first :: others).map fun b => (b, result))) :
    Answers κ anyComplaint p.supply.count p ((first :: others).map fun b => (b, result)) (do
      let (joined, s) ← joinList
        (joinBranches ctx (unify ctx limit) (joinDepth (first :: others))) others (first, .empty)
      let bound ← unify ctx limit (s.apply result) joined
      pure (bound.after s)) := by
  have hunify := decides_any (decides_unify ctx κ limit)
  have hparts := amounts_joined (κ := κ) p.supply.count result first others
  have hfirst : first.Core κ := hE.core first (by simp [sides])
  have hposed := hE.sub fun t => mem_sides_joined
  have hself : Represents κ [] .empty first first :=
    ⟨hfirst, fun _ _ => rfl, fun _ h => .inr h, fun _ _ => rfl⟩
  have hjoin : JoinsWithin κ (joinDepth (first :: others))
      (joinBranches ctx (unify ctx limit) (joinDepth (first :: others))) :=
    joinsWithin_joinBranches hκ hunify _
  have hlist := answersWith_joinList (E := []) hκ hjoin (solves_nil κ _) hposed.left hfirst
    (Nat.le_refl _) (fits_joinDepth first others) hself
  refine Answers.of_amounts hparts (Nat.le_refl _) (Nat.le_refl _) (Ends.bind (hlist.imp ?_ ?_))
  · rintro ⟨joined, s⟩ q ⟨hadv, hs, hjoined⟩
    have hresult : result.Core κ := hE.core result (by simp [sides])
    have hG := (represents_apply hκ hs hresult).restates hκ hs hposed hjoined
    refine Ends.bind ((hunify q _ _ (hG.posed hposed hadv.count)).imp ?_ ?_)
    · rintro bound r ⟨hadv', hbound⟩
      exact ends_pure ⟨hadv.trans hadv', hG.append hs hposed hadv.count hadv'.count hbound⟩
    · rintro e r ⟨hadv', href⟩
      exact ⟨hadv.trans hadv', hG.refutes hs hposed href⟩
  · rintro e q ⟨hadv, href⟩
    exact ⟨hadv, fun θ hr hu => href θ (Valuation.respectsAll_append.1 hr).1
      (Valuation.unifies_append.1 hu).1⟩

/-- Giving the result of branches its type answers that it is one with each of them. -/
theorem answers_branch (ctx : Context) (hκ : ¬ κ.records) (limit : Nat) {result : Ty}
    {branches : List Ty}
    (hE : Posed κ p.supply.count (branches.map fun b => (b, result))) :
    Answers κ anyComplaint p.supply.count p (branches.map fun b => (b, result))
      (branch ctx limit result branches) := by
  unfold branch
  split
  · exact answers_solved (solves_nil κ _)
  · split
    · exact answers_joined hκ limit hE
    · rw [fitBranches_eq_thread]
      exact answers_pairs
        (fun q a b hposed => Answers.orElseThrow (decides_subtype ctx hκ limit q a b hposed)) hE

end Relate

end RowTypes
