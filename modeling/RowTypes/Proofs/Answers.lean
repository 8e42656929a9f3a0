import RowTypes.Proofs.Equations

/-!
# Runs that answer equations

A run answers equations if it ends with a substitution that solves them, or fails and has refuted
them.  The way runs are put together is shown here to answer what it should: relating pairs one
after the other answers them all, and binding an unknown answers the one equation it is about.

Equations are often exchanged for others that amount to the same, such as those of the parts for
those of the whole.  What amounts to the same may use rows that are newer than the equations it
stands for, as long as every valuation of the old ones can be given values for those.
-/

namespace RowTypes

open Equations

/-- What a run leaves behind: unknowns are used up, and an exceeded limit stays exceeded. -/
structure Advances (p q : Progress) : Prop where
  count : p.supply.count ≤ q.supply.count
  exceeded : p.exceeded = true → q.exceeded = true

theorem Advances.refl (p : Progress) : Advances p p := ⟨Nat.le_refl _, id⟩

theorem Advances.trans {p q r : Progress} (h : Advances p q) (h' : Advances q r) : Advances p r :=
  ⟨Nat.le_trans h.count h'.count, fun hp => h'.exceeded (h.exceeded hp)⟩

/-- A run from a state answers equations that were posed when so many unknowns had been given out.
Its failures are refutations, unless the limit is exceeded and the complaint is an excuse. -/
def Answers (κ : Sorts) (excuse : Diagnostic → Prop) (n : Nat) (p : Progress) (E : Equations)
    (m : Relate Subst) : Prop :=
  Ends m p (fun s q => Advances p q ∧ Solves κ n q.supply.count E s)
    fun e q => Advances p q ∧ Refutes E (q.exceeded = true ∧ excuse e)

/-- A relation answers every equation that can be posed. -/
def Decides (κ : Sorts) (excuse : Diagnostic → Prop) (rel : Relation) : Prop :=
  ∀ (p : Progress) (a b : Ty), Posed κ p.supply.count [(a, b)] →
    Answers κ excuse p.supply.count p [(a, b)] (rel a b)

/-- Equations amount to others that are posed when more unknowns have been given out. -/
structure Amounts (κ : Sorts) (n m : Nat) (E F : Equations) : Prop where
  mentioned : ∀ id, Mentioned F id → Mentioned E id ∨ (κ.records ∧ n < id ∧ id ≤ m)
  back : ∀ θ : Valuation, θ.Unifies F → θ.Unifies E
  forth : ∀ θ : Valuation, θ.RespectsAll E → θ.Unifies E →
    ∃ θ' : Valuation, θ.AgreesUpTo n θ' ∧ θ'.RespectsAll F ∧ θ'.Unifies F
  height : ¬ κ.records → ∀ h : Nat, (∀ t ∈ sides E, t.height ≤ h) → ∀ t ∈ sides F, t.height ≤ h

section Amounts

variable {κ : Sorts} {n m k : Nat} {E F : Equations} {s : Subst}

theorem Solves.of_amounts (hEF : Amounts κ n m E F) (hnm : n ≤ m) (hmk : m ≤ k)
    (h : Solves κ m k F s) : Solves κ n k E s where
  solved := h.solved
  inside := by
    intro id hid
    rcases h.inside id hid with hid | ⟨hrec, hlt, hle⟩
    · exact (hEF.mentioned id hid).imp_right fun ⟨hrec, hlt, hle⟩ => ⟨hrec, hlt, by omega⟩
    · exact .inr ⟨hrec, by omega, hle⟩
  sound := fun θ habs => hEF.back θ (h.sound θ habs)
  general := by
    intro θ hr hu
    obtain ⟨θ₁, hagree₁, hr₁, hu₁⟩ := hEF.forth θ hr hu
    obtain ⟨θ₂, hagree₂, habs, hrange⟩ := h.general θ₁ hr₁ hu₁
    exact ⟨θ₂, hagree₁.trans hagree₂ hnm, habs, hrange⟩
  growth := by
    intro hκ ids hgt hids hsides
    refine h.growth hκ ids hgt (fun id hid => ?_) (hEF.height hκ hgt hsides)
    rcases hEF.mentioned id hid with hid | ⟨hrec, -⟩
    · exact hids id hid
    · exact absurd hrec hκ

theorem Refutes.of_amounts (hEF : Amounts κ n m E F) {excused : Prop} (h : Refutes F excused) :
    Refutes E excused := by
  intro θ hr hu
  obtain ⟨θ', -, hr', hu'⟩ := hEF.forth θ hr hu
  exact h θ' hr' hu'

theorem Equations.Posed.of_amounts (hE : Posed κ n E) (h : Amounts κ n n E F)
    (hcore : ∀ t ∈ sides F, t.Core κ) : Posed κ n F := by
  refine ⟨hcore, fun t ht id hid => ?_, hE.fresh⟩
  rcases h.mentioned id ⟨t, ht, hid⟩ with ⟨u, hu, hid⟩ | ⟨-, -, hle⟩
  · exact hE.older u hu id hid
  · exact hle

/-- Equations between the same types, unified by the same valuations. -/
theorem amounts_of_sides (n : Nat) (hsides : ∀ t ∈ sides F, t ∈ sides E)
    (hiff : ∀ θ : Valuation, θ.Unifies F ↔ θ.Unifies E) : Amounts κ n n E F where
  mentioned := fun _ ⟨t, ht, hid⟩ => .inl ⟨t, hsides t ht, hid⟩
  back := fun θ => (hiff θ).1
  forth := fun θ hr hu => ⟨θ, .refl, fun t ht => hr t (hsides t ht), (hiff θ).2 hu⟩
  height := fun _ _ h t ht => h t (hsides t ht)

theorem amounts_swap (n : Nat) (a b : Ty) : Amounts κ n n [(a, b)] [(b, a)] := by
  refine amounts_of_sides n (fun t ht => ?_) fun θ => ?_
  · simp [sides] at ht ⊢
    exact ht.symm
  · simp [Valuation.Unifies, eq_comm]

theorem refutes_swap {excused : Prop} {a b : Ty} (h : Refutes [(b, a)] excused) :
    Refutes [(a, b)] excused :=
  Refutes.of_amounts (κ := ⟨fun _ => False, False⟩) (amounts_swap 0 a b) h

/-- Nothing has to be found for equations that every valuation unifies. -/
theorem solves_empty (n : Nat) (h : ∀ θ : Valuation, θ.Unifies E) : Solves κ n n E .empty := by
  refine (solves_nil κ n).of_amounts ?_ (Nat.le_refl _) (Nat.le_refl _)
  exact amounts_of_sides n (fun t ht => by cases ht) fun θ =>
    ⟨fun _ => h θ, fun _ e he => by cases he⟩

end Amounts

section Answering

variable {κ : Sorts} {excuse : Diagnostic → Prop} {n m : Nat} {p : Progress} {E F : Equations}
  {s : Subst}

theorem Answers.of_amounts {run : Relate Subst} (hEF : Amounts κ n m E F) (hnm : n ≤ m)
    (hm : m ≤ p.supply.count) (h : Answers κ excuse m p F run) : Answers κ excuse n p E run :=
  h.imp (fun _ _ ⟨hadv, hs⟩ => ⟨hadv, hs.of_amounts hEF hnm (Nat.le_trans hm hadv.count)⟩)
    fun _ _ ⟨hadv, href⟩ => ⟨hadv, href.of_amounts hEF⟩

theorem Answers.weaken {excuse' : Diagnostic → Prop} {run : Relate Subst}
    (h : Answers κ excuse n p E run) (himp : ∀ e, excuse e → excuse' e) :
    Answers κ excuse' n p E run :=
  h.imp (fun _ _ h => h) fun _ _ ⟨hadv, href⟩ =>
    ⟨hadv, fun θ hr hu => (href θ hr hu).imp_right (himp _)⟩

/-- Answering the rest under what solves the first equations answers all of them. -/
theorem Solves.answers {run : Relate Subst} (h : Solves κ n p.supply.count E s)
    (hE : Posed κ n (E ++ F)) (hn : n ≤ p.supply.count)
    (hF : Answers κ excuse p.supply.count p (apply s F) run) :
    Answers κ excuse n p (E ++ F) (run >>= fun next => pure (next.after s)) :=
  Ends.bind (hF.imp
    (fun _ _ ⟨hadv, hnext⟩ =>
      ends_pure ⟨hadv, h.append hE hn hadv.count hnext⟩)
    fun _ _ ⟨hadv, href⟩ => ⟨hadv, h.refutes hE href⟩)

/-- An answer counts from an earlier state too. -/
theorem Answers.since {q : Progress} {run : Relate Subst} (hadv : Advances p q)
    (h : Answers κ excuse n q E run) :
    Ends run q (fun s r => Advances p r ∧ Solves κ n r.supply.count E s)
      fun e r => Advances p r ∧ Refutes E (r.exceeded = true ∧ excuse e) :=
  h.imp (fun _ _ ⟨hadv', hs⟩ => ⟨hadv.trans hadv', hs⟩)
    fun _ _ ⟨hadv', href⟩ => ⟨hadv.trans hadv', href⟩

theorem answers_solved (h : Solves κ n p.supply.count E s) : Answers κ excuse n p E (pure s) :=
  ends_pure ⟨.refl p, h⟩

theorem answers_refuted {e : Diagnostic} (h : Refutes E False) :
    Answers κ excuse n p E (throw e) :=
  ends_throw ⟨.refl p, fun θ hr hu => (h θ hr hu).elim⟩

/-- Relating pairs one after the other answers them all. -/
theorem answers_thread {rel : Relation} (hrel : Decides κ excuse rel) :
    ∀ {pairs E : Equations} {s : Subst} {p : Progress}, Solves κ n p.supply.count E s →
      Posed κ n (E ++ pairs) → n ≤ p.supply.count →
      Answers κ excuse n p (E ++ pairs) (Relate.thread rel pairs s)
  | [], E, s, p, hs, _, _ => by
      rw [List.append_nil]
      exact answers_solved hs
  | (a, b) :: pairs, E, s, p, hs, hE, hn => by
      have happend : E ++ (a, b) :: pairs = (E ++ [(a, b)]) ++ pairs := by simp
      rw [happend] at hE ⊢
      have hposed : Posed κ p.supply.count [(s.apply a, s.apply b)] := hs.posed hE.left hn
      refine Ends.bind ((hrel p _ _ hposed).imp ?_ ?_)
      · rintro next q ⟨hadv, hnext⟩
        have hs' : Solves κ n q.supply.count (E ++ [(a, b)]) (next.after s) :=
          hs.append hE.left hn hadv.count hnext
        exact (answers_thread hrel hs' hE (Nat.le_trans hn hadv.count)).since hadv
      · rintro e q ⟨hadv, href⟩
        refine ⟨hadv, fun θ hr hu => ?_⟩
        have href' : Refutes (E ++ [(a, b)]) (q.exceeded = true ∧ excuse e) :=
          hs.refutes hE.left href
        exact href' θ (Valuation.respectsAll_append.1 hr).1 (Valuation.unifies_append.1 hu).1

/-- Relating pairs one after the other, from nothing. -/
theorem answers_pairs {rel : Relation} (hrel : Decides κ excuse rel) {pairs : Equations}
    (hE : Posed κ p.supply.count pairs) :
    Answers κ excuse p.supply.count p pairs (Relate.thread rel pairs .empty) :=
  answers_thread (E := []) hrel (solves_nil κ _) hE (Nat.le_refl _)

end Answering

/-! ## Binding -/

section Binding

variable {κ : Sorts} {excuse : Diagnostic → Prop} {n : Nat} {p : Progress} {v : TyVar} {t : Ty}

theorem get?_single_of_free (h : ¬ t.Mentions v.id) (id : Int) :
    (Subst.single v t).get? id = if id = v.id then some t else none := by
  rw [Subst.get?_single, Subst.held_of_ne]
  rintro w rfl hw
  exact h (Ty.mentions_var.2 hw)

theorem solved_single (ht : t.Core κ) (hrow : κ.isRow v.id → ∃ fs row, t = .record fs row)
    (h : ¬ t.Mentions v.id) : (Subst.single v t).Solved κ where
  ordered := Subst.ordered_single v t
  core := by
    intro id u hu
    rw [get?_single_of_free h] at hu
    split at hu
    · next hid => cases hu; exact ⟨ht, hid ▸ hrow⟩
    · cases hu
  fixed := by
    intro id u hu j hj
    rw [get?_single_of_free h] at hu ⊢
    split at hu
    · cases hu
      rw [if_neg]
      rintro rfl
      exact h hj
    · cases hu

theorem mentions_single (h : ¬ t.Mentions v.id) {id : Int}
    (hid : (Subst.single v t).Mentions id) : id = v.id ∨ t.Mentions id := by
  rcases hid with ⟨u, hu⟩ | ⟨j, u, hu, hid⟩
  · rw [get?_single_of_free h] at hu
    split at hu
    · next hid => exact .inl hid
    · cases hu
  · rw [get?_single_of_free h] at hu
    split at hu
    · cases hu; exact .inr hid
    · cases hu

/-- Replacing an unknown by a type adds at most the height of the type. -/
theorem height_apply_single (hκ : ¬ κ.records) (h : ¬ t.Mentions v.id) {u : Ty} (hu : u.Core κ) :
    ((Subst.single v t).apply u).height ≤ u.height + t.height := by
  induction hu with
  | @var w _ =>
      rw [Subst.apply_var, get?_single_of_free h]
      split
      · exact Nat.le_add_left _ _
      · exact Nat.le_add_right _ _
  | prim name => rw [Subst.apply_prim]; exact Nat.le_add_right _ _
  | fn _ _ ihp ihr =>
      rw [Subst.apply_fn, Ty.height, Ty.height]
      omega
  | @tuple ts _ ih =>
      rw [Subst.apply_tuple, Ty.height, Ty.height]
      have : Ty.heightAll (ts.map (Subst.single v t).apply) ≤ Ty.heightAll ts + t.height := by
        refine Ty.heightAll_le_iff.2 fun u hu => ?_
        obtain ⟨w, hw, rfl⟩ := List.mem_map.1 hu
        have := ih w hw
        have := Ty.height_le_heightAll hw
        omega
      omega
  | record hrec _ _ _ _ => exact absurd hrec hκ

theorem mentioned_pair {a b : Ty} {id : Int} :
    Mentioned [(a, b)] id ↔ a.Mentions id ∨ b.Mentions id := by
  simp [Mentioned, sides]

theorem unifies_pair {θ : Valuation} {a b : Ty} :
    θ.Unifies [(a, b)] ↔ θ.form a = θ.form b := by
  simp [Valuation.Unifies]

theorem respectsAll_pair {θ : Valuation} {a b : Ty} :
    θ.RespectsAll [(a, b)] ↔ θ.Respects a ∧ θ.Respects b := by
  simp [Valuation.RespectsAll, sides]

/-- Binding an unknown that does not occur in a type solves that they are one. -/
theorem solves_single (n : Nat) (hv : ¬ κ.isRow v.id) (ht : t.Core κ) (h : ¬ t.Mentions v.id) :
    Solves κ n n [(.var v, t)] (.single v t) where
  solved := solved_single ht (fun hrow => absurd hrow hv) h
  inside := by
    intro id hid
    refine .inl (mentioned_pair.2 ?_)
    rcases mentions_single h hid with rfl | hid
    · exact .inl (Ty.mentions_var.2 rfl)
    · exact .inr hid
  sound := by
    intro θ habs
    refine unifies_pair.2 ?_
    exact ((habs v.id t (by rw [get?_single_of_free h, if_pos rfl])).1 hv).symm
  general := by
    intro θ hr hu
    refine ⟨θ, .refl, fun id u hget => ?_, fun id u hget => ?_⟩
    · rw [get?_single_of_free h] at hget
      split at hget
      · next hid =>
          cases hget
          subst hid
          exact ⟨fun _ => (unifies_pair.1 hu).symm, fun hrow => absurd hrow hv⟩
      · cases hget
    · rw [get?_single_of_free h] at hget
      split at hget
      · cases hget; exact (respectsAll_pair.1 hr).2
      · cases hget
  growth := by
    intro hκ ids hgt hids hsides u hu hheight
    -- One unknown is bound, and that accounts for one doubling.
    have hmem : v.id ∈ ids := hids v.id (mentioned_pair.2 (.inl (Ty.mentions_var.2 rfl)))
    have hone : 1 ≤ ids.countP (Subst.single v t).binds := by
      refine List.one_le_countP_iff.2 ⟨v.id, hmem, ?_⟩
      rw [Subst.binds, get?_single_of_free h, if_pos rfl]
      rfl
    have hheight' := height_apply_single hκ h hu
    have htop : t.height ≤ hgt := hsides t (by simp [sides])
    calc ((Subst.single v t).apply u).height
        ≤ 2 * hgt := by omega
      _ = doubled 1 hgt := rfl
      _ ≤ doubled (ids.countP (Subst.single v t).binds) hgt := by
          rw [doubled_eq, doubled_eq]
          exact Nat.mul_le_mul_right _ (Nat.pow_le_pow_right (by omega) hone)

/-- An unknown is not one with a type that it occurs in. -/
theorem refutes_occurs (hv : ¬ κ.isRow v.id) (ht : t.Core κ) (hne : ∀ w, t ≠ .var w)
    (h : t.Mentions v.id) : Refutes [(.var v, t)] False := by
  intro θ _ hu
  rcases Valuation.height_lt_under (θ := θ) ht hv h with ⟨w, hw⟩ | hlt
  · exact hne w hw
  · have := Ty.height_eq_of_form (θ.tame_ty v.id) (θ.tame_under ht) (unifies_pair.1 hu)
    omega

theorem answers_bindVar (ctx : Context) (hv : ¬ κ.isRow v.id) (ht : t.Core κ)
    (hequiv : ¬ (Ty.var v).equiv t = true) :
    Answers κ excuse p.supply.count p [(.var v, t)] (Relate.bindVar ctx v t) := by
  unfold Relate.bindVar
  split
  · next w =>
      have hid : ¬ w.id = v.id := fun h => hequiv (Ty.equiv_var.2 h.symm)
      rw [if_neg hid]
      exact answers_solved (solves_single _ hv ht fun h => hid (Ty.mentions_var.1 h))
  · next hne =>
      split
      · next hocc =>
          exact answers_refuted (refutes_occurs hv ht hne (Ty.occurs_iff_mentions.1 hocc))
      · next hocc =>
          exact answers_solved
            (solves_single _ hv ht fun h => hocc (Ty.occurs_iff_mentions.2 h))

/-! ## Binding a row -/

theorem form_bare_row {θ : Valuation} (hrec : κ.records) (hv : κ.isRow v.id) :
    θ.form (.record [] (some v)) = (θ.row v.id).toTy.form := by
  have hcore : (Ty.record [] (some v)).Core κ :=
    .record hrec List.Pairwise.nil (by rintro w ⟨⟩; exact hv) (by intro f hf; cases hf)
  refine (Valuation.form_eq_toTy hcore (θ.tame_row v.id)).2 ⟨rfl, fun name => ?_⟩
  rfl

/-- Binding a row to a record that it does not occur in solves that the row stands for it. -/
theorem solves_row (n : Nat) {gs : List (String × Ty)} {rest : Option TyVar} (hv : κ.isRow v.id)
    (ht : (Ty.record gs rest).Core κ) (h : ¬ (Ty.record gs rest).Mentions v.id) :
    Solves κ n n [(.record [] (some v), .record gs rest)] (.single v (.record gs rest)) := by
  have hrec : κ.records := by
    cases ht with
    | record hrec _ _ _ => exact hrec
  refine ⟨solved_single ht (fun _ => ⟨gs, rest, rfl⟩) h, fun id hid => ?_, fun θ habs => ?_,
    fun θ hr hu => ?_, fun hκ => absurd hrec hκ⟩
  · refine .inl (mentioned_pair.2 ?_)
    rcases mentions_single h hid with rfl | hid
    · exact .inl (Ty.mentions_record.2 (.inr ⟨v, rfl, rfl⟩))
    · exact .inr hid
  · refine unifies_pair.2 ?_
    rw [form_bare_row hrec hv]
    exact ((habs v.id _ (by rw [get?_single_of_free h, if_pos rfl])).2 hv).symm
  · refine ⟨θ, .refl, fun id u hget => ?_, fun id u hget => ?_⟩
    · rw [get?_single_of_free h] at hget
      split at hget
      · next hid =>
          cases hget
          subst hid
          refine ⟨fun hrow => absurd hv hrow, fun _ => ?_⟩
          rw [← form_bare_row hrec hv]
          exact (unifies_pair.1 hu).symm
      · cases hget
    · rw [get?_single_of_free h] at hget
      split at hget
      · cases hget; exact (respectsAll_pair.1 hr).2
      · cases hget

/-- A row does not stand for a record that it occurs in, below its fields. -/
theorem refutes_row_occurs {gs : List (String × Ty)} {rest : Option TyVar} (hv : κ.isRow v.id)
    (ht : (Ty.record gs rest).Core κ) (hrest : ∀ w, rest = some w → w.id ≠ v.id)
    (h : (Ty.record gs rest).Mentions v.id) :
    Refutes [(.record [] (some v), .record gs rest)] False := by
  intro θ hr hu
  cases ht with
  | record hrec hasc hrow hgs =>
      rcases Ty.mentions_record.1 h with ⟨g, hg, hid⟩ | ⟨w, hw, hid⟩
      · have hresp : θ.Respects g.2 := by
          cases (respectsAll_pair.1 hr).2 with
          | record _ hfields => exact hfields g hg
        have hlow := Valuation.heightFields_lt_under (hgs g hg) hresp hv hid
        have hhigh := Valuation.height_lt_record (θ := θ) rest hasc hg
        have hform := (form_bare_row hrec hv).symm.trans (unifies_pair.1 hu)
        have heq := Ty.height_eq_of_form (θ.tame_row v.id)
          (θ.tame_under (.record hrec hasc hrow hgs)) hform
        rw [RecordTy.toTy, Ty.height] at heq
        omega
      · exact hrest w hw hid

theorem answers_bindRow (ctx : Context) {gs : List (String × Ty)} {rest : Option TyVar}
    (hv : κ.isRow v.id) (ht : (Ty.record gs rest).Core κ)
    (hrest : ∀ w, rest = some w → w.id ≠ v.id) :
    Answers κ excuse p.supply.count p [(.record [] (some v), .record gs rest)]
      (Relate.bindVar ctx v (.record gs rest)) := by
  rw [Relate.bindVar]
  · split
    · next hocc =>
        exact answers_refuted (refutes_row_occurs hv ht hrest (Ty.occurs_iff_mentions.1 hocc))
    · next hocc =>
        exact answers_solved (solves_row _ hv ht fun h => hocc (Ty.occurs_iff_mentions.2 h))
  · intro w hw
    cases hw

end Binding

end RowTypes
