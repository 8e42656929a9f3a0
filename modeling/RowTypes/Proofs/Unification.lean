import RowTypes.Proofs.RecordUnification
import RowTypes.Solver.Unify

/-!
# Unification answers equations

On core types unification has no choices: unknowns are bound, and two types of one constructor are
taken apart.  So each step answers the equation it is given, if the relation for the types further
down does, and by induction on the limit unification answers every equation.  A failure that is
not a refutation is the one at the end of the limit, and that is an internal one.
-/

namespace RowTypes

open Equations

namespace Relate

variable {κ : Sorts} {excuse : Diagnostic → Prop} {p : Progress} {ctx : Context}

/-- Two types that are equivalent are one under every valuation. -/
theorem answers_equiv {a b : Ty} (hE : Posed κ p.supply.count [(a, b)]) (h : a.equiv b = true) :
    Answers κ excuse p.supply.count p [(a, b)] (pure .empty) := by
  refine answers_solved (solves_empty _ fun θ => unifies_pair.2 ?_)
  exact Valuation.form_eq_of_equiv (hE.core _ (by simp [sides])) (hE.core _ (by simp [sides])) h

/-- Equations between the parts of types, for those between the types. -/
theorem amounts_parts (n : Nat) {a b : Ty} {F : Equations}
    (hpart : ∀ t ∈ sides F, (∀ id, t.Mentions id → a.Mentions id ∨ b.Mentions id) ∧
      (∀ θ : Valuation, θ.Respects a → θ.Respects b → θ.Respects t) ∧
      t.height ≤ max a.height b.height)
    (hiff : ∀ θ : Valuation, θ.Unifies F ↔ θ.form a = θ.form b) : Amounts κ n n [(a, b)] F where
  mentioned := fun id ⟨t, ht, hid⟩ => .inl (mentioned_pair.2 ((hpart t ht).1 id hid))
  back := fun θ hu => unifies_pair.2 ((hiff θ).1 hu)
  forth := fun θ hr hu => by
    obtain ⟨hra, hrb⟩ := respectsAll_pair.1 hr
    exact ⟨θ, .refl, fun t ht => (hpart t ht).2.1 θ hra hrb, (hiff θ).2 (unifies_pair.1 hu)⟩
  height := fun _ h hsides t ht => by
    have := (hpart t ht).2.2
    have := hsides a (by simp [sides])
    have := hsides b (by simp [sides])
    omega

/-- That two functions are one amounts to equations between their parameters and results, in either
order and either way round. -/
theorem amounts_fn_of (n : Nat) {a r a' r' : Ty} {F : Equations} (hf : (Ty.fn a r).Core κ)
    (hf' : (Ty.fn a' r').Core κ) (hsides : ∀ t ∈ sides F, t = a ∨ t = a' ∨ t = r ∨ t = r')
    (hiff : ∀ θ : Valuation, θ.Unifies F ↔ θ.form a = θ.form a' ∧ θ.form r = θ.form r') :
    Amounts κ n n [(.fn a r, .fn a' r')] F := by
  cases hf with
  | fn ha hr =>
      cases hf' with
      | fn ha' hr' =>
          refine amounts_parts n (fun t ht => ?_) fun θ => ?_
          · have hmem := hsides t ht
            refine ⟨fun id hid => ?_, fun θ h h' => ?_, ?_⟩
            · rw [Ty.mentions_fn, Ty.mentions_fn]
              rcases hmem with rfl | rfl | rfl | rfl <;> simp [hid]
            · cases h with
              | fn h₁ h₂ =>
                  cases h' with
                  | fn h₃ h₄ => rcases hmem with rfl | rfl | rfl | rfl <;> assumption
            · rw [Ty.height, Ty.height]
              rcases hmem with rfl | rfl | rfl | rfl <;> omega
          · rw [hiff, Valuation.form_fn ha hr ha' hr']

theorem amounts_fn (n : Nat) {a r a' r' : Ty} (hf : (Ty.fn a r).Core κ)
    (hf' : (Ty.fn a' r').Core κ) :
    Amounts κ n n [(.fn a r, .fn a' r')] [(a, a'), (r, r')] :=
  amounts_fn_of n hf hf' (fun t ht => by simpa [sides] using ht)
    fun θ => by simp [Valuation.Unifies]

theorem unifies_zip {θ : Valuation} : ∀ {as bs : List Ty}, as.length = bs.length →
    (θ.Unifies (as.zip bs) ↔ as.map θ.form = bs.map θ.form)
  | [], [], _ => by simp [Valuation.Unifies]
  | a :: as, b :: bs, h => by
      have hlen : as.length = bs.length := by simpa using h
      have ih := unifies_zip (θ := θ) hlen
      unfold Valuation.Unifies at ih ⊢
      rw [List.zip_cons_cons, List.forall_mem_cons, ih, List.map_cons, List.map_cons,
        List.cons.injEq]

theorem mem_sides_zip {as bs : List Ty} {t : Ty} (h : t ∈ sides (as.zip bs)) :
    t ∈ as ∨ t ∈ bs := by
  obtain ⟨e, he, rfl | rfl⟩ := mem_sides.1 h
  · exact .inl (List.of_mem_zip he).1
  · exact .inr (List.of_mem_zip he).2

/-- That two tuples are one amounts to equations between their elements. -/
theorem amounts_tuple (n : Nat) {as bs : List Ty} (hlen : as.length = bs.length)
    (hf : (Ty.tuple as).Core κ) (hf' : (Ty.tuple bs).Core κ) :
    Amounts κ n n [(.tuple as, .tuple bs)] (as.zip bs) := by
  cases hf with
  | tuple has =>
      cases hf' with
      | tuple hbs =>
          refine amounts_parts n (fun t ht => ?_) fun θ => ?_
          · have hmem := mem_sides_zip ht
            refine ⟨fun id hid => ?_, fun θ h h' => ?_, ?_⟩
            · rw [Ty.mentions_tuple, Ty.mentions_tuple]
              exact hmem.imp (fun h => ⟨t, h, hid⟩) fun h => ⟨t, h, hid⟩
            · cases h with
              | tuple h₁ =>
                  cases h' with
                  | tuple h₂ => exact hmem.elim (h₁ t) (h₂ t)
            · rcases hmem with h | h
              · exact Nat.le_trans (Nat.le_of_lt (Ty.height_lt_tuple h)) (Nat.le_max_left _ _)
              · exact Nat.le_trans (Nat.le_of_lt (Ty.height_lt_tuple h)) (Nat.le_max_right _ _)
          · rw [Valuation.form_tuple has hbs, unifies_zip hlen]

/-- Types whose heads differ are not one under any valuation. -/
theorem refutes_heads {a b : Ty} (ha : a.Core κ) (hb : b.Core κ)
    (h : ∀ θ : Valuation, (θ.under a).equiv (θ.under b) = false) : Refutes [(a, b)] False := by
  intro θ _ hu
  have heq := (Ty.form_eq_iff (θ.tame_under ha) (θ.tame_under hb)).1 (unifies_pair.1 hu)
  rw [h θ] at heq
  cases heq

theorem answers_shapes {rel : Relation} (hrel : Decides κ excuse rel) {a b : Ty}
    (hE : Posed κ p.supply.count [(a, b)]) (hva : ∀ v, a ≠ .var v) (hvb : ∀ v, b ≠ .var v)
    (hne : ¬ a.equiv b = true) :
    Answers κ excuse p.supply.count p [(a, b)] (unifyShapes ctx rel a b) := by
  have ha := hE.core a (by simp [sides])
  have hb := hE.core b (by simp [sides])
  -- No valuation changes the constructor at the head of a type that is not an unknown.
  have clash : ∀ {e : Diagnostic}, (∀ θ : Valuation, (θ.under a).equiv (θ.under b) = false) →
      Answers κ excuse p.supply.count p [(a, b)] (throw e) :=
    fun h => answers_refuted (refutes_heads ha hb h)
  cases ha with
  | @var v _ => exact absurd rfl (hva v)
  | prim name =>
      cases hb with
      | @var v _ => exact absurd rfl (hvb v)
      | prim name' => exact clash fun θ => Bool.not_eq_true _ ▸ hne
      | _ => exact clash fun θ => by simp [Valuation.under, Ty.equiv, Ty.equivUnder]
  | fn hp hr =>
      cases hb with
      | @var v _ => exact absurd rfl (hvb v)
      | fn hp' hr' =>
          have hparts := amounts_fn p.supply.count (.fn hp hr) (.fn hp' hr')
          refine Answers.of_amounts hparts (Nat.le_refl _) (Nat.le_refl _)
            (answers_pairs hrel (hE.of_amounts hparts fun t ht => ?_))
          simp only [sides, List.flatMap_cons, List.flatMap_nil, List.append_nil, List.cons_append,
            List.nil_append, List.mem_cons, List.not_mem_nil, or_false] at ht
          rcases ht with rfl | rfl | rfl | rfl <;> assumption
      | _ => exact clash fun θ => by simp [Valuation.under, Ty.equiv, Ty.equivUnder]
  | @tuple as has =>
      cases hb with
      | @var v _ => exact absurd rfl (hvb v)
      | @tuple bs hbs =>
          rw [unifyShapes]
          split
          · next hlen =>
              have hparts := amounts_tuple p.supply.count hlen (.tuple has) (.tuple hbs)
              refine Answers.of_amounts hparts (Nat.le_refl _) (Nat.le_refl _)
                (answers_pairs hrel (hE.of_amounts hparts fun t ht => ?_))
              exact (mem_sides_zip ht).elim (has t) (hbs t)
          · next hlen =>
              refine clash fun θ => Bool.eq_false_iff.2 fun heq => hlen ?_
              rw [Valuation.under, Valuation.under, Valuation.underAll_eq_map,
                Valuation.underAll_eq_map] at heq
              simpa using (Ty.equiv_tuple.1 heq).length_eq
      | _ => exact clash fun θ => by simp [Valuation.under, Ty.equiv, Ty.equivUnder]
  | record _ _ _ _ =>
      cases hb with
      | @var v _ => exact absurd rfl (hvb v)
      | record _ _ _ _ => exact answers_unifyRecords ctx hrel hE
      | _ => exact clash fun θ => by simp [Valuation.under, Ty.equiv, Ty.equivUnder]

/-- A step of unification answers equations, if the relation below it does. -/
theorem decides_unifyStep {rel : Relation} (hrel : Decides κ excuse rel) :
    Decides κ excuse (unifyStep ctx rel) := by
  intro p a b hE
  have ha := hE.core a (by simp [sides])
  have hb := hE.core b (by simp [sides])
  unfold unifyStep
  split
  · next heq => exact answers_equiv hE heq
  · next hne =>
      split
      · next v =>
          cases ha with
          | var hv => exact answers_bindVar ctx hv hb hne
      · next v hvar =>
          cases hb with
          | var hv =>
              refine Answers.of_amounts (amounts_swap _ _ _) (Nat.le_refl _) (Nat.le_refl _)
                (answers_bindVar ctx hv ha fun heq => hne ?_)
              exact Ty.equiv_symm (.var v) ha.tame heq
      · next hva hvb =>
          have hdirect : (isIndirect a || isIndirect b) = false := by
            cases ha <;> cases hb <;> rfl
          rw [if_neg (by rw [hdirect]; simp)]
          exact answers_shapes hrel hE hva hvb hne

/-- Unification answers equations; only a limit that is exceeded makes it fail without a reason,
and then with an internal error. -/
theorem decides_unify (ctx : Context) (κ : Sorts) :
    ∀ limit : Nat, Decides κ (fun e => e.isInternal = true) (unify ctx limit)
  | 0 => fun _ _ _ _ => ends_exceed ⟨⟨Nat.le_refl _, fun _ => rfl⟩, fun _ _ _ => ⟨rfl, rfl⟩⟩
  | limit + 1 => decides_unifyStep (decides_unify ctx κ limit)

end Relate

end RowTypes
