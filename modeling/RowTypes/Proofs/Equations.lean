import RowTypes.Proofs.Runs
import RowTypes.Proofs.Valuations
import RowTypes.Solver.Join

/-!
# Equations and what solves them

Everything the solver does on core types answers a list of equations.  A substitution solves them
if it is absorbed by no valuation that does not unify them, and by every one that does, up to the
rows that were made on the way: such a valuation can be given values for those, and agrees with
what it was on the older numbers.  Valuations are only asked to be taken in if they respect the
types of the equations, and then they respect what was found too, so that the next equations can
be posed under it.

Equations are solved one after the other, each said anew under what the ones before it gave, and
`Restates.append` is the one place where it is shown that this comes to solving them all.  A failure
is a refutation of the equations, unless the limit was exceeded.

Without records there is a bound on how high types can get, which joins need: a binding takes an
unknown away and at most doubles heights.
-/

namespace RowTypes

theorem doubled_eq (n h : Nat) : doubled n h = 2 ^ n * h := by
  induction n generalizing h with
  | zero => rw [doubled, Nat.pow_zero, Nat.one_mul]
  | succ n ih => rw [doubled, ih, Nat.pow_succ, Nat.mul_assoc]

theorem le_doubled (n h : Nat) : h ≤ doubled n h := by
  rw [doubled_eq]
  exact Nat.le_mul_of_pos_left h (Nat.two_pow_pos n)

theorem doubled_add (m n h : Nat) : doubled (m + n) h = doubled n (doubled m h) := by
  rw [doubled_eq, doubled_eq, doubled_eq, Nat.pow_add, Nat.mul_comm (2 ^ m), Nat.mul_assoc]

/-- Equations between types. -/
abbrev Equations := List (Ty × Ty)

namespace Equations

/-- The types that equations are about. -/
def sides (E : Equations) : List Ty := E.flatMap fun e => [e.1, e.2]

/-- The equations under a substitution. -/
def apply (s : Subst) (E : Equations) : Equations := E.map fun e => (s.apply e.1, s.apply e.2)

/-- An unknown occurs in the equations. -/
def Mentioned (E : Equations) (id : Int) : Prop := ∃ t ∈ sides E, t.Mentions id

theorem mem_sides {E : Equations} {t : Ty} : t ∈ sides E ↔ ∃ e ∈ E, t = e.1 ∨ t = e.2 := by
  simp [sides]

theorem sides_append (E F : Equations) : sides (E ++ F) = sides E ++ sides F :=
  List.flatMap_append

theorem sides_apply (s : Subst) (E : Equations) : sides (apply s E) = (sides E).map s.apply := by
  induction E with
  | nil => rfl
  | cons e E ih =>
      show s.apply e.1 :: s.apply e.2 :: sides (apply s E) = _
      rw [ih]
      rfl

theorem mentioned_append {E F : Equations} {id : Int} :
    Mentioned (E ++ F) id ↔ Mentioned E id ∨ Mentioned F id := by
  unfold Mentioned
  rw [sides_append]
  simp only [List.mem_append, or_and_right, exists_or]

/-- Equations that can be posed when so many unknowns have been given out: they are between core
types of older unknowns, and newer ones are rows. -/
structure Posed (κ : Sorts) (n : Nat) (E : Equations) : Prop where
  core : ∀ t ∈ sides E, t.Core κ
  older : ∀ t ∈ sides E, ∀ id, t.Mentions id → id ≤ n
  fresh : κ.records → ∀ id : Int, n < id → κ.isRow id

section Posed

variable {κ : Sorts} {n : Nat} {E F : Equations}

theorem Posed.sub (h : Posed κ n E) (hsub : ∀ t ∈ sides F, t ∈ sides E) : Posed κ n F :=
  ⟨fun t ht => h.core t (hsub t ht), fun t ht => h.older t (hsub t ht), h.fresh⟩

theorem Posed.left (h : Posed κ n (E ++ F)) : Posed κ n E :=
  h.sub fun t ht => by rw [sides_append]; exact List.mem_append_left _ ht

theorem Posed.right (h : Posed κ n (E ++ F)) : Posed κ n F :=
  h.sub fun t ht => by rw [sides_append]; exact List.mem_append_right _ ht

end Posed

end Equations

open Equations

namespace Valuation

/-- The valuation makes both sides of each equation one. -/
def Unifies (θ : Valuation) (E : Equations) : Prop := ∀ e ∈ E, θ.form e.1 = θ.form e.2

/-- The valuation respects all types of the equations. -/
def RespectsAll (θ : Valuation) (E : Equations) : Prop := ∀ t ∈ sides E, θ.Respects t

section

variable {κ : Sorts} {θ θ' : Valuation} {E F : Equations} {s : Subst} {n : Nat}

theorem unifies_append : θ.Unifies (E ++ F) ↔ θ.Unifies E ∧ θ.Unifies F := List.forall_mem_append

theorem respectsAll_append : θ.RespectsAll (E ++ F) ↔ θ.RespectsAll E ∧ θ.RespectsAll F := by
  unfold RespectsAll
  rw [sides_append, List.forall_mem_append]

theorem AgreesUpTo.unifies (h : θ.AgreesUpTo n θ') (hE : Posed κ n E) (hu : θ.Unifies E) :
    θ'.Unifies E := by
  intro e he
  have h₁ : e.1 ∈ sides E := mem_sides.2 ⟨e, he, .inl rfl⟩
  have h₂ : e.2 ∈ sides E := mem_sides.2 ⟨e, he, .inr rfl⟩
  rw [h.form_eq (hE.core _ h₁) (hE.older _ h₁), h.form_eq (hE.core _ h₂) (hE.older _ h₂)]
  exact hu e he

theorem AgreesUpTo.respectsAll (h : θ.AgreesUpTo n θ') (hE : Posed κ n E)
    (hr : θ.RespectsAll E) : θ'.RespectsAll E :=
  fun t ht => h.respects (hE.core t ht) (hE.older t ht) (hr t ht)

theorem Absorbs.unifies_apply (h : θ.Absorbs κ s) (hs : s.Core κ) (hE : Posed κ n E) :
    θ.Unifies (apply s E) ↔ θ.Unifies E := by
  unfold Unifies apply
  rw [List.forall_mem_map]
  refine forall_congr' fun e => forall_congr' fun he => ?_
  rw [h.form_apply hs (hE.core _ (mem_sides.2 ⟨e, he, .inl rfl⟩)),
    h.form_apply hs (hE.core _ (mem_sides.2 ⟨e, he, .inr rfl⟩))]

theorem RespectsAll.apply (h : θ.Absorbs κ s) (hs : s.Core κ) (hrange : θ.RespectsRange s)
    (hE : Posed κ n E) (hr : θ.RespectsAll E) : θ.RespectsAll (apply s E) := by
  intro t ht
  rw [sides_apply] at ht
  obtain ⟨u, hu, rfl⟩ := List.mem_map.1 ht
  exact Respects.apply h hs hrange (hE.core u hu) (hr u hu)

end

end Valuation

namespace Subst

/-- Whether the unknown of a number is bound. -/
def binds (s : Subst) (id : Int) : Bool := (s.get? id).isSome

theorem binds_iff {s : Subst} {id : Int} : s.binds id = true ↔ ∃ t, s.get? id = some t :=
  Option.isSome_iff_exists

theorem countP_binds_after {κ : Sorts} {s next : Subst} (hs : s.Solved κ) (hn : next.Solved κ)
    (hapart : next.Apart s) (ids : List Int) :
    ids.countP (next.after s).binds = ids.countP s.binds + ids.countP next.binds := by
  have hbinds : ∀ id, (next.after s).binds id = (s.binds id || next.binds id) := by
    intro id
    unfold binds
    rw [get?_after_apart hs hn hapart]
    cases s.get? id <;> simp
  have hdisjoint : ∀ id, next.binds id = true → s.binds id = false := by
    intro id hid
    obtain ⟨t, ht⟩ := binds_iff.1 hid
    rw [binds, hapart id (.inl ⟨t, ht⟩)]
    rfl
  induction ids with
  | nil => rfl
  | cons id ids ih =>
      rw [List.countP_cons, List.countP_cons, List.countP_cons, ih, hbinds]
      cases hb : next.binds id with
      | true => rw [hdisjoint id hb]; simp; omega
      | false => cases s.binds id <;> simp; omega

end Subst

/-- A substitution solves equations: it is absorbed by the valuations that unify them, up to the
rows that were made, whose numbers are those between the two counts. -/
structure Solves (κ : Sorts) (n m : Nat) (E : Equations) (s : Subst) : Prop where
  solved : s.Solved κ
  inside : ∀ id, s.Mentions id → Mentioned E id ∨ (κ.records ∧ n < id ∧ id ≤ m)
  sound : ∀ θ : Valuation, θ.Absorbs κ s → θ.Unifies E
  general : ∀ θ : Valuation, θ.RespectsAll E → θ.Unifies E →
    ∃ θ' : Valuation, θ.AgreesUpTo n θ' ∧ θ'.Absorbs κ s ∧ θ'.RespectsRange s
  growth : ¬ κ.records → ∀ (ids : List Int) (h : Nat), (∀ id, Mentioned E id → id ∈ ids) →
    (∀ t ∈ sides E, t.height ≤ h) → ∀ u : Ty, u.Core κ → u.height ≤ h →
      (s.apply u).height ≤ doubled (ids.countP s.binds) h

/-- No valuation unifies the equations, unless something is known about the failure. -/
def Refutes (E : Equations) (excused : Prop) : Prop :=
  ∀ θ : Valuation, θ.RespectsAll E → θ.Unifies E → excused

section Sequence

variable {κ : Sorts} {n m m' : Nat} {E F G : Equations} {s next : Subst}

theorem solves_nil (κ : Sorts) (n : Nat) : Solves κ n n [] .empty where
  solved := Subst.solved_empty κ
  inside := fun id h => absurd h Subst.not_mentions_empty
  sound := fun θ _ e he => by cases he
  general := fun θ _ _ =>
    ⟨θ, .refl, Valuation.absorbs_empty, Valuation.respectsRange_empty⟩
  growth := fun _ ids h _ _ u _ hu => by
    rw [Subst.apply_of_isEmpty rfl]
    exact Nat.le_trans hu (le_doubled _ h)

theorem Solves.older (h : Solves κ n m E s) (hE : Posed κ n E) (hnm : n ≤ m) {id : Int}
    (hid : s.Mentions id) : id ≤ m := by
  rcases h.inside id hid with ⟨t, ht, hid⟩ | ⟨-, -, hid⟩
  · have := hE.older t ht id hid
    omega
  · exact hid

/-- The rest of the equations, said anew under what solves the first of them. -/
structure Restates (κ : Sorts) (n m : Nat) (E F : Equations) (s : Subst) (G : Equations) :
    Prop where
  core : ∀ t ∈ sides G, t.Core κ
  free : ∀ id, Mentioned G id → s.get? id = none
  inside : ∀ id, Mentioned G id → Mentioned (E ++ F) id ∨ (κ.records ∧ n < id ∧ id ≤ m)
  unifies : ∀ θ : Valuation, θ.Absorbs κ s → (θ.Unifies G ↔ θ.Unifies F)
  respects : ∀ θ : Valuation, θ.Absorbs κ s → θ.RespectsRange s → θ.RespectsAll F →
    θ.RespectsAll G
  height : ¬ κ.records → ∀ (ids : List Int) (h : Nat), (∀ id, Mentioned (E ++ F) id → id ∈ ids) →
    (∀ t ∈ sides (E ++ F), t.height ≤ h) →
      ∀ t ∈ sides G, t.height ≤ doubled (ids.countP s.binds) h

/-- Applying what solves the first equations says the rest anew. -/
theorem Solves.restates (h : Solves κ n m E s) (hE : Posed κ n (E ++ F)) :
    Restates κ n m E F s (apply s F) := by
  have hs := h.solved
  have hmem : ∀ {t : Ty}, t ∈ sides (apply s F) → ∃ u ∈ sides F, t = s.apply u := by
    intro t ht
    rw [sides_apply] at ht
    obtain ⟨u, hu, rfl⟩ := List.mem_map.1 ht
    exact ⟨u, hu, rfl⟩
  refine ⟨fun t ht => ?_, fun id hid => ?_, fun id hid => ?_,
    fun θ habs => habs.unifies_apply hs.core hE.right,
    fun θ habs hrange => Valuation.RespectsAll.apply habs hs.core hrange hE.right,
    fun hκ ids hgt hids hsides t ht => ?_⟩
  · obtain ⟨u, hu, rfl⟩ := hmem ht
    exact hs.core.apply (hE.right.core u hu)
  · obtain ⟨t, ht, hid⟩ := hid
    obtain ⟨u, hu, rfl⟩ := hmem ht
    exact hs.free_of_mentions (hE.right.core u hu) hid
  · obtain ⟨t, ht, hid⟩ := hid
    obtain ⟨u, hu, rfl⟩ := hmem ht
    rw [mentioned_append]
    rcases Subst.mentions_or_of_apply hs.core (hE.right.core u hu) hid with hid | hid
    · exact .inl (.inr ⟨u, hu, hid⟩)
    · exact (h.inside id hid).imp_left .inl
  · obtain ⟨u, hu, rfl⟩ := hmem ht
    rw [sides_append] at hsides
    exact h.growth hκ ids hgt (fun id hid => hids id (mentioned_append.2 (.inl hid)))
      (fun t ht => hsides t (List.mem_append_left _ ht)) u (hE.right.core u hu)
      (hsides u (List.mem_append_right _ hu))

theorem Restates.posed (hG : Restates κ n m E F s G) (hE : Posed κ n (E ++ F)) (hnm : n ≤ m) :
    Posed κ m G := by
  refine ⟨hG.core, fun t ht id hid => ?_, fun hrec id hid => hE.fresh hrec id (by omega)⟩
  rcases hG.inside id ⟨t, ht, hid⟩ with ⟨u, hu, hid⟩ | ⟨-, -, hle⟩
  · have := hE.older u hu id hid
    omega
  · exact hle

theorem Restates.apart (hG : Restates κ n m E F s G) (h : Solves κ n m E s)
    (hE : Posed κ n (E ++ F)) (hnm : n ≤ m) (h' : Solves κ m m' G next) : next.Apart s := by
  intro id hid
  rcases h'.inside id hid with hid | ⟨-, hlt, -⟩
  · exact hG.free id hid
  · cases hg : s.get? id with
    | none => rfl
    | some t =>
        have := h.older hE.left hnm (.inl ⟨t, hg⟩)
        omega

/-- A valuation that unifies everything can be made one that the first solution is absorbed by and
that unifies what is left. -/
theorem Restates.extend (hG : Restates κ n m E F s G) (h : Solves κ n m E s)
    (hE : Posed κ n (E ++ F)) {θ : Valuation} (hr : θ.RespectsAll (E ++ F))
    (hu : θ.Unifies (E ++ F)) :
    ∃ θ' : Valuation, θ.AgreesUpTo n θ' ∧ θ'.Absorbs κ s ∧ θ'.RespectsRange s ∧
      θ'.RespectsAll G ∧ θ'.Unifies G := by
  obtain ⟨hrE, hrF⟩ := Valuation.respectsAll_append.1 hr
  obtain ⟨huE, huF⟩ := Valuation.unifies_append.1 hu
  obtain ⟨θ', hagree, habs, hrange⟩ := h.general θ hrE huE
  exact ⟨θ', hagree, habs, hrange,
    hG.respects θ' habs hrange (hagree.respectsAll hE.right hrF),
    (hG.unifies θ' habs).2 (hagree.unifies hE.right huF)⟩

/-- Solving the rest under what solves the first equations solves all of them. -/
theorem Restates.append (hG : Restates κ n m E F s G) (h : Solves κ n m E s)
    (hE : Posed κ n (E ++ F)) (hnm : n ≤ m) (hmm : m ≤ m') (h' : Solves κ m m' G next) :
    Solves κ n m' (E ++ F) (next.after s) := by
  have hapart := hG.apart h hE hnm h'
  have hs := h.solved
  have hn := h'.solved
  have hover : ∀ id, s.Mentions id → Mentioned (E ++ F) id ∨ (κ.records ∧ n < id ∧ id ≤ m) :=
    fun id hid => (h.inside id hid).imp_left fun hid => mentioned_append.2 (.inl hid)
  refine ⟨hs.after hn hapart, fun id hid => ?_, fun θ habs => ?_, fun θ hr hu => ?_,
    fun hκ ids hgt hids hsides u hu hheight => ?_⟩
  · rcases Subst.mentions_after hs hn hapart hid with hid | hid
    · exact (hover id hid).imp_right fun ⟨hrec, hlt, hle⟩ => ⟨hrec, hlt, by omega⟩
    · rcases h'.inside id hid with hid | ⟨hrec, hlt, hle⟩
      · exact (hG.inside id hid).imp_right fun ⟨hrec, hlt, hle⟩ => ⟨hrec, hlt, by omega⟩
      · exact .inr ⟨hrec, by omega, hle⟩
  · obtain ⟨habs₁, habs₂⟩ := Valuation.Absorbs.of_after hs hn hapart habs
    exact Valuation.unifies_append.2
      ⟨h.sound θ habs₁, (hG.unifies θ habs₁).1 (h'.sound θ habs₂)⟩
  · obtain ⟨θ₁, hagree₁, habs₁, hrange₁, hr₁, hu₁⟩ := hG.extend h hE hr hu
    obtain ⟨θ₂, hagree₂, habs₂, hrange₂⟩ := h'.general θ₁ hr₁ hu₁
    have hle : ∀ id, s.Mentions id → id ≤ m := fun id => h.older hE.left hnm
    have habs₁' := hagree₂.absorbs hs.core hle habs₁
    have hrange₁' := hagree₂.respectsRange hs.core hle hrange₁
    exact ⟨θ₂, hagree₁.trans hagree₂ hnm, Valuation.Absorbs.after hs hn hapart habs₁' habs₂,
      Valuation.RespectsRange.after hs hn hapart habs₂ hrange₁' hrange₂⟩
  · -- The rest is posed at heights that the first solution has made, with the unknowns it left.
    have hfirst := h.growth hκ ids hgt (fun id hid => hids id (mentioned_append.2 (.inl hid)))
      (fun t ht => hsides t (by rw [sides_append]; exact List.mem_append_left _ ht)) u hu hheight
    have hsecond := h'.growth hκ ids (doubled (ids.countP s.binds) hgt)
      (fun id hid => (hG.inside id hid).elim (hids id) fun hrec => absurd hrec.1 hκ)
      (hG.height hκ ids hgt hids hsides) (s.apply u) (hs.core.apply hu) hfirst
    rw [Subst.apply_after hs hn hapart hu, Subst.countP_binds_after hs hn hapart, doubled_add]
    exact hsecond

/-- Refuting the rest under what solves the first equations refutes all of them. -/
theorem Restates.refutes (hG : Restates κ n m E F s G) (h : Solves κ n m E s)
    (hE : Posed κ n (E ++ F)) {excused : Prop} (href : Refutes G excused) :
    Refutes (E ++ F) excused := by
  intro θ hr hu
  obtain ⟨θ', -, -, -, hr', hu'⟩ := hG.extend h hE hr hu
  exact href θ' hr' hu'

theorem Solves.posed (h : Solves κ n m E s) (hE : Posed κ n (E ++ F)) (hnm : n ≤ m) :
    Posed κ m (apply s F) := (h.restates hE).posed hE hnm

theorem Solves.append (h : Solves κ n m E s) (hE : Posed κ n (E ++ F)) (hnm : n ≤ m)
    (hmm : m ≤ m') (h' : Solves κ m m' (apply s F) next) :
    Solves κ n m' (E ++ F) (next.after s) := (h.restates hE).append h hE hnm hmm h'

theorem Solves.apart (h : Solves κ n m E s) (hE : Posed κ n (E ++ F)) (hnm : n ≤ m)
    (h' : Solves κ m m' (apply s F) next) : next.Apart s := (h.restates hE).apart h hE hnm h'

theorem Solves.refutes (h : Solves κ n m E s) (hE : Posed κ n (E ++ F)) {excused : Prop}
    (hF : Refutes (apply s F) excused) : Refutes (E ++ F) excused :=
  (h.restates hE).refutes h hE hF

/-- Substitutions with the same bindings solve the same equations. -/
theorem Solves.congr {s' : Subst} (h : Solves κ n m E s) (hord : s'.Ordered)
    (hget : ∀ id, s.get? id = s'.get? id) : Solves κ n m E s' := by
  have hmentions : ∀ {id : Int}, s'.Mentions id → s.Mentions id := by
    rintro id (⟨t, ht⟩ | ⟨j, t, ht, hid⟩)
    · exact .inl ⟨t, by rw [hget]; exact ht⟩
    · exact .inr ⟨j, t, by rw [hget]; exact ht, hid⟩
  have habsorbs : ∀ {θ : Valuation}, θ.Absorbs κ s ↔ θ.Absorbs κ s' := by
    intro θ
    unfold Valuation.Absorbs
    simp only [hget]
  refine ⟨⟨hord, fun id t ht => ?_, fun {id t} ht j hj => ?_⟩, fun id hid => ?_, fun θ habs => ?_,
    fun θ hr hu => ?_, fun hκ ids hgt hids hsides u hu hheight => ?_⟩
  · exact h.solved.core id t (by rw [hget]; exact ht)
  · rw [← hget]
    exact h.solved.fixed (by rw [hget]; exact ht) j hj
  · exact h.inside id (hmentions hid)
  · exact h.sound θ (habsorbs.2 habs)
  · obtain ⟨θ', hagree, habs, hrange⟩ := h.general θ hr hu
    exact ⟨θ', hagree, habsorbs.1 habs, fun id t ht => hrange id t (by rw [hget]; exact ht)⟩
  · have hbinds : s.binds = s'.binds := funext fun id => by rw [Subst.binds, hget, Subst.binds]
    rw [← Subst.apply_congr hget hu, ← hbinds]
    exact h.growth hκ ids hgt hids hsides u hu hheight

end Sequence

end RowTypes
