import RowTypes.Proofs.Fitting
import RowTypes.Proofs.Unification

/-!
# Unifying types with literals

What unification finds makes the two types fit.  Nothing is said here about how general it is, and
nothing about failures; with literals around there is no most general answer, since it depends on
the order whether an unknown becomes a literal or the strings.

As for core types, the parts of two types are related one after the other, and what an earlier part
gave is applied before a later one is looked at.  That two types fit lasts under everything that is
found later, so only the records need an argument of their own: the rows are bound so that each
record gets what only the other one had.
-/

namespace RowTypes

open Equations

/-- Types that can be related when so many unknowns have been given out: they have no alternatives,
their unknowns are older, and newer ones are rows. -/
structure Equations.Asked (κ : Sorts) (n : Nat) (E : Equations) : Prop where
  unmixed : ∀ t ∈ sides E, t.Unmixed κ
  older : ∀ t ∈ sides E, ∀ id, t.Mentions id → id ≤ n
  fresh : ∀ id : Int, n < id → κ.isRow id

/-- A substitution that was found for equations makes both sides of each fit. -/
structure Adjusts (κ : Sorts) (n m : Nat) (E : Equations) (s : Subst) : Prop extends
    Found κ (Mentioned E) n m s where
  fits : ∀ e ∈ E, (s.apply e.1).Fits (s.apply e.2)

section Sequence

variable {κ : Sorts} {n m m' : Nat} {E F : Equations} {s next : Subst}

theorem Equations.Asked.sub (h : Asked κ n E) (hsub : ∀ t ∈ sides F, t ∈ sides E) : Asked κ n F :=
  ⟨fun t ht => h.unmixed t (hsub t ht), fun t ht => h.older t (hsub t ht), h.fresh⟩

theorem Equations.Asked.of_sides (h : Asked κ n E)
    (hF : ∀ t ∈ sides F, t.Unmixed κ ∧ ∀ id, t.Mentions id → Mentioned E id) : Asked κ n F := by
  refine ⟨fun t ht => (hF t ht).1, fun t ht id hid => ?_, h.fresh⟩
  obtain ⟨u, hu, hid⟩ := (hF t ht).2 id hid
  exact h.older u hu id hid

theorem Equations.Asked.left (h : Asked κ n (E ++ F)) : Asked κ n E :=
  h.sub fun t ht => by rw [sides_append]; exact List.mem_append_left _ ht

theorem Equations.Asked.right (h : Asked κ n (E ++ F)) : Asked κ n F :=
  h.sub fun t ht => by rw [sides_append]; exact List.mem_append_right _ ht

theorem asked_pair {a b : Ty} (ha : a.Unmixed κ) (hb : b.Unmixed κ)
    (hla : ∀ id, a.Mentions id → id ≤ n) (hlb : ∀ id, b.Mentions id → id ≤ n)
    (hfresh : ∀ id : Int, n < id → κ.isRow id) : Asked κ n [(a, b)] := by
  refine ⟨fun t ht => ?_, fun t ht => ?_, hfresh⟩
  all_goals rcases (by simpa [sides] using ht : t = a ∨ t = b) with rfl | rfl <;> assumption

theorem Equations.Asked.old (h : Asked κ n E) {id : Int} (hid : Mentioned E id) : id ≤ n := by
  obtain ⟨t, ht, hid⟩ := hid
  exact h.older t ht id hid

theorem adjusts_nil (κ : Sorts) (n : Nat) : Adjusts κ n n [] .empty :=
  ⟨found_empty κ _ n n, fun e he => by cases he⟩

/-- An unknown that is still there under a substitution is not bound by it. -/
theorem Adjusts.left (h : Adjusts κ n m E s) (hE : Asked κ n (E ++ F)) {id : Int}
    (hid : Mentioned (apply s F) id) :
    s.get? id = none ∧ (Mentioned (E ++ F) id ∨ (n < id ∧ id ≤ m)) := by
  obtain ⟨t, ht, hid⟩ := hid
  rw [sides_apply] at ht
  obtain ⟨u, hu, rfl⟩ := List.mem_map.1 ht
  refine (h.toFound.mono fun id hid => mentioned_append.2 (.inl hid)).left (hE.right.unmixed u hu)
    (fun id hid => mentioned_append.2 (.inr ⟨u, hu, hid⟩)) hid

/-- The rest of the equations can be asked under what adjusts the first of them. -/
theorem Adjusts.asked (h : Adjusts κ n m E s) (hE : Asked κ n (E ++ F)) (hnm : n ≤ m) :
    Asked κ m (apply s F) := by
  refine ⟨fun t ht => ?_, fun t ht id hid => ?_, fun id hid => hE.fresh id (by omega)⟩
  · rw [sides_apply] at ht
    obtain ⟨u, hu, rfl⟩ := List.mem_map.1 ht
    exact h.settled.apply (hE.right.unmixed u hu)
  · rcases (h.left hE ⟨t, ht, hid⟩).2 with hid | ⟨-, hid⟩
    · have := hE.old hid
      omega
    · exact hid

theorem Adjusts.apart (h : Adjusts κ n m E s) (hE : Asked κ n (E ++ F)) (hnm : n ≤ m)
    (h' : Adjusts κ m m' (apply s F) next) : next.Apart s :=
  h.toFound.apart (fun _ => hE.left.old) hnm (fun _ hid => (h.left hE hid).1) h'.toFound

/-- Adjusting the rest under what adjusts the first equations adjusts all of them. -/
theorem Adjusts.append (h : Adjusts κ n m E s) (hE : Asked κ n (E ++ F)) (hnm : n ≤ m)
    (hmm : m ≤ m') (h' : Adjusts κ m m' (apply s F) next) :
    Adjusts κ n m' (E ++ F) (next.after s) := by
  have hfound : Found κ (Mentioned (E ++ F)) n m s :=
    h.toFound.mono fun id hid => mentioned_append.2 (.inl hid)
  refine ⟨hfound.append (fun _ => hE.old) hnm hmm (fun _ => h.left hE) h'.toFound,
    fun e he => ?_⟩
  have hapart := h.apart hE hnm h'
  have h₁ := hE.unmixed e.1 (mem_sides.2 ⟨e, he, .inl rfl⟩)
  have h₂ := hE.unmixed e.2 (mem_sides.2 ⟨e, he, .inr rfl⟩)
  rw [h.settled.apply_after h'.settled hapart h₁, h.settled.apply_after h'.settled hapart h₂]
  rcases List.mem_append.1 he with he | he
  · exact h'.settled.fits (h.settled.apply h₁) (h.settled.apply h₂) (h.fits e he)
  · exact h'.fits (s.apply e.1, s.apply e.2) (List.mem_map.2 ⟨e, he, rfl⟩)

/-- Equations in place of others, whose sides fit where theirs do. -/
theorem Adjusts.of_parts (h : Adjusts κ n m F s)
    (hmentioned : ∀ id, Mentioned F id → Mentioned E id)
    (hfits : (∀ e ∈ F, (s.apply e.1).Fits (s.apply e.2)) →
      ∀ e ∈ E, (s.apply e.1).Fits (s.apply e.2)) : Adjusts κ n m E s :=
  ⟨h.toFound.mono hmentioned, hfits h.fits⟩

end Sequence

/-! ## Runs -/

/-- A run that succeeds adjusts equations that were asked when so many unknowns had been given
out. -/
def Attains (κ : Sorts) (n : Nat) (p : Progress) (E : Equations) (m : Relate Subst) : Prop :=
  Ends m p (fun s q => Advances p q ∧ Adjusts κ n q.supply.count E s) fun _ q => Advances p q

/-- A relation makes types fit. -/
def Adapts (κ : Sorts) (rel : Relation) : Prop :=
  ∀ (p : Progress) (a b : Ty), Asked κ p.supply.count [(a, b)] →
    Attains κ p.supply.count p [(a, b)] (rel a b)

section Runs

variable {κ : Sorts} {n : Nat} {p : Progress} {E F : Equations} {s : Subst}

theorem attains_pure (h : Adjusts κ n p.supply.count E s) : Attains κ n p E (pure s) :=
  ends_pure ⟨.refl p, h⟩

theorem attains_throw (e : Diagnostic) : Attains κ n p E (throw e) := ends_throw (.refl p)

theorem Attains.of_parts {run : Relate Subst} (h : Attains κ n p F run)
    (hmentioned : ∀ id, Mentioned F id → Mentioned E id)
    (hfits : ∀ s : Subst, s.Settled κ → (∀ e ∈ F, (s.apply e.1).Fits (s.apply e.2)) →
      ∀ e ∈ E, (s.apply e.1).Fits (s.apply e.2)) : Attains κ n p E run :=
  h.imp (fun s _ ⟨hle, hs⟩ => ⟨hle, hs.of_parts hmentioned (hfits s hs.settled)⟩) fun _ _ h => h

theorem Attains.since {q : Progress} {run : Relate Subst} (hadv : Advances p q)
    (h : Attains κ n q E run) :
    Ends run q (fun s r => Advances p r ∧ Adjusts κ n r.supply.count E s) fun _ r => Advances p r :=
  h.imp (fun _ _ ⟨hadv', hs⟩ => ⟨hadv.trans hadv', hs⟩) fun _ _ hadv' => hadv.trans hadv'

/-- Attaining the rest under what adjusts the first equations attains all of them. -/
theorem Adjusts.attains {run : Relate Subst} (h : Adjusts κ n p.supply.count E s)
    (hE : Asked κ n (E ++ F)) (hn : n ≤ p.supply.count)
    (hF : Attains κ p.supply.count p (apply s F) run) :
    Attains κ n p (E ++ F) (run >>= fun next => pure (next.after s)) :=
  Ends.bind (hF.imp (fun _ _ ⟨hadv, hnext⟩ => ends_pure ⟨hadv, h.append hE hn hadv.count hnext⟩)
    fun _ _ hadv => hadv)

/-- Relating pairs one after the other attains them all. -/
theorem attains_thread {rel : Relation} (hrel : Adapts κ rel) :
    ∀ {pairs E : Equations} {s : Subst} {p : Progress}, Adjusts κ n p.supply.count E s →
      Asked κ n (E ++ pairs) → n ≤ p.supply.count →
      Attains κ n p (E ++ pairs) (Relate.thread rel pairs s)
  | [], E, s, p, hs, _, _ => by
      rw [List.append_nil]
      exact attains_pure hs
  | (a, b) :: pairs, E, s, p, hs, hE, hn => by
      have happend : E ++ (a, b) :: pairs = (E ++ [(a, b)]) ++ pairs := by simp
      rw [happend] at hE ⊢
      refine Ends.bind ((hrel p _ _ (hs.asked hE.left hn)).imp ?_ fun _ _ hadv => hadv)
      rintro next q ⟨hadv, hnext⟩
      have hs' := hs.append hE.left hn hadv.count hnext
      exact (attains_thread hrel hs' hE (Nat.le_trans hn hadv.count)).since hadv

theorem attains_pairs {rel : Relation} (hrel : Adapts κ rel) {pairs : Equations}
    (hE : Asked κ p.supply.count pairs) :
    Attains κ p.supply.count p pairs (Relate.thread rel pairs .empty) :=
  attains_thread (E := []) hrel (adjusts_nil κ _) hE (Nat.le_refl _)

end Runs

/-! ## Binding -/

namespace Subst

variable {κ : Sorts} {s : Subst} {v : TyVar} {t : Ty}

theorem settled_single (ht : t.Unmixed κ) (hrow : κ.isRow v.id → ∃ fs row, t = .record fs row)
    (h : ¬ t.Mentions v.id) : (single v t).Settled κ where
  ordered := ordered_single v t
  solved := by
    have hget : ∀ id, (single v t).stamp.get? id = if id = v.id then some t.stamp else none := by
      intro id
      rw [get?_stamp, get?_single_of_free h]
      split <;> rfl
    refine ⟨ordered_stamp (ordered_single v t), fun id u hu => ?_, fun {id u} hu j hj => ?_⟩
    · rw [hget] at hu
      split at hu
      · next hid =>
          cases hu
          refine ⟨ht.core_stamp, fun hid' => ?_⟩
          obtain ⟨fs, row, rfl⟩ := hrow (hid ▸ hid')
          exact ⟨_, _, Ty.stamp_record fs row⟩
      · cases hu
    · rw [hget] at hu ⊢
      split at hu
      · cases hu
        rw [if_neg]
        rintro rfl
        exact h (ht.mentions_stamp.1 hj)
      · cases hu

end Subst

namespace Relate

open RecordTy

section Binding

variable {κ : Sorts} {n : Nat} {p : Progress} {v : TyVar} {t : Ty} (ctx : Context)

theorem found_single (n m : Nat) (ht : t.Unmixed κ)
    (hrow : κ.isRow v.id → ∃ fs row, t = .record fs row) (h : ¬ t.Mentions v.id) :
    Found κ (fun id => id = v.id ∨ t.Mentions id) n m (.single v t) :=
  ⟨Subst.settled_single ht hrow h, fun _ hid => .inl (mentions_single h hid)⟩

theorem apply_single_self (ht : t.Unmixed κ) (h : ¬ t.Mentions v.id) :
    (Subst.single v t).apply t = t := by
  refine ht.stable.apply_eq_self fun id hid => ?_
  rw [get?_single_of_free h, if_neg]
  rintro rfl
  exact h hid

/-- Binding an unknown that does not occur in a type makes the two one. -/
theorem adjusts_single (n : Nat) (hv : ¬ κ.isRow v.id) (ht : t.Unmixed κ)
    (h : ¬ t.Mentions v.id) : Adjusts κ n n [(.var v, t)] (.single v t) := by
  have hrow : κ.isRow v.id → ∃ fs row, t = .record fs row := fun hrow => absurd hrow hv
  refine ⟨(found_single n n ht hrow h).mono fun id hid => mentioned_pair.2 ?_,
    List.forall_mem_singleton.2 ?_⟩
  · exact hid.imp_left fun hid => Ty.mentions_var.2 hid.symm
  · rw [apply_single_self ht h, Subst.apply_var, get?_single_of_free h, if_pos rfl]
    exact Ty.fits_refl ht

theorem attains_bindVar (hv : ¬ κ.isRow v.id) (ht : t.Unmixed κ)
    (hequiv : ¬ (Ty.var v).equiv t = true) :
    Attains κ p.supply.count p [(.var v, t)] (bindVar ctx v t) := by
  unfold bindVar
  split
  · next w =>
      have hid : ¬ w.id = v.id := fun h => hequiv (Ty.equiv_var.2 h.symm)
      rw [if_neg hid]
      exact attains_pure (adjusts_single _ hv ht fun h => hid (Ty.mentions_var.1 h))
  · split
    · exact attains_throw _
    · next hocc =>
        exact attains_pure (adjusts_single _ hv ht fun h => hocc (Ty.occurs_iff_mentions.2 h))

end Binding

/-! ## Records -/

section Records

variable {κ : Sorts} {n : Nat} {p : Progress} {a b : RecordTy} {s : Subst} (ctx : Context)

theorem unmixed_field (h : a.toTy.Unmixed κ) {name : String} {t : Ty}
    (ht : a.field? name = some t) : t.Unmixed κ := by
  cases h with
  | record _ _ _ hfs => exact hfs _ (Table.mem_of_get? ht)

theorem unmixed_own (h : a.toTy.Unmixed κ) : (Ty.record (own a b) a.row).Unmixed κ := by
  cases h with
  | record hrec hasc hrow hfs =>
      exact .record hrec (List.Pairwise.filter _ hasc) hrow
        fun f hf => hfs f (List.mem_filter.1 hf).1

/-- Records fit if the fields they share do, and what is left of them does. -/
theorem fits_of_equations (hs : s.Settled κ) (ha : a.toTy.Unmixed κ) (hb : b.toTy.Unmixed κ)
    (h : ∀ e ∈ equations a b, (s.apply e.1).Fits (s.apply e.2)) :
    (s.apply a.toTy).Fits (s.apply b.toTy) := by
  obtain ⟨hshared, hrest⟩ := List.forall_mem_append.1 h
  have hrest := List.forall_mem_singleton.1 hrest
  have hrow : ∀ {r : RecordTy}, r.toTy.Unmixed κ → ∀ v, r.row = some v → κ.isRow v.id := by
    intro r hr
    cases hr with
    | record _ _ hrow _ => exact hrow
  rw [hs.apply_record _ (hrow ha), hs.apply_record _ (hrow hb), Ty.fits_record] at hrest
  rw [RecordTy.toTy, RecordTy.toTy, hs.apply_record _ (hrow ha), hs.apply_record _ (hrow hb),
    Ty.fits_record]
  refine ⟨hrest.1, fun name => ?_⟩
  have hname := hrest.2 name
  simp only [Table.get?_underlay, Table.get?_map, get?_own] at hname ⊢
  rw [RecordTy.field?, RecordTy.field?] at hname
  cases hx : Table.get? name a.fields with
  | none =>
      rw [hx] at hname
      cases hy : Table.get? name b.fields <;> rw [hy] at hname <;> exact hname
  | some x =>
      cases hy : Table.get? name b.fields with
      | none => rw [hx, hy] at hname; exact hname
      | some y => exact .some (hshared (x, y) (mem_sharedFields.2 ⟨name, hx, hy⟩))

theorem Adjusts.swap {m : Nat} {x y : Ty} (h : Adjusts κ n m [(x, y)] s) :
    Adjusts κ n m [(y, x)] s := by
  refine h.of_parts (fun id hid => ?_) fun hfits => List.forall_mem_singleton.2 ?_
  · rw [mentioned_pair] at hid ⊢
    exact hid.symm
  · exact (List.forall_mem_singleton.1 hfits).symm

/-- Binding a row to a record that it does not occur in makes the two one. -/
theorem adjusts_row (n : Nat) {row : TyVar} {gs : List (String × Ty)} {rest : Option TyVar}
    (ht : (Ty.record gs rest).Unmixed κ) (h : ¬ (Ty.record gs rest).Mentions row.id) :
    Adjusts κ n n [(.record [] (some row), .record gs rest)]
      (.single row (.record gs rest)) := by
  have hrow : κ.isRow row.id → ∃ fs row', Ty.record gs rest = .record fs row' :=
    fun _ => ⟨gs, rest, rfl⟩
  refine ⟨(found_single n n ht hrow h).mono fun id hid => mentioned_pair.2 ?_,
    List.forall_mem_singleton.2 ?_⟩
  · exact hid.imp_left fun hid => Ty.mentions_record.2 (.inr ⟨row, rfl, hid.symm⟩)
  · have hget : (Subst.single row (.record gs rest)).get? row.id = some (.record gs rest) := by
      rw [get?_single_of_free h, if_pos rfl]
    rw [apply_single_self ht h, Subst.apply_open_bound hget]
    refine Ty.fits_record.2 ⟨rfl, fun name => ?_⟩
    rw [Table.get?_underlay]
    cases ht with
    | record _ _ _ hgs =>
        cases hx : Table.get? name gs with
        | none => exact .none
        | some x => exact .some (Ty.fits_refl (hgs _ (Table.mem_of_get? hx)))

/-- Two open records whose rows are about to be bound, one after the other, over a new row: all they
mention is free under what was found before. -/
structure Opening (κ : Sorts) (P : Int → Prop) (n m : Nat) (s : Subst) (rowA rowB w : TyVar)
    (fa fb : List (String × Ty)) : Prop where
  found : Found κ P n m s
  old : ∀ id, P id → id ≤ n
  le : n ≤ m
  unmixedA : (Ty.record fa (some w)).Unmixed κ
  unmixedB : (Ty.record fb (some w)).Unmixed κ
  distinct : rowA.id ≠ rowB.id
  newA : w.id ≠ rowA.id
  newB : w.id ≠ rowB.id
  left : ∀ id, id = w.id ∨ (Ty.record fa (some rowA)).Mentions id ∨
    (Ty.record fb (some rowB)).Mentions id → s.get? id = none ∧ (P id ∨ (n < id ∧ id ≤ m))

section Opening

variable {P : Int → Prop} {m : Nat} {rowA rowB w : TyVar} {fa fb : List (String × Ty)} {α β : Subst}
  (h : Opening κ P n m s rowA rowB w fa fb) (hα : α = .single rowA (.record fb (some w)))
  (hA : ¬ (Ty.record fb (some w)).Mentions rowA.id)

theorem mentions_over {fs : List (String × Ty)} {row w : TyVar} {id : Int}
    (hid : (Ty.record fs (some w)).Mentions id) :
    id = w.id ∨ (Ty.record fs (some row)).Mentions id := by
  rcases Ty.mentions_record.1 hid with hid | ⟨u, hu, hid⟩
  · exact .inr (Ty.mentions_record.2 (.inl hid))
  · cases hu
    exact .inl hid.symm

include h hα hA

omit h in
theorem Opening.get?_first (id : Int) :
    α.get? id = if id = rowA.id then some (.record fb (some w)) else none := by
  rw [hα, get?_single_of_free hA]

theorem Opening.found_first : Found κ (fun id => id = w.id ∨
    (Ty.record fa (some rowA)).Mentions id ∨ (Ty.record fb (some rowB)).Mentions id) m m α := by
  rw [hα]
  refine (found_single _ _ h.unmixedB (fun _ => ⟨_, _, rfl⟩) hA).mono ?_
  rintro id (rfl | hid)
  · exact .inr (.inl (Ty.mentions_record.2 (.inr ⟨rowA, rfl, rfl⟩)))
  · exact (mentions_over hid).imp_right .inr

theorem Opening.apart_first : α.Apart s :=
  h.found.apart h.old h.le (fun id hid => (h.left id hid).1) (h.found_first hα hA)

theorem Opening.found_after_first : Found κ P n m (α.after s) :=
  h.found.append h.old h.le (Nat.le_refl m) h.left (h.found_first hα hA)

theorem Opening.apply_first : α.apply (.record fa (some w)) =
    .record (fa.map fun f => (f.1, α.apply f.2)) (some w) :=
  Subst.apply_open_unbound (by rw [Opening.get?_first hα hA, if_neg h.newA])

variable (hβ : β = .single rowB (.record (fa.map fun f => (f.1, α.apply f.2)) (some w)))
  (hB : ¬ (Ty.record (fa.map fun f => (f.1, α.apply f.2)) (some w)).Mentions rowB.id)
include hβ hB

theorem Opening.found_second :
    Found κ (fun id => id = rowB.id ∨ (α.apply (.record fa (some w))).Mentions id) m m β := by
  have happly := h.apply_first hα hA
  rw [hβ, ← happly]
  rw [← happly] at hB
  exact found_single _ _ ((h.found_first hα hA).settled.apply h.unmixedA)
    (fun _ => ⟨_, _, happly⟩) hB

omit hβ hB in
/-- What the second binding mentions is not bound by the first. -/
theorem Opening.left_second (id : Int)
    (hid : id = rowB.id ∨ (α.apply (.record fa (some w))).Mentions id) :
    (α.after s).get? id = none ∧ (P id ∨ (n < id ∧ id ≤ m)) := by
  have hfirst := h.found_first hα hA
  have hin : id = w.id ∨ (Ty.record fa (some rowA)).Mentions id ∨
      (Ty.record fb (some rowB)).Mentions id := by
    rcases hid with rfl | hid
    · exact .inr (.inr (Ty.mentions_record.2 (.inr ⟨rowB, rfl, rfl⟩)))
    · rcases hfirst.settled.mentions_or_of_apply h.unmixedA hid with hid | hid
      · exact (mentions_over hid).imp_right .inl
      · exact (hfirst.inside id hid).elim (fun h => h) fun hid => by omega
  refine ⟨?_, (h.left id hin).2⟩
  rw [Subst.get?_after hfirst.settled.ordered h.found.settled.ordered, (h.left id hin).1]
  rcases hid with rfl | hid
  · exact (Opening.get?_first hα hA _).trans (if_neg h.distinct.symm)
  · exact hfirst.settled.free_of_mentions h.unmixedA hid

theorem Opening.found_both : Found κ P n m (β.after (α.after s)) :=
  (h.found_after_first hα hA).append h.old h.le (Nat.le_refl m) (h.left_second hα hA)
    (h.found_second hα hA hβ hB)

theorem Opening.apply_both {t : Ty} (ht : t.Unmixed κ) :
    (β.after (α.after s)).apply t = β.apply (α.apply (s.apply t)) := by
  have hfirst := h.found_first hα hA
  have hafter := h.found_after_first hα hA
  have hsecond := h.found_second hα hA hβ hB
  have hapart := hafter.apart h.old h.le (fun id hid => (h.left_second hα hA id hid).1) hsecond
  rw [hafter.settled.apply_after hsecond.settled hapart ht,
    h.found.settled.apply_after hfirst.settled (h.apart_first hα hA) ht]

/-- Without a common field, the records fit when their rows are bound to each other's fields. -/
theorem Opening.fits (hdisjoint : ∀ name, Table.get? name fa = none ∨ Table.get? name fb = none) :
    (β.apply (α.apply (.record fa (some rowA)))).Fits
      (β.apply (α.apply (.record fb (some rowB)))) := by
  have hα' := (h.found_first hα hA).settled
  have hβ' := (h.found_second hα hA hβ hB).settled
  have hgetα := Opening.get?_first hα hA
  have hgetβ : ∀ id, β.get? id = if id = rowB.id then
      some (.record (fa.map fun f => (f.1, α.apply f.2)) (some w)) else none :=
    fun id => by rw [hβ, get?_single_of_free hB]
  have hboundA : α.get? rowA.id = some (.record fb (some w)) := by rw [hgetα, if_pos rfl]
  have hfreeB : α.get? rowB.id = none := by rw [hgetα, if_neg h.distinct.symm]
  have hfreeW : β.get? w.id = none := by rw [hgetβ, if_neg h.newB]
  have hboundB : β.get? rowB.id =
      some (.record (fa.map fun f => (f.1, α.apply f.2)) (some w)) := by rw [hgetβ, if_pos rfl]
  rw [Subst.apply_open_bound hboundA, Subst.apply_open_unbound hfreeW,
    Subst.apply_open_unbound hfreeB, Subst.apply_open_bound hboundB]
  refine Ty.fits_record.2 ⟨rfl, fun name => ?_⟩
  rw [Table.get?_map, Table.get?_underlay, Table.get?_underlay, Table.get?_map, Table.get?_map,
    Table.get?_map]
  cases h.unmixedA with
  | record _ _ _ hfa =>
      cases h.unmixedB with
      | record _ _ _ hfb =>
          cases hx : Table.get? name fa with
          | some x =>
              rw [(hdisjoint name).resolve_left (by simp [hx])]
              have hmem := Table.mem_of_get? hx
              have hαx := hα'.apply (hfa _ hmem)
              -- The fields that the second row brings do not mention it, so they stay as they are.
              have hself : β.apply (α.apply x) = α.apply x := by
                refine hαx.stable.apply_eq_self fun id hid => ?_
                rw [hgetβ, if_neg]
                rintro rfl
                exact hB (Ty.mentions_record.2 (.inl ⟨_, List.mem_map.2 ⟨_, hmem, rfl⟩, hid⟩))
              show Option.Rel _ (some (β.apply (α.apply x))) (some (α.apply x))
              rw [hself]
              exact .some (Ty.fits_refl hαx)
          | none =>
              cases hy : Table.get? name fb with
              | none => exact .none
              | some y =>
                  have hmem := Table.mem_of_get? hy
                  have hself : α.apply y = y := by
                    refine (hfb _ hmem).stable.apply_eq_self fun id hid => ?_
                    rw [hgetα, if_neg]
                    rintro rfl
                    exact hA (Ty.mentions_record.2 (.inl ⟨_, hmem, hid⟩))
                  show Option.Rel _ (some (β.apply y)) (some (β.apply (α.apply y)))
                  rw [hself]
                  exact .some (Ty.fits_refl (hβ'.apply (hfb _ hmem)))

end Opening

/-- Two records whose shared fields have been made to fit without giving their rows fields. -/
structure Midway (κ : Sorts) (n m : Nat) (a b : RecordTy) (s : Subst) : Prop where
  unmixedA : a.toTy.Unmixed κ
  unmixedB : b.toTy.Unmixed κ
  asked : Asked κ n (equations a b)
  adjusts : Adjusts κ n m (a.sharedFields b) s
  le : n ≤ m
  freeA : RowFree s a
  freeB : RowFree s b

theorem attains_bindRow {row : TyVar} {gs : List (String × Ty)} {rest : Option TyVar}
    (ht : (Ty.record gs rest).Unmixed κ) :
    Attains κ p.supply.count p [(.record [] (some row), .record gs rest)]
      (bindVar ctx row (.record gs rest)) := by
  rw [bindVar_record]
  split
  · exact attains_throw _
  · next hocc =>
      exact attains_pure (adjusts_row _ ht fun h => hocc (Ty.occurs_iff_mentions.2 h))

section Midway

theorem Midway.unmixed_rest {m : Nat} (h : Midway κ n m a b s) :
    (Ty.record ((own a b).map fun f => (f.1, s.apply f.2)) a.row).Unmixed κ ∧
      (Ty.record ((own b a).map fun f => (f.1, s.apply f.2)) b.row).Unmixed κ := by
  rw [← apply_own h.freeA, ← apply_own h.freeB]
  exact ⟨h.adjusts.settled.apply (unmixed_own h.unmixedA),
    h.adjusts.settled.apply (unmixed_own h.unmixedB)⟩

variable (h : Midway κ n p.supply.count a b s)
include h

/-- The fields that both records have fit, and there are no others. -/
theorem Midway.attains_settled (hrow : a.row.map TyVar.id = b.row.map TyVar.id)
    (hA : (Text.Names.diff a.names b.names).isEmpty = true)
    (hB : (Text.Names.diff b.names a.names).isEmpty = true) :
    Attains κ n p (equations a b) (pure s) := by
  refine attains_pure (h.adjusts.of_parts (fun id hid => mentioned_append.2 (.inl hid)) fun hfits =>
    List.forall_mem_append.2 ⟨hfits, List.forall_mem_singleton.2 ?_⟩)
  refine h.adjusts.settled.fits (unmixed_own h.unmixedA) (unmixed_own h.unmixedB) ?_
  rw [own_eq_nil hA, own_eq_nil hB]
  exact Ty.fits_record.2 ⟨hrow, fun _ => .none⟩

/-- An open record, and a closed one that has all its fields. -/
theorem Midway.attains_closed_right {row : TyVar} (hra : a.row = some row) (hrb : b.row = none)
    (hA : (Text.Names.diff a.names b.names).isEmpty = true) :
    Attains κ n p (equations a b)
      (extendRow ctx s row (b.pick s (Text.Names.diff b.names a.names)) none) := by
  obtain ⟨-, hunmixedB⟩ := h.unmixed_rest
  have hasc : Table.Ascending b.fields := by
    cases h.unmixedB with
    | record _ hasc _ _ => exact hasc
  refine h.adjusts.attains h.asked h.le ?_
  rw [apply_rest h.freeA h.freeB, own_eq_nil hA, pick_diff hasc, hra, hrb]
  rw [hrb] at hunmixedB
  exact attains_bindRow ctx hunmixedB

/-- A closed record, and an open one that has none but its fields. -/
theorem Midway.attains_closed_left {row : TyVar} (hra : a.row = none) (hrb : b.row = some row)
    (hB : (Text.Names.diff b.names a.names).isEmpty = true) :
    Attains κ n p (equations a b)
      (extendRow ctx s row (a.pick s (Text.Names.diff a.names b.names)) none) := by
  obtain ⟨hunmixedA, -⟩ := h.unmixed_rest
  have hasc : Table.Ascending a.fields := by
    cases h.unmixedA with
    | record _ hasc _ _ => exact hasc
  refine h.adjusts.attains h.asked h.le ?_
  rw [apply_rest h.freeA h.freeB, own_eq_nil hB, pick_diff hasc, hra, hrb]
  rw [hra] at hunmixedA
  exact (attains_bindRow ctx hunmixedA).imp (fun _ _ ⟨hadv, hs⟩ => ⟨hadv, Adjusts.swap hs⟩)
    fun _ _ hadv => hadv

omit h in
/-- What is left of two open records, and a new row to put behind them. -/
theorem Midway.opening {m : Nat} {rowA rowB w : TyVar} (h : Midway κ n m a b s)
    (hra : a.row = some rowA) (hrb : b.row = some rowB) (hne : rowA.id ≠ rowB.id)
    (hw : w.id = m + 1) :
    Opening κ (Mentioned (equations a b)) n (m + 1) s rowA rowB w
      ((own a b).map fun f => (f.1, s.apply f.2)) ((own b a).map fun f => (f.1, s.apply f.2)) := by
  have hle := h.le
  have hold : ∀ id, Mentioned (equations a b) id → id ≤ n := fun _ => h.asked.old
  have hrest : ∀ {id : Int},
      (Ty.record ((own a b).map fun f => (f.1, s.apply f.2)) (some rowA)).Mentions id ∨
        (Ty.record ((own b a).map fun f => (f.1, s.apply f.2)) (some rowB)).Mentions id →
      s.get? id = none ∧ (Mentioned (equations a b) id ∨ (n < id ∧ id ≤ m)) := by
    intro id hid
    refine h.adjusts.left h.asked ?_
    rw [apply_rest h.freeA h.freeB, hra, hrb]
    exact mentioned_pair.2 hid
  have hnew : ∀ {id : Int}, Mentioned (equations a b) id ∨ (n < id ∧ id ≤ m) → w.id ≠ id := by
    rintro id (hid | hid)
    · have := hold id hid
      omega
    · omega
  have hover : ∀ {fs : List (String × Ty)} {row : Option TyVar}, (Ty.record fs row).Unmixed κ →
      (Ty.record fs (some w)).Unmixed κ := by
    intro fs row hfs
    cases hfs with
    | record hrec hasc _ hfs =>
        refine .record hrec hasc ?_ hfs
        rintro u ⟨⟩
        exact h.asked.fresh _ (by omega)
  refine ⟨(h.adjusts.toFound.mono fun id hid => mentioned_append.2 (.inl hid)).later
    (Nat.le_succ m), hold, by omega, hover h.unmixed_rest.1, hover h.unmixed_rest.2, hne,
    hnew (hrest (.inl (Ty.mentions_record.2 (.inr ⟨rowA, rfl, rfl⟩)))).2,
    hnew (hrest (.inr (Ty.mentions_record.2 (.inr ⟨rowB, rfl, rfl⟩)))).2, ?_⟩
  rintro id (hid | hid)
  · exact ⟨h.adjusts.unbound (fun _ => h.asked.left.old) hle (by omega), .inr (by omega)⟩
  · exact (hrest hid).imp_right fun hid => hid.imp_right fun ⟨hlt, hle⟩ => ⟨hlt, by omega⟩

omit h in
/-- Binding one row after the other makes two open records fit. -/
theorem Midway.adjusts_open {m : Nat} {rowA rowB w : TyVar} {α β : Subst}
    (h : Midway κ n m a b s) (hra : a.row = some rowA) (hrb : b.row = some rowB)
    (hne : rowA.id ≠ rowB.id) (hw : w.id = m + 1)
    (hα : α = .single rowA (.record ((own b a).map fun f => (f.1, s.apply f.2)) (some w)))
    (hA : ¬ (Ty.record ((own b a).map fun f => (f.1, s.apply f.2)) (some w)).Mentions rowA.id)
    (hβ : β = .single rowB
      (.record ((own a b).map fun f => (f.1, (α.after s).apply f.2)) (some w)))
    (hB : ¬ (Ty.record ((own a b).map fun f => (f.1, (α.after s).apply f.2)) (some w)).Mentions
      rowB.id) :
    Adjusts κ n (m + 1) (equations a b) (β.after (α.after s)) := by
  have hopen := h.opening hra hrb hne hw
  have hs := h.adjusts.settled
  have hfirst := (hopen.found_first hα hA).settled
  have hfields : ((own a b).map fun f => (f.1, (α.after s).apply f.2)) =
      ((own a b).map fun f => (f.1, s.apply f.2)).map fun f => (f.1, α.apply f.2) := by
    rw [List.map_map]
    refine List.map_congr_left fun f hf => congrArg (Prod.mk f.1) ?_
    cases unmixed_own (b := b) h.unmixedA with
    | record _ _ _ hfs => exact hs.apply_after hfirst (hopen.apart_first hα hA) (hfs f hf)
  rw [hfields] at hβ hB
  have hsecond := (hopen.found_second hα hA hβ hB).settled
  refine ⟨hopen.found_both hα hA hβ hB, fun e he => ?_⟩
  have h₁ := h.asked.unmixed e.1 (mem_sides.2 ⟨e, he, .inl rfl⟩)
  have h₂ := h.asked.unmixed e.2 (mem_sides.2 ⟨e, he, .inr rfl⟩)
  rw [hopen.apply_both hα hA hβ hB h₁, hopen.apply_both hα hA hβ hB h₂]
  rcases List.mem_append.1 he with he | he
  · exact hsecond.fits (hfirst.apply (hs.apply h₁)) (hfirst.apply (hs.apply h₂))
      (hfirst.fits (hs.apply h₁) (hs.apply h₂) (h.adjusts.fits e he))
  · obtain rfl := List.mem_singleton.1 he
    rw [apply_own h.freeA, apply_own h.freeB, hra, hrb]
    exact hopen.fits hα hA hβ hB disjoint_own

/-- Two open records with different rows: both are bound, to a common new one. -/
theorem Midway.attains_open {rowA rowB : TyVar} (hra : a.row = some rowA)
    (hrb : b.row = some rowB) (hne : rowA.id ≠ rowB.id) :
    Attains κ n p (equations a b) (do
      let behind ← fresh (min rowA.level rowB.level)
      let s ← extendRow ctx s rowA (b.pick s (Text.Names.diff b.names a.names)) (some behind)
      extendRow ctx s rowB (a.pick s (Text.Names.diff a.names b.names)) (some behind)) := by
  refine Ends.bind (ends_fresh ?_)
  generalize hw : (⟨(p.supply.count : Int) + 1, min rowA.level rowB.level⟩ : TyVar) = w
  have hadv : Advances p { p with supply := ⟨p.supply.count + 1⟩ } := ⟨Nat.le_succ _, id⟩
  have hwid : w.id = p.supply.count + 1 := by rw [← hw]
  have hasc : Table.Ascending a.fields ∧ Table.Ascending b.fields := by
    cases h.unmixedA with
    | record _ hascA _ _ =>
        cases h.unmixedB with
        | record _ hascB _ _ => exact ⟨hascA, hascB⟩
  unfold extendRow
  rw [pick_diff hasc.2, bindVar_record]
  split
  · exact Ends.bind (Ends.bind (ends_throw hadv))
  · next hA =>
      refine Ends.bind (Ends.bind (ends_pure (ends_pure ?_)))
      rw [pick_diff hasc.1, bindVar_record]
      split
      · exact Ends.bind (ends_throw hadv)
      · next hB =>
          refine Ends.bind (ends_pure (ends_pure ⟨hadv, ?_⟩))
          exact h.adjusts_open hra hrb hne hwid rfl
            (fun hid => hA (Ty.occurs_iff_mentions.2 hid)) rfl
            fun hid => hB (Ty.occurs_iff_mentions.2 hid)

/-- Unifying the rows makes what is left of the records fit. -/
theorem Midway.attains_rows : Attains κ n p (equations a b)
    (unifyRows ctx s a b (Text.Names.diff a.names b.names) (Text.Names.diff b.names a.names)) := by
  unfold unifyRows
  rw [rowUnder_eq h.freeA, rowUnder_eq h.freeB]
  cases hra : a.row with
  | none =>
      cases hrb : b.row with
      | none =>
          dsimp only
          split
          · next honly =>
              rw [Bool.and_eq_true] at honly
              exact h.attains_settled (by rw [hra, hrb]) honly.1 honly.2
          · exact attains_throw _
      | some row =>
          dsimp only
          split
          · next hB => exact h.attains_closed_left ctx hra hrb hB
          · exact attains_throw _
  | some rowA =>
      cases hrb : b.row with
      | none =>
          dsimp only
          split
          · next hA => exact h.attains_closed_right ctx hra hrb hA
          · exact attains_throw _
      | some rowB =>
          dsimp only
          split
          · next hid =>
              split
              · next honly =>
                  rw [Bool.and_eq_true] at honly
                  refine h.attains_settled ?_ honly.1 honly.2
                  rw [hra, hrb, Option.map_some, Option.map_some, hid]
              · exact attains_throw _
          · next hne => exact h.attains_open ctx hra hrb hne

end Midway

/-- Unifying two records makes them fit. -/
theorem attains_unifyRecords {rel : Relation} (hrel : Adapts κ rel)
    (hE : Asked κ p.supply.count [(a.toTy, b.toTy)]) :
    Attains κ p.supply.count p [(a.toTy, b.toTy)] (unifyRecords ctx rel a b) := by
  have ha := hE.unmixed a.toTy (by simp [sides])
  have hb := hE.unmixed b.toTy (by simp [sides])
  have hshared : ∀ t ∈ sides (a.sharedFields b),
      t.Unmixed κ ∧ ∀ id, t.Mentions id → Mentioned [(a.toTy, b.toTy)] id := by
    intro t ht
    obtain ⟨name, h | h⟩ := side_sharedFields ht
    · exact ⟨unmixed_field ha h, fun id hid => mentioned_pair.2 (.inl (mentions_field h hid))⟩
    · exact ⟨unmixed_field hb h, fun id hid => mentioned_pair.2 (.inr (mentions_field h hid))⟩
  have hmentioned : ∀ id, Mentioned (a.sharedFields b) id → Mentioned [(a.toTy, b.toTy)] id := by
    rintro id ⟨t, ht, hid⟩
    exact (hshared t ht).2 id hid
  have hagain : Asked κ p.supply.count (a.sharedFields b ++ [(a.toTy, b.toTy)]) := by
    refine hE.of_sides fun t ht => ?_
    rw [sides_append] at ht
    exact (List.mem_append.1 ht).elim (hshared t)
      fun ht => ⟨hE.unmixed t ht, fun id hid => ⟨t, ht, hid⟩⟩
  have hequations : Asked κ p.supply.count (equations a b) := by
    refine hE.of_sides fun t ht => ?_
    rw [equations, sides_append] at ht
    refine (List.mem_append.1 ht).elim (hshared t) fun ht => ?_
    rcases (by simpa [sides] using ht : t = _ ∨ t = _) with rfl | rfl
    · exact ⟨unmixed_own ha, fun id hid => mentioned_pair.2 (.inl (mentions_own hid))⟩
    · exact ⟨unmixed_own hb, fun id hid => mentioned_pair.2 (.inr (mentions_own hid))⟩
  unfold unifyRecords
  refine Ends.bind ((attains_pairs hrel hagain.left).imp ?_ fun _ _ hadv => hadv)
  rintro s q ⟨hadv, hs⟩
  have hle := hadv.count
  split
  · have hnext := hs.attains hagain hle (hrel q _ _ (hs.asked hagain hle))
    refine (hnext.of_parts (fun id hid => ?_) fun _ _ hfits => ?_).since hadv
    · exact (mentioned_append.1 hid).elim (hmentioned id) fun hid => hid
    · exact (List.forall_mem_append.1 hfits).2
  · next hgrows =>
      have hrow : ∀ {r : RecordTy}, r.toTy.Unmixed κ → ¬ r.rowGrows s = true → RowFree s r := by
        intro r hr
        refine rowFree_of_cases fun v hv => hs.settled.row_cases ?_
        cases hr with
        | record _ _ hrow _ => exact hrow v hv
      have hmid : Midway κ p.supply.count q.supply.count a b s :=
        ⟨ha, hb, hequations, hs, hle, hrow ha fun h => hgrows (by simp [h]),
          hrow hb fun h => hgrows (by simp [h])⟩
      refine ((hmid.attains_rows ctx).of_parts (fun id hid => ?_) fun u hu hfits => ?_).since hadv
      · rcases mentioned_append.1 hid with hid | hid
        · exact hmentioned id hid
        · rw [mentioned_pair] at hid ⊢
          exact hid.imp mentions_own mentions_own
      · exact List.forall_mem_singleton.2 (fits_of_equations hu ha hb hfits)

end Records

/-! ## Unification -/

section Unification

variable {κ : Sorts} {p : Progress} {ctx : Context}

/-- Unifying two types whose constructors show makes them fit. -/
theorem attains_unifyShapes {rel : Relation} (hrel : Adapts κ rel) {a b : Ty}
    (hE : Asked κ p.supply.count [(a, b)]) :
    Attains κ p.supply.count p [(a, b)] (unifyShapes ctx rel a b) := by
  have ha := hE.unmixed a (by simp [sides])
  have hb := hE.unmixed b (by simp [sides])
  have hparts : ∀ as bs : List Ty, (∀ t ∈ as, t.Unmixed κ) → (∀ t ∈ bs, t.Unmixed κ) →
      (∀ t ∈ as, ∀ id, t.Mentions id → a.Mentions id) →
      (∀ t ∈ bs, ∀ id, t.Mentions id → b.Mentions id) →
      (∀ s : Subst, (∀ e ∈ as.zip bs, (s.apply e.1).Fits (s.apply e.2)) →
        (s.apply a).Fits (s.apply b)) →
      Attains κ p.supply.count p [(a, b)] (thread rel (as.zip bs) .empty) := by
    intro as bs has hbs hina hinb hfits
    have hsides : ∀ t ∈ sides (as.zip bs),
        t.Unmixed κ ∧ ∀ id, t.Mentions id → Mentioned [(a, b)] id := fun t ht =>
      (mem_sides_zip ht).elim
        (fun ht => ⟨has t ht, fun id hid => mentioned_pair.2 (.inl (hina t ht id hid))⟩)
        fun ht => ⟨hbs t ht, fun id hid => mentioned_pair.2 (.inr (hinb t ht id hid))⟩
    refine (attains_pairs hrel (hE.of_sides hsides)).of_parts (fun id hid => ?_) fun s _ h => ?_
    · obtain ⟨t, ht, hid⟩ := hid
      exact (hsides t ht).2 id hid
    · exact List.forall_mem_singleton.2 (hfits s h)
  have hnothing : a.Fits b → Attains κ p.supply.count p [(a, b)] (pure .empty) := by
    intro hfits
    refine attains_pure ⟨found_empty κ _ _ _, List.forall_mem_singleton.2 ?_⟩
    rw [Subst.apply_empty, Subst.apply_empty]
    exact hfits
  unfold unifyShapes
  split
  · cases ha
  · cases hb
  · cases hb
  · cases ha
  · cases ha
  · next value => exact hnothing (.asLit value)
  · next value => exact hnothing (.asString value)
  · next x y x' y' =>
      cases ha with
      | fn hx hy =>
          cases hb with
          | fn hx' hy' =>
              refine hparts [x, y] [x', y'] (by simp [hx, hy]) (by simp [hx', hy'])
                (fun t ht id hid => ?_) (fun t ht id hid => ?_) fun s h => ?_
              · rw [Ty.mentions_fn]
                rcases (by simpa using ht : t = x ∨ t = y) with rfl | rfl
                · exact .inl hid
                · exact .inr hid
              · rw [Ty.mentions_fn]
                rcases (by simpa using ht : t = x' ∨ t = y') with rfl | rfl
                · exact .inl hid
                · exact .inr hid
              · rw [Subst.apply_fn, Subst.apply_fn]
                exact .fn (h (x, x') (by simp)) (h (y, y') (by simp))
  · next as bs =>
      split
      · next hlen =>
          cases ha with
          | tuple has =>
              cases hb with
              | tuple hbs =>
                  refine hparts as bs has hbs (fun t ht id hid => Ty.mentions_tuple.2 ⟨t, ht, hid⟩)
                    (fun t ht id hid => Ty.mentions_tuple.2 ⟨t, ht, hid⟩) fun s h => ?_
                  rw [Subst.apply_tuple, Subst.apply_tuple]
                  refine .tuple (by simpa using hlen) fun e he => ?_
                  rw [List.zip_map, List.mem_map] at he
                  obtain ⟨e, he, rfl⟩ := he
                  exact h e he
      · exact attains_throw _
  · exact attains_unifyRecords ctx hrel hE
  · exact attains_throw _

theorem adapts_unifyStep {rel : Relation} (hrel : Adapts κ rel) :
    Adapts κ (unifyStep ctx rel) := by
  intro p a b hE
  have ha := hE.unmixed a (by simp [sides])
  have hb := hE.unmixed b (by simp [sides])
  unfold unifyStep
  split
  · next heq =>
      refine attains_pure ⟨found_empty κ _ _ _, List.forall_mem_singleton.2 ?_⟩
      rw [Subst.apply_empty, Subst.apply_empty]
      exact Ty.fits_of_equiv ha hb heq
  · next hne =>
      split
      · next v =>
          cases ha with
          | var hv => exact attains_bindVar ctx hv hb hne
      · next v hvar =>
          cases hb with
          | var hv =>
              refine (attains_bindVar ctx hv ha fun heq => hne ?_).imp
                (fun _ _ h => ⟨h.1, Adjusts.swap h.2⟩) fun _ _ hadv => hadv
              exact Ty.equiv_symm (.var v) ha.tame heq
      · have hdirect : (isIndirect a || isIndirect b) = false := by
          cases ha <;> cases hb <;> rfl
        rw [if_neg (by rw [hdirect]; simp)]
        exact attains_unifyShapes hrel hE

/-- What unification finds makes the types fit. -/
theorem adapts_unify (ctx : Context) (κ : Sorts) : ∀ limit : Nat, Adapts κ (unify ctx limit)
  | 0 => fun _ _ _ _ => ends_exceed ⟨Nat.le_refl _, fun _ => rfl⟩
  | limit + 1 => adapts_unifyStep (adapts_unify ctx κ limit)

end Unification

end Relate

end RowTypes
