import RowTypes.Proofs.SealedTypes

/-!
# Justified pairs, in both orders

Where unification justifies a pair of types, it takes the left one apart first, so what it shows
about two references in the one order is not what it needs for the other order: the left reference
was expanded to its end before the right one was touched.  What the pairs have in common is where
they meet.  From a relation whose pairs are justified, three steps lead to one that does not know
left from right: its pairs and equivalent types are put in the same places of a type; both sides
are expanded and unfolded any number of times; and the pairs are taken in both orders.  Of such a
pair either type may be expanded, and once the constructors of both show, they are alike and their
parts are related again.

That replaced parameters and binders keep types together is where sealed types are needed.  And no
intersections may occur: of an intersection every member has to go with the other type, of a union
one alternative has, and which question is asked first depends on the order.
-/

namespace RowTypes

namespace Ty

variable {r : Registry} {P Q : Int → Prop} {S T : Ty → Ty → Prop} {s s' : Subst} {t u : Ty}
  {m m' : Renaming}

/-! ## Equivalence of sealed types -/

theorem Sealed.equiv_of_equivUnder (h : t.Sealed r fun _ => False) (heq : equivUnder m t u = true) :
    t.equiv u = true :=
  h.sorted.equivUnder_of_lookup (fun _ hid => ((h.rooted.of_mentions hid).elim id id).elim) heq

/-! ## Pairs in the same places -/

/-- Two types of one constructor with related parts.  Unions and recursive types count as wholes,
and are equivalent. -/
inductive SameHead (S : Ty → Ty → Prop) : Ty → Ty → Prop where
  | prim (name : String) : SameHead S (.prim name) (.prim name)
  | lit (value : String) : SameHead S (.lit value) (.lit value)
  | fn {p q p' q' : Ty} : S p p' → S q q' → SameHead S (.fn p q) (.fn p' q')
  | record {fs gs : List (String × Ty)} :
      (∀ name, Option.Rel S (Table.get? name fs) (Table.get? name gs)) →
      SameHead S (.record fs none) (.record gs none)
  | tuple {as bs : List Ty} : List.Forall₂ S as bs → SameHead S (.tuple as) (.tuple bs)
  | union {as bs : List Ty} : (Ty.union as).equiv (.union bs) = true →
      SameHead S (.union as) (.union bs)
  | named {name : String} {as bs : List Ty} : List.Forall₂ S as bs →
      SameHead S (.named name as) (.named name bs)
  | mu {v w : TyVar} {t u : Ty} : (Ty.mu v t).equiv (.mu w u) = true →
      SameHead S (.mu v t) (.mu w u)

/-- Two types that are the same but for related types in the same places. -/
inductive Congruent (S : Ty → Ty → Prop) : Ty → Ty → Prop where
  | base {a b : Ty} : S a b → Congruent S a b
  | head {a b : Ty} : SameHead (Congruent S) a b → Congruent S a b

theorem SameHead.imp (h : SameHead S t u) (hST : ∀ {a b}, S a b → T a b) : SameHead T t u := by
  cases h with
  | prim name => exact .prim name
  | lit value => exact .lit value
  | fn h h' => exact .fn (hST h) (hST h')
  | record h => exact .record fun name => rel_imp (h name) fun _ _ _ _ => hST
  | tuple h => exact .tuple (h.imp fun _ _ => hST)
  | union h => exact .union h
  | named h => exact .named (h.imp fun _ _ => hST)
  | mu h => exact .mu h

/-- Only types that come with the given ones are asked about. -/
theorem SameHead.imp_sealed {C : Ty → Prop} (hC : r.Hereditary C) (ht : C t) (hu : C u)
    (h : SameHead S t u) (hST : ∀ {a b}, C a → C b → S a b → T a b) : SameHead T t u := by
  cases h with
  | prim name => exact .prim name
  | lit value => exact .lit value
  | fn h h' =>
      exact .fn (hST (hC.fn ht).1 (hC.fn hu).1 h) (hST (hC.fn ht).2 (hC.fn hu).2 h')
  | record h =>
      refine .record fun name => rel_imp (h name) fun a b ha hb => ?_
      exact hST (hC.record ht _ (Table.mem_of_get? ha)) (hC.record hu _ (Table.mem_of_get? hb))
  | tuple h =>
      exact .tuple (forall₂_imp h fun a ha b hb => hST (hC.tuple ht a ha) (hC.tuple hu b hb))
  | union h => exact .union h
  | named h =>
      exact .named (forall₂_imp h fun a ha b hb => hST (hC.named ht a ha) (hC.named hu b hb))
  | mu h => exact .mu h

/-- A relation of types with related parts goes over to equivalent types in which related types are
put in the place of the same unknowns. -/
theorem Sealed.related_apply (hS : ∀ {a b}, SameHead S a b → S a b) (ht : t.Sealed r P) :
    ∀ {u : Ty}, u.Sealed r Q → equivUnder m t u = true →
    (∀ v w : TyVar, P v.id → Q w.id → v.sameUnder m w = true →
      S (s.apply (.var v)) (s'.apply (.var w))) → S (s.apply t) (s'.apply u) := by
  have hmap : ∀ {as bs : List Ty},
      List.Forall₂ (fun a b => S (s.apply a) (s'.apply b)) as bs →
      List.Forall₂ S (as.map s.apply) (bs.map s'.apply) := fun h =>
    List.forall₂_map_left_iff.2 (List.forall₂_map_right_iff.2 h)
  induction ht with
  | var hv =>
      intro u hu heq hvar
      obtain ⟨w, rfl, hsame⟩ := exists_var_of_equivUnder heq
      cases hu with
      | var hw => exact hvar _ _ hv hw hsame
  | prim name =>
      intro u _ heq _
      rw [eq_prim_of_equivUnder heq, Subst.apply_prim, Subst.apply_prim]
      exact hS (.prim name)
  | lit value =>
      intro u _ heq _
      rw [eq_lit_of_equivUnder heq, Subst.apply_lit, Subst.apply_lit]
      exact hS (.lit value)
  | fn _ _ ihp ihq =>
      intro u hu heq hvar
      obtain ⟨p', q', rfl, h, h'⟩ := exists_fn_of_equivUnder heq
      cases hu with
      | fn hp hq =>
          rw [Subst.apply_fn, Subst.apply_fn]
          exact hS (.fn (ihp hp h hvar) (ihq hq h' hvar))
  | record hasc _ ih =>
      intro u hu heq hvar
      obtain ⟨gs, row, rfl⟩ := exists_record_of_equivUnder heq
      cases hu with
      | record hasc' hgs =>
          obtain ⟨-, hfields⟩ := (equivUnder_record hasc hasc').1 heq
          rw [Subst.apply_closed, Subst.apply_closed]
          refine hS (.record fun name => ?_)
          rw [Table.get?_map, Table.get?_map]
          refine rel_map (hfields name) fun a b ha hb h => ?_
          exact ih _ (Table.mem_of_get? ha) (hgs _ (Table.mem_of_get? hb)) h hvar
  | tuple _ ih =>
      intro u hu heq hvar
      obtain ⟨us, rfl, helems⟩ := exists_tuple_of_equivUnder heq
      cases hu with
      | tuple hus =>
          rw [Subst.apply_tuple, Subst.apply_tuple]
          refine hS (.tuple (hmap (forall₂_imp helems ?_)))
          exact fun t ht u hu h => ih t ht (hus u hu) h hvar
  | union hnorm hts _ =>
      intro u hu heq _
      obtain ⟨us, rfl, -⟩ := exists_union_of_equivUnder heq
      cases hu with
      | union hnorm' hus =>
          have hleft : Sealed r (fun _ => False) (.union _) := .union hnorm hts
          have hright : Sealed r (fun _ => False) (.union _) := .union hnorm' hus
          rw [hleft.apply_of_unbound nofun, hright.apply_of_unbound nofun]
          exact hS (.union (hleft.equiv_of_equivUnder heq))
  | named hd hlen _ ih =>
      intro u hu heq hvar
      obtain ⟨us, rfl, hargs⟩ := exists_named_of_equivUnder heq
      cases hu with
      | named hd' hlen' hus =>
          rw [Subst.apply_named, Subst.apply_named]
          refine hS (.named (hmap (forall₂_imp hargs ?_)))
          exact fun t ht u hu h => ih t ht (hus u hu) h hvar
  | mu ht _ =>
      intro u hu heq _
      obtain ⟨w, u, rfl, -⟩ := exists_mu_of_equivUnder heq
      cases hu with
      | mu hu =>
          have hleft : Sealed r (fun _ => False) (.mu _ _) := .mu ht
          have hright : Sealed r (fun _ => False) (.mu _ _) := .mu hu
          rw [hleft.apply_of_unbound nofun, hright.apply_of_unbound nofun]
          exact hS (.mu (hleft.equiv_of_equivUnder heq))

/-- Equivalent types have one constructor, and their parts are congruent whatever the relation. -/
theorem Sealed.sameHead_of_equiv (ht : t.Sealed r fun _ => False)
    (hu : u.Sealed r fun _ => False) (heq : t.equiv u = true) : SameHead (Congruent S) t u := by
  have h : SameHead (Congruent S) (Subst.empty.apply t) (Subst.empty.apply u) :=
    ht.related_apply (fun h => h.imp .head) hu heq nofun
  rwa [Subst.apply_empty, Subst.apply_empty] at h

end Ty

namespace Subst

/-- Parameters that are sent to related types, none of which is an unknown. -/
theorem rel_ofList {R : Ty → Ty → Prop} {as bs : List Ty} (h : List.Forall₂ R as bs)
    (hvar : ∀ a b, R a b → ∀ w : TyVar, a ≠ .var w ∧ b ≠ .var w) (params : List TyVar) (id : Int) :
    Option.Rel R ((ofList (params.zip as)).get? id) ((ofList (params.zip bs)).get? id) := by
  refine related_ofList (V := Eq) (C := fun s s' => Option.Rel R (s.get? id) (s'.get? id)) .none ?_
    (List.forall₂_same.2 fun _ _ => rfl) h
  rintro p _ a b s s' rfl hab hs
  rw [get?_bind, get?_bind, held_of_ne fun w hw => absurd hw (hvar a b hab w).1,
    held_of_ne fun w hw => absurd hw (hvar a b hab w).2]
  split
  · exact .some hab
  · exact hs

/-- A parameter is replaced by related types, where no argument is an unknown. -/
theorem rel_apply_param {R : Ty → Ty → Prop} {as bs : List Ty} {params : List TyVar} {v w : TyVar}
    (h : List.Forall₂ R as bs) (has : ∀ a ∈ as, ∀ x : TyVar, a ≠ .var x)
    (hbs : ∀ b ∈ bs, ∀ x : TyVar, b ≠ .var x) (hlen : as.length = params.length)
    (hv : ∃ x ∈ params, x.id = v.id) (hid : v.id = w.id) :
    R ((ofList (params.zip as)).apply (.var v)) ((ofList (params.zip bs)).apply (.var w)) := by
  have hargs : List.Forall₂ (fun a b => R a b ∧ ∀ x : TyVar, a ≠ .var x ∧ b ≠ .var x) as bs :=
    Ty.forall₂_imp h fun a ha b hb hab => ⟨hab, fun x => ⟨has a ha x, hbs b hb x⟩⟩
  obtain ⟨t, ht, -⟩ := Registry.exists_arg hlen has hv
  have hrel := rel_ofList hargs (fun _ _ hab => hab.2) params v.id
  rw [apply_var, apply_var, ← hid, ht]
  rw [ht] at hrel
  generalize (ofList (params.zip bs)).get? v.id = x at hrel ⊢
  cases hrel with
  | some h => exact h.1

end Subst

namespace Registry

variable {r : Registry} {S T : Ty → Ty → Prop} {a b : Ty} {name : String} {as bs : List Ty}

/-! ## Expanding and unfolding -/

/-- A type is expanded and unfolded so many times. -/
inductive Unwraps (r : Registry) : Nat → Ty → Ty → Prop where
  | refl (t : Ty) : Unwraps r 0 t t
  | step {n : Nat} {t u w : Ty} : r.unwrap? t = some u → Unwraps r n u w → Unwraps r (n + 1) t w

theorem Unwraps.tail {n : Nat} {t u w : Ty} (h : r.Unwraps n t u) (hw : r.unwrap? u = some w) :
    r.Unwraps (n + 1) t w := by
  induction h with
  | refl t => exact .step hw (.refl w)
  | step ht _ ih => exact .step ht (ih hw)

/-- A type whose constructor shows is not expanded or unfolded. -/
theorem Unwraps.eq_of_not_isIndirect {n : Nat} {t u : Ty} (h : r.Unwraps n t u)
    (ht : Relate.isIndirect t = false) : n = 0 ∧ u = t := by
  cases h with
  | refl t => exact ⟨rfl, rfl⟩
  | step hu _ =>
      rw [isIndirect_of_unwrap? hu] at ht
      cases ht

/-- A type that is expanded or unfolded to one whose constructor shows. -/
theorem Unwraps.step_of_unwrap? {n : Nat} {t u w : Ty} (h : r.Unwraps n t w)
    (hw : Relate.isIndirect w = false) (hu : r.unwrap? t = some u) :
    ∃ k, n = k + 1 ∧ r.Unwraps k u w := by
  cases h with
  | refl t =>
      rw [isIndirect_of_unwrap? hu] at hw
      cases hw
  | step hu' h =>
      rw [hu] at hu'
      cases hu'
      exact ⟨_, rfl, h⟩

/-- Unfolding equivalent types gives congruent types. -/
theorem congruent_unfold {v w : TyVar} {t u : Ty} (ht : (Ty.mu v t).Sealed r fun _ => False)
    (hu : (Ty.mu w u).Sealed r fun _ => False) (heq : (Ty.mu v t).equiv (.mu w u) = true) :
    Ty.Congruent S (.unfold v t) (.unfold w u) := by
  have hself : ∀ {v x : TyVar} {t : Ty}, x.id = v.id →
      (Subst.single v (.mu v t)).apply (.var x) = .mu v t := by
    intro v x t hx
    rw [Subst.apply_var, Subst.get?_single, if_pos hx, Subst.held_of_ne fun _ h => by cases h]
    rfl
  cases ht with
  | mu ht =>
      cases hu with
      | mu hu =>
          refine ht.related_apply .head hu (m := [(v.id, w.id)]) ?_ fun x y hx hy _ => ?_
          · rwa [Ty.equiv, Ty.equivUnder] at heq
          · rw [hself hx, hself hy]
            exact .head (.mu heq)

section Sealed

variable (hr : r.Sealed)
include hr

theorem Sealed.unwrap? {t u : Ty} (ht : t.Sealed r fun _ => False) (hu : r.unwrap? t = some u) :
    u.Sealed r fun _ => False := by
  cases t with
  | named name args => exact hr.hereditary.expand ht hu
  | mu v t => cases hu; exact ht.unfold
  | _ => cases hu

theorem Sealed.unwraps {n : Nat} {t u : Ty} (h : r.Unwraps n t u)
    (ht : t.Sealed r fun _ => False) : u.Sealed r fun _ => False := by
  induction h with
  | refl t => exact ht
  | step hu _ ih => exact ih (hr.unwrap? ht hu)

/-- References with congruent arguments stand for congruent types. -/
theorem Sealed.congruent_expand? (ha : (Ty.named name as).Sealed r fun _ => False)
    (hb : (Ty.named name bs).Sealed r fun _ => False) (h : List.Forall₂ (Ty.Congruent S) as bs) :
    ∃ t u, r.expand? name as = some t ∧ r.expand? name bs = some u ∧ Ty.Congruent S t u := by
  obtain ⟨⟨d, hd, hlen⟩, has⟩ := ha.of_named
  obtain ⟨⟨d', hd', hlen'⟩, hbs⟩ := hb.of_named
  obtain rfl : d = d' := Option.some.inj (hd.symm.trans hd')
  refine ⟨_, _, expand?_of_lookup? hd hlen, expand?_of_lookup? hd hlen', ?_⟩
  have hbody := hr _ (Table.mem_of_get? hd)
  refine hbody.related_apply .head hbody hbody.sorted.equiv_self fun v w hv _ heq => ?_
  exact Subst.rel_apply_param h (fun a ha => (has a ha).ne_var) (fun b hb => (hbs b hb).ne_var) hlen
    hv (by simpa [TyVar.sameUnder] using heq)

/-- Types of one constructor with congruent parts are expanded or unfolded together. -/
theorem Sealed.unwrap?_of_sameHead (ha : a.Sealed r fun _ => False)
    (hb : b.Sealed r fun _ => False) (h : Ty.SameHead (Ty.Congruent S) a b)
    (hind : (Relate.isIndirect a || Relate.isIndirect b) = true) :
    ∃ a' b', r.unwrap? a = some a' ∧ r.unwrap? b = some b' ∧ Ty.Congruent S a' b' := by
  cases h with
  | named h => exact hr.congruent_expand? ha hb h
  | mu h => exact ⟨_, _, rfl, rfl, congruent_unfold ha hb h⟩
  | _ => cases hind

/-! ## Where pairs meet -/

/-- Pairs of sealed types are justified by the relation they are in. -/
structure Backs (r : Registry) (S : Ty → Ty → Prop) : Prop where
  sealed : ∀ {a b}, S a b → a.Sealed r (fun _ => False) ∧ b.Sealed r fun _ => False
  justified : ∀ {a b}, S a b → r.Justified S a b

/-- Of a congruent pair one type is expanded or unfolded, or both are, and the pair stays
congruent. -/
theorem Sealed.exists_unwrap? (hS : r.Backs S) (ha : a.Sealed r fun _ => False)
    (hb : b.Sealed r fun _ => False) (h : Ty.Congruent S a b)
    (hind : (Relate.isIndirect a || Relate.isIndirect b) = true) :
    (∃ a', r.unwrap? a = some a' ∧ Ty.Congruent S a' b) ∨
    (∃ b', r.unwrap? b = some b' ∧ Ty.Congruent S a b') ∨
    ∃ a' b', r.unwrap? a = some a' ∧ r.unwrap? b = some b' ∧ Ty.Congruent S a' b' := by
  cases h with
  | head h => exact .inr (.inr (hr.unwrap?_of_sameHead ha hb h hind))
  | base hab =>
      cases hS.justified hab with
      | equiv heq => exact .inr (.inr (hr.unwrap?_of_sameHead ha hb (ha.sameHead_of_equiv hb heq) hind))
      | args hlen hargs =>
          have hsame := List.forall₂_iff_zip.2 ⟨hlen, fun he => Ty.Congruent.base (hargs _ he)⟩
          exact .inr (.inr (hr.unwrap?_of_sameHead ha hb (.named hsame) hind))
      | expand ht h => exact .inl ⟨_, ht, .base h⟩
      | expandRight _ ht h => exact .inr (.inl ⟨_, ht, .base h⟩)
      | unfold _ h => exact .inl ⟨_, rfl, .base h⟩
      | unfoldRight _ h => exact .inr (.inl ⟨_, rfl, .base h⟩)
      | intoUnion hinda => rw [hinda] at hind; cases hind
      | intoInter hinda => rw [hinda] at hind; cases hind
      | fromUnion hindb => rw [hindb, Bool.or_false] at hind; cases hind
      | fromInter hindb => rw [hindb, Bool.or_false] at hind; cases hind
      | _ => cases hind

/-- Types of one constructor with related parts are justified in both orders. -/
theorem Sealed.justified_of_sameHead (hsymm : ∀ {x y}, T x y → T y x)
    (hequiv : ∀ {x y : Ty}, x.Sealed r (fun _ => False) → y.Sealed r (fun _ => False) →
      x.equiv y = true → T x y)
    (ha : a.Sealed r fun _ => False) (hb : b.Sealed r fun _ => False)
    (hind : Relate.isIndirect a = false) (h : Ty.SameHead T a b) :
    r.Justified T a b ∧ r.Justified T b a := by
  cases h with
  | prim name => exact ⟨.equiv (by simp [Ty.equiv, Ty.equivUnder]), .equiv (by simp [Ty.equiv, Ty.equivUnder])⟩
  | lit value => exact ⟨.equiv (by simp [Ty.equiv, Ty.equivUnder]), .equiv (by simp [Ty.equiv, Ty.equivUnder])⟩
  | fn h h' => exact ⟨.fn h h', .fn (hsymm h) (hsymm h')⟩
  | record h =>
      exact ⟨.record h, .record fun name => Ty.rel_flip (h name) fun _ _ _ _ => hsymm⟩
  | tuple h =>
      have h' := Ty.forall₂_flip h (S := T) fun _ _ _ _ => hsymm
      rw [List.forall₂_iff_zip] at h h'
      exact ⟨.tuple h.1 fun e he => h.2 he, .tuple h'.1 fun e he => h'.2 he⟩
  | @union as bs heq =>
      obtain ⟨-, hto, hfrom⟩ := Ty.equivUnder_union.1 heq
      have hP := hr.hereditary
      have hto' : ∀ x ∈ as, ∃ y ∈ bs, T x y := fun x hx => (hto x hx).imp fun y hy =>
        ⟨hy.1, hequiv (hP.union ha x hx) (hP.union hb y hy.1) hy.2⟩
      have hfrom' : ∀ y ∈ bs, ∃ x ∈ as, T y x := fun y hy => (hfrom y hy).imp fun x hx =>
        ⟨hx.1, hsymm (hequiv (hP.union ha x hx.1) (hP.union hb y hy) hx.2)⟩
      exact ⟨.unions hto' hfrom', .unions hfrom' hto'⟩
  | named => cases hind
  | mu => cases hind

/-- A congruent pair of types whose constructors show is justified in both orders. -/
theorem Sealed.justified_of_congruent (hS : r.Backs S) (hsymm : ∀ {x y}, T x y → T y x)
    (hT : ∀ {x y : Ty}, x.Sealed r (fun _ => False) → y.Sealed r (fun _ => False) →
      Ty.Congruent S x y → T x y)
    (ha : a.Sealed r fun _ => False) (hb : b.Sealed r fun _ => False)
    (hinda : Relate.isIndirect a = false) (hindb : Relate.isIndirect b = false)
    (h : Ty.Congruent S a b) : r.Justified T a b ∧ r.Justified T b a := by
  have hbase : ∀ {x y}, S x y → T x y := fun hxy =>
    hT (hS.sealed hxy).1 (hS.sealed hxy).2 (.base hxy)
  have hequiv : ∀ {x y : Ty}, x.Sealed r (fun _ => False) → y.Sealed r (fun _ => False) →
      x.equiv y = true → T x y := fun hx hy heq =>
    hT hx hy (.head (hx.sameHead_of_equiv hy heq))
  have hinter : ∀ {t : Ty}, t.Sealed r (fun _ => False) → ∀ ms, t ≠ .inter ms := by
    rintro _ h ms rfl
    cases h
  have hsame : Ty.SameHead T a b → r.Justified T a b ∧ r.Justified T b a :=
    hr.justified_of_sameHead hsymm hequiv ha hb hinda
  cases h with
  | head h => exact hsame (h.imp_sealed hr.hereditary ha hb hT)
  | base hab =>
      cases hS.justified hab with
      | equiv heq => exact hsame ((ha.sameHead_of_equiv hb heq).imp_sealed hr.hereditary ha hb hT)
      | unions h h' =>
          have hto := fun x hx => (h x hx).imp fun _ hy => And.imp_right hbase hy
          have hfrom := fun y hy => (h' y hy).imp fun _ hx => And.imp_right hbase hx
          exact ⟨.unions hto hfrom, .unions hfrom hto⟩
      | intoUnion _ hne h =>
          have hsome := h.imp fun _ hy => And.imp_right hbase hy
          exact ⟨.intoUnion hinda hne hsome, .fromUnion hinda hne (hinter ha) hsome⟩
      | fromUnion _ hne hne' h =>
          have hsome := h.imp fun _ hx => And.imp_right hbase hx
          exact ⟨.fromUnion hindb hne hne' hsome, .intoUnion hindb hne hsome⟩
      | string value => exact ⟨.string value, .literal value⟩
      | literal value => exact ⟨.literal value, .string value⟩
      | fn h h' => exact hsame (.fn (hbase h) (hbase h'))
      | tuple hlen h =>
          exact hsame (.tuple (List.forall₂_iff_zip.2 ⟨hlen, fun he => hbase (h _ he)⟩))
      | record h => exact hsame (.record fun name => Ty.rel_imp (h name) fun _ _ _ _ => hbase)
      | intoInter => exact absurd rfl (hinter hb _)
      | fromInter => exact absurd rfl (hinter ha _)
      | args => cases hinda
      | expand => cases hinda
      | unfold => cases hinda
      | expandRight => cases hindb
      | unfoldRight => cases hindb

end Sealed

/-- Two types stem from a congruent pair by expanding and unfolding. -/
inductive Stems (r : Registry) (S : Ty → Ty → Prop) (x y : Ty) : Prop where
  | intro {a b : Ty} {i j : Nat} : a.Sealed r (fun _ => False) → b.Sealed r (fun _ => False) →
      Ty.Congruent S a b → r.Unwraps i a x → r.Unwraps j b y → Stems r S x y

/-- Two types stem from a congruent pair in one order or the other. -/
def StemsEither (r : Registry) (S : Ty → Ty → Prop) (x y : Ty) : Prop :=
  r.Stems S x y ∨ r.Stems S y x

variable {x y z : Ty}

theorem stems_of_congruent (ha : a.Sealed r fun _ => False) (hb : b.Sealed r fun _ => False)
    (h : Ty.Congruent S a b) : r.Stems S a b := ⟨ha, hb, h, .refl a, .refl b⟩

theorem Stems.unwrap_left (h : r.Stems S x y) (hz : r.unwrap? x = some z) : r.Stems S z y := by
  obtain ⟨ha, hb, hab, hx, hy⟩ := h
  exact ⟨ha, hb, hab, hx.tail hz, hy⟩

theorem Stems.unwrap_right (h : r.Stems S x y) (hz : r.unwrap? y = some z) : r.Stems S x z := by
  obtain ⟨ha, hb, hab, hx, hy⟩ := h
  exact ⟨ha, hb, hab, hx, hy.tail hz⟩

theorem StemsEither.symm (h : r.StemsEither S x y) : r.StemsEither S y x := Or.symm h

theorem StemsEither.unwrap_left (h : r.StemsEither S x y) (hz : r.unwrap? x = some z) :
    r.StemsEither S z y := h.imp (·.unwrap_left hz) (·.unwrap_right hz)

theorem StemsEither.unwrap_right (h : r.StemsEither S x y) (hz : r.unwrap? y = some z) :
    r.StemsEither S x z := (h.symm.unwrap_left hz).symm

section Sealed

variable (hr : r.Sealed) (hS : r.Backs S)
include hr

theorem Sealed.of_stems (h : r.Stems S x y) :
    x.Sealed r (fun _ => False) ∧ y.Sealed r fun _ => False := by
  obtain ⟨ha, hb, -, hx, hy⟩ := h
  exact ⟨hr.unwraps hx ha, hr.unwraps hy hb⟩

theorem Sealed.of_stemsEither (h : r.StemsEither S x y) :
    x.Sealed r (fun _ => False) ∧ y.Sealed r fun _ => False :=
  h.elim hr.of_stems fun h => (hr.of_stems h).symm

include hS

/-- Where the constructors of both types show, the pair is justified in both orders. -/
theorem Sealed.justified_of_unwraps : ∀ (n : Nat) {i j : Nat} {a b : Ty}, i + j = n →
    a.Sealed r (fun _ => False) → b.Sealed r (fun _ => False) → Ty.Congruent S a b →
    r.Unwraps i a x → r.Unwraps j b y → Relate.isIndirect x = false →
    Relate.isIndirect y = false →
    r.Justified (r.StemsEither S) x y ∧ r.Justified (r.StemsEither S) y x := by
  intro n
  induction n using Nat.strongRecOn with
  | ind n ih =>
      intro i j a b hn ha hb hab hx hy hindx hindy
      by_cases hind : (Relate.isIndirect a || Relate.isIndirect b) = true
      · -- One of the types, or both, are taken one step further, and they are still congruent.
        rcases hr.exists_unwrap? hS ha hb hab hind with
          ⟨a', ha', hab'⟩ | ⟨b', hb', hab'⟩ | ⟨a', b', ha', hb', hab'⟩
        · obtain ⟨k, rfl, hx'⟩ := hx.step_of_unwrap? hindx ha'
          exact ih (k + j) (by omega) rfl (hr.unwrap? ha ha') hb hab' hx' hy hindx hindy
        · obtain ⟨k, rfl, hy'⟩ := hy.step_of_unwrap? hindy hb'
          exact ih (i + k) (by omega) rfl ha (hr.unwrap? hb hb') hab' hx hy' hindx hindy
        · obtain ⟨k, rfl, hx'⟩ := hx.step_of_unwrap? hindx ha'
          obtain ⟨l, rfl, hy'⟩ := hy.step_of_unwrap? hindy hb'
          exact ih (k + l) (by omega) rfl (hr.unwrap? ha ha') (hr.unwrap? hb hb') hab' hx' hy'
            hindx hindy
      · rw [Bool.not_eq_true, Bool.or_eq_false_iff] at hind
        obtain ⟨-, rfl⟩ := hx.eq_of_not_isIndirect hind.1
        obtain ⟨-, rfl⟩ := hy.eq_of_not_isIndirect hind.2
        exact hr.justified_of_congruent hS (·.symm)
          (fun hx hy h => .inl (stems_of_congruent hx hy h)) ha hb hindx hindy hab

/-- A relation whose pairs it justifies leads to one that is so too, and that does not know left
from right. -/
theorem Sealed.backs_stemsEither : r.Backs (r.StemsEither S) where
  sealed := hr.of_stemsEither
  justified := by
    intro x y h
    obtain ⟨hx, hy⟩ := hr.of_stemsEither h
    by_cases hnamedx : ∃ name args, x = .named name args
    · obtain ⟨name, args, rfl⟩ := hnamedx
      obtain ⟨t, ht, -⟩ := hr.exists_expand? hx
      exact .expand ht (h.unwrap_left ht)
    have hnamedx : ∀ name args, x ≠ .named name args := fun name args hx => hnamedx ⟨name, args, hx⟩
    by_cases hnamedy : ∃ name args, y = .named name args
    · obtain ⟨name, args, rfl⟩ := hnamedy
      obtain ⟨t, ht, -⟩ := hr.exists_expand? hy
      exact .expandRight hnamedx ht (h.unwrap_right ht)
    have hnamedy : ∀ name args, y ≠ .named name args := fun name args hy => hnamedy ⟨name, args, hy⟩
    by_cases hmux : ∃ v t, x = .mu v t
    · obtain ⟨v, t, rfl⟩ := hmux
      exact .unfold hnamedy (h.unwrap_left rfl)
    have hindx := Relate.isIndirect_eq_false hnamedx fun v t hx => hmux ⟨v, t, hx⟩
    by_cases hmuy : ∃ v t, y = .mu v t
    · obtain ⟨v, t, rfl⟩ := hmuy
      exact .unfoldRight hindx (h.unwrap_right rfl)
    have hindy := Relate.isIndirect_eq_false hnamedy fun v t hy => hmuy ⟨v, t, hy⟩
    rcases h with ⟨ha, hb, hab, hx, hy⟩ | ⟨ha, hb, hab, hy, hx⟩
    · exact (hr.justified_of_unwraps hS _ rfl ha hb hab hx hy hindx hindy).1
    · exact (hr.justified_of_unwraps hS _ rfl ha hb hab hy hx hindy hindx).2

end Sealed

end Registry

end RowTypes
