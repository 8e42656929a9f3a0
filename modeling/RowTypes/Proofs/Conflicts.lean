import RowTypes.Proofs.RelatedSides

/-!
# Conflicts

A set is said to have a conflict if its equalities, in a chain, lead from one type to another with a
different head.  Solving it fails then, as long as the solver takes a chain for an equality.

It does not always.  It lets a string literal go with the type of strings, and a type with a union
that it is an alternative of, and neither can be passed on along a chain.  So two literals may be
said to be in conflict that both go with the type of strings, where there is a solution.  A solution
of what is said to have a conflict takes one of these liberties (`conflict?_eq_none_of_sharp`).
-/

namespace RowTypes

open Ty

/-! ## Heads -/

/-- What the head of a type tells of it. -/
inductive Outline where
  | var (id : Int)
  | prim (name : String)
  | lit (value : String)
  | fn
  | record
  | tuple (size : Nat)
  /-- It depends on what the type comes to. -/
  | vague
  deriving DecidableEq

namespace Ty

variable {row : Int → Prop} {S : Subst} {a b : Ty}

def outline : Ty → Outline
  | .var v => .var v.id
  | .prim name => .prim name
  | .lit value => .lit value
  | .fn .. => .fn
  | .record .. => .record
  | .tuple ts => .tuple ts.length
  | .named .. | .mu .. | .union _ | .inter _ => .vague

theorem outline_eq_of_equiv (h : a.equiv b = true) : a.outline = b.outline := by
  cases a with
  | var v => obtain ⟨w, rfl, hid⟩ := exists_var_of_equiv h; exact congrArg Outline.var hid
  | prim name => rw [eq_prim_of_equiv h]
  | lit value => rw [eq_lit_of_equiv h]
  | fn p q => obtain ⟨p', q', rfl, -⟩ := exists_fn_of_equiv h; rfl
  | record fs row => obtain ⟨gs, row', rfl⟩ := exists_record_of_equiv h; rfl
  | tuple ts =>
      obtain ⟨us, rfl, helems⟩ := exists_tuple_of_equiv h
      exact congrArg Outline.tuple helems.length_eq
  | union ts => obtain ⟨us, rfl, -⟩ := exists_union_of_equiv h; rfl
  | inter ts => obtain ⟨us, rfl, -⟩ := exists_inter_of_equiv h; rfl
  | named name args => obtain ⟨args', rfl, -⟩ := exists_named_of_equiv h; rfl
  | mu v t => obtain ⟨w, u, rfl⟩ := exists_mu_of_equiv h; rfl

/-- Only what is vague changes its head. -/
theorem outline_apply (h : a.isVague = false) : (S.apply a).outline = a.outline := by
  cases a with
  | prim name => rw [Subst.apply_prim]
  | lit value => rw [Subst.apply_lit]
  | fn p r => rw [Subst.apply_fn]; rfl
  | record fs rest =>
      obtain ⟨gs, rest', heq⟩ := S.exists_record_eq_apply fs rest
      rw [heq]
      rfl
  | tuple ts => rw [Subst.apply_tuple, outline, List.length_map]; rfl
  | _ => cases h

theorem outline_ne_of_clash (h : a.clash b = true) :
    a.isVague = false ∧ b.isVague = false ∧ a.outline ≠ b.outline := by
  cases a <;> cases b <;> simp_all [clash, isVague, outline]

/-- A literal goes with the type of strings. -/
def Loosens (a b : Ty) : Prop := ∃ value, a = .lit value ∧ b = .string

/-- Types that go together and are no unions have one head, or one of them is a literal
and the other the type of strings. -/
theorem outline_of_related (h : Related a b) : (∀ ts, a ≠ .union ts) → (∀ ts, b ≠ .union ts) →
    a.outline = b.outline ∨ a.Loosens b ∨ b.Loosens a := by
  refine h (fun a b => (∀ ts, a ≠ .union ts) → (∀ ts, b ≠ .union ts) →
    a.outline = b.outline ∨ a.Loosens b ∨ b.Loosens a) ?_
  constructor
  · exact fun h ha hb => (h hb ha).imp Eq.symm Or.symm
  · exact fun h _ _ => .inl (outline_eq_of_equiv h)
  · exact fun value _ _ => .inr (.inl ⟨value, rfl, rfl⟩)
  · exact fun _ _ _ _ => .inl rfl
  · exact fun h _ _ => .inl (congrArg Outline.tuple h.length_eq)
  · exact fun _ _ _ _ => .inl rfl
  · exact fun _ _ _ _ hb => absurd rfl (hb _)
  · exact fun _ _ ha => absurd rfl (ha _)

end Ty

namespace ConstraintSet

variable {row : Int → Prop} {s : ConstraintSet} {S : Subst} {a b : Ty}

/-! ## What a conflict comes from -/

theorem exists_clash (h : s.conflict?.isSome = true) :
    ∃ a b, s.propagate.Equates a b ∧ a.clash b = true := by
  obtain ⟨e, he⟩ := Option.isSome_iff_exists.1 h
  obtain ⟨c, hc, he⟩ := List.exists_of_findSome?_eq_some he
  obtain ⟨hc, -⟩ := mem_equalities.1 hc
  unfold sides? at he
  cases hd : c.demand with
  | equal a b =>
      rw [hd] at he
      dsimp only at he
      split at he
      · next hclash => exact ⟨a, b, ⟨c, hc, .inl hd⟩, hclash⟩
      · cases he
  | _ =>
      rw [hd] at he
      cases he

/-- Where the sides of each equality have one head in the end, there is no conflict. -/
theorem conflict?_eq_none (hS : S.Structural row) (hsides : ∀ a, s.HasSide a → a.Structural row)
    (houtline : ∀ a b, s.Equates a b → (S.apply a).outline = (S.apply b).outline) :
    s.conflict? = none := by
  by_contra hne
  obtain ⟨a, b, hab, hclash⟩ := exists_clash (Option.isSome_iff_ne_none.2 hne)
  have hlinked := linked_of_propagateWithin (fun a ha => (hsides a ha).tame) (fun _ _ => .one) a b hab
  obtain ⟨ha, hb, hdiffer⟩ := outline_ne_of_clash hclash
  have hsame : (S.apply b).outline = (S.apply a).outline := by
    refine hlinked.hands_on (P := fun t => (S.apply t).outline = (S.apply a).outline) ?_ ?_ rfl
    · exact fun x y hxy hx => (houtline x y hxy).symm.trans hx
    · intro x y hx hy hequiv h
      have hform := form_apply_congr hS (hsides x hx) (hsides y hy)
        (form_congr (hsides x hx).tame (hsides y hy).tame hequiv)
      exact (outline_eq_of_equiv ((form_eq_iff ((hsides x hx).apply hS).tame
        ((hsides y hy).apply hS).tame).1 hform)).symm.trans h
  rw [outline_apply ha, outline_apply hb] at hsame
  exact hdiffer hsame.symm

/-- A solution takes no liberties with the equalities of a set: none of their sides becomes a union,
nor does an alternative in them, and none is a literal while another is the type of strings. -/
structure Sharp (s : ConstraintSet) (S : Subst) : Prop where
  firm : ∀ a, s.HasSide a → a.Firm S
  single : ∀ a, s.HasSide a → ∀ ts, S.apply a ≠ .union ts
  narrow : ∀ a b, s.HasSide a → s.HasSide b → ¬ (S.apply a).Loosens (S.apply b)

theorem Sharp.of_sides {t : ConstraintSet} (h : t.Sharp S) (hside : ∀ {a}, s.HasSide a → t.HasSide a) :
    s.Sharp S where
  firm := fun a ha => h.firm a (hside ha)
  single := fun a ha => h.single a (hside ha)
  narrow := fun a b ha hb => h.narrow a b (hside ha) (hside hb)

theorem Sharp.outline (h : s.Sharp S) (hab : s.Equates a b)
    (hrelated : Related (S.apply a) (S.apply b)) : (S.apply a).outline = (S.apply b).outline := by
  rcases outline_of_related hrelated (h.single a hab.left) (h.single b hab.right) with
    hsame | hloosens | hloosens
  · exact hsame
  · exact absurd hloosens (h.narrow a b hab.left hab.right)
  · exact absurd hloosens (h.narrow b a hab.right hab.left)

end ConstraintSet

/-! ## Core types -/

section Core

variable {κ : Sorts} {isRow : Int → Prop} {S : Subst} {t : Ty} {n : Nat} {cs : ConstraintSet}

theorem Ty.Core.to_structural (h : t.Core κ) : t.Structural κ.isRow := by
  induction h with
  | var hv => exact .var hv
  | prim name => exact .prim name
  | fn _ _ ihp ihr => exact .fn ihp ihr
  | tuple _ ih => exact .tuple ih
  | record _ hasc hrow _ ih => exact .record hasc ih hrow

theorem Ty.Core.firm (h : t.Core κ) : t.Firm S := by
  induction h with
  | @var v _ => exact .var v
  | prim name => exact .prim name
  | fn _ _ ihp ihr => exact .fn ihp ihr
  | tuple _ ih => exact .tuple ih
  | record _ _ _ _ ih => exact .record _ ih

theorem ConstraintSet.Equalities.structured (h : cs.Equalities isRow n) : cs.Structured isRow n where
  structural := fun c hc t ht => (h.core c hc t ht).to_structural
  older := h.older

/-- Equalities between core types are solved without liberties. -/
theorem Session.sharp_of_equalities {σ : Session} {limit : Nat}
    (h : cs.Equalities isRow σ.supply.count)
    (hok : ((solve limit cs).run σ).1.failure = none) :
    cs.Sharp ((solve limit cs).run σ).1.subst := by
  have hsettled := (settled_solve limit (h.equational _) h.posed).2
  rw [hok] at hsettled
  have hside : ∀ a, cs.HasSide a → a.Core (ConstraintSet.sortsFrom isRow σ.supply.count) := by
    rintro a ⟨b, c, hc, hab⟩
    have ha := (ConstraintSet.types_of_relates hab).1
    exact (h.core c hc a ha).sortsFrom fun id hid => h.older id ⟨c, hc, a, ha, hid⟩
  have hresult := fun a ha => hsettled.solved.core.apply (hside a ha)
  refine ⟨fun a ha => (hside a ha).firm, fun a ha ts heq => ?_, ?_⟩
  · have := hresult a ha
    rw [heq] at this
    cases this
  · rintro a b ha - ⟨value, heq, -⟩
    have := hresult a ha
    rw [heq] at this
    cases this

end Core

/-! ## Solving sets with conflicts -/

namespace Session

variable {isRow : Int → Prop} {σ : Session} {cs cs' : ConstraintSet}

/-- A set has no conflict if what is met first can be met without liberties, in any order. -/
theorem conflict?_eq_none_of_sharp (limit : Nat) (hperm : cs'.items.Perm cs.items)
    (h : cs.foremost.Structured isRow σ.supply.count)
    (hok : ((solve limit cs'.foremost).run σ).1.failure = none)
    (hsharp : cs.Sharp ((solve limit cs'.foremost).run σ).1.subst) : cs.conflict? = none := by
  have h' := h.perm (ConstraintSet.perm_foremost hperm)
  have hequates : ∀ {a b}, cs'.foremost.Equates a b ↔ cs.Equates a b :=
    ConstraintSet.equates_foremost.trans (ConstraintSet.equates_perm hperm)
  have hside : ∀ {a}, cs'.foremost.HasSide a ↔ cs.HasSide a := exists_congr fun _ => hequates
  refine ConstraintSet.conflict?_eq_none (structural_solve limit h').structural
    (fun a ha => h'.side (hside.2 ha)) fun a b hab => ?_
  refine hsharp.outline hab (related_of_solve limit h' (fun c hc => ?_) hok ?_ (hequates.2 hab))
  · exact (ConstraintSet.mem_foremost.1 hc).2
  · exact fun a ha => hsharp.firm a (hside.1 ha)

/-- A set with a conflict cannot be solved in any order, if what is met first are equalities between
core types.  If other structural types are equated, a solution takes liberties with them.  Whatever
else is in the set, it makes no difference. -/
theorem failure_of_conflict (limit : Nat) (hperm : cs'.items.Perm cs.items)
    (hconflict : cs.conflict?.isSome = true) :
    (cs.foremost.Equalities isRow σ.supply.count →
      ((solve limit cs').run σ).1.failure.isSome = true) ∧
    (cs.foremost.Structured isRow σ.supply.count → ((solve limit cs').run σ).1.failure = none →
      ¬ cs.Sharp ((solve limit cs'.foremost).run σ).1.subst) := by
  have hliberties : cs.foremost.Structured isRow σ.supply.count →
      ((solve limit cs').run σ).1.failure = none →
      ¬ cs.Sharp ((solve limit cs'.foremost).run σ).1.subst := by
    intro h hok hsharp
    rw [conflict?_eq_none_of_sharp limit hperm h (failure_foremost hok) hsharp] at hconflict
    cases hconflict
  refine ⟨fun h => Option.isSome_iff_ne_none.2 fun hok => ?_, hliberties⟩
  have h' := h.perm (ConstraintSet.perm_foremost hperm)
  have hside : ∀ {a}, cs.HasSide a → cs'.foremost.HasSide a := fun ⟨b, hab⟩ =>
    ⟨b, ConstraintSet.equates_foremost.2 ((ConstraintSet.equates_perm hperm).2 hab)⟩
  exact hliberties h.structured hok ((sharp_of_equalities h' (failure_foremost hok)).of_sides hside)

/-- Two equalities. -/
def equated (a b c d : Ty) : ConstraintSet :=
  .ofList [.equal a b .inference {}, .equal c d .inference {}]

theorem items_equated {a b c d : Ty} (h : equalityDigest a b ≠ equalityDigest c d) :
    (equated a b c d).items = [.equal a b .inference {}, .equal c d .inference {}] := by
  refine ConstraintSet.items_ofList_of_nodup ?_
  rw [List.map_cons, List.map_cons, List.map_nil, List.nodup_cons, List.mem_singleton,
    Constraint.Relates.digest_eq (.inl rfl), Constraint.Relates.digest_eq (.inl rfl)]
  exact ⟨h, List.nodup_singleton _⟩

theorem types_equated {a b c d : Ty} {p : Ty → Prop} (h : ∀ t ∈ [a, b, c, d], p t)
    (hdigest : equalityDigest a b ≠ equalityDigest c d) :
    ∀ e ∈ (equated a b c d).foremost.items, ∀ t ∈ e.types, p t := by
  intro e he t ht
  have he := (ConstraintSet.mem_foremost.1 he).1
  rw [items_equated hdigest] at he
  refine h t ?_
  rcases List.mem_pair.1 he with rfl | rfl
  · exact List.mem_append_left [c, d] ht
  · exact List.mem_append_right [a, b] ht

/-- `t₁ ~ Int` and `t₁ ~ String`. -/
def numberAndText : ConstraintSet := equated (.var ⟨1, 0⟩) .int (.var ⟨1, 0⟩) .string

/-- `"a" ~ String` and `String ~ "b"`. -/
def textTwice : ConstraintSet := equated (.lit "a") .string .string (.lit "b")

theorem conflict?_numberAndText : numberAndText.conflict?.isSome = true := by cbv

theorem conflict?_textTwice : textTwice.conflict?.isSome = true := by cbv

theorem failure_textTwice : ((solve defaultLimit textTwice).run (sessionOf 0)).1.failure = none := by
  cbv

theorem equalities_numberAndText : numberAndText.foremost.Equalities (fun _ => False) 1 := by
  have hdigest : equalityDigest (.var ⟨1, 0⟩) .int ≠ equalityDigest (.var ⟨1, 0⟩) .string := by
    cbv; decide
  refine ⟨fun c hc => ?_, types_equated ?_ hdigest, ?_⟩
  · have hc := (ConstraintSet.mem_foremost.1 hc).1
    rw [numberAndText, items_equated hdigest] at hc
    rcases List.mem_pair.1 hc with rfl | rfl
    · exact ⟨_, _, rfl⟩
    · exact ⟨_, _, rfl⟩
  · simp only [List.forall_mem_cons]
    exact ⟨.var id, .prim _, .var id, .prim _, List.forall_mem_nil _⟩
  · rintro id ⟨c, hc, t, ht, hid⟩
    refine types_equated (p := fun t => ∀ id, t.Mentions id → id ≤ (1 : Nat)) ?_ hdigest c hc t ht id hid
    simp [int, string]

theorem structured_textTwice : textTwice.foremost.Structured (fun _ => False) 0 := by
  have hdigest : equalityDigest (.lit "a") .string ≠ equalityDigest .string (.lit "b") := by
    cbv; decide
  refine ⟨types_equated ?_ hdigest, ?_⟩
  · simp only [List.forall_mem_cons]
    exact ⟨.lit _, .prim _, .prim _, .lit _, List.forall_mem_nil _⟩
  · rintro id ⟨c, hc, t, ht, hid⟩
    refine types_equated (p := fun t => ∀ id, t.Mentions id → id ≤ (0 : Nat)) ?_ hdigest c hc t ht id hid
    simp [string]

/-- What is both `Int` and `String` has no solution.  But `"a"` and `"b"` both go with `String`, in
spite of the conflict. -/
theorem failure_of_conflict_textTwice :
    numberAndText.conflict?.isSome = true ∧
    ((solve defaultLimit numberAndText).run (sessionOf 1)).1.failure.isSome = true ∧
    textTwice.conflict?.isSome = true ∧
    ((solve defaultLimit textTwice).run (sessionOf 0)).1.failure = none ∧
    ¬ textTwice.Sharp ((solve defaultLimit textTwice.foremost).run (sessionOf 0)).1.subst :=
  ⟨conflict?_numberAndText,
    (failure_of_conflict defaultLimit (.refl _) conflict?_numberAndText).1 equalities_numberAndText,
    conflict?_textTwice, failure_textTwice,
    (failure_of_conflict defaultLimit (.refl _) conflict?_textTwice).2 structured_textTwice
      failure_textTwice⟩

end Session

end RowTypes
