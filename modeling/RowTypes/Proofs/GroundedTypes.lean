import RowTypes.Proofs.FormedTypes

/-!
# Recursive types that unfold to a head

Unfolding a recursive type puts it in for its binder.  If the binder stands at the head of the body,
below nothing but unions, intersections and other binders, then the recursive type stands there
again, and looking for a head never ends.  If it does not, the head that has to be looked through
gets lower with each unfolding.

For that to go on, no unfolding may move a binder to a head.  It would if the recursive type that is
put in had a free unknown at its head that a binder around it captures.  So no binder has the number
of a free unknown.

A type is grounded if no binder stands at the head of its body.
-/

namespace RowTypes

open Ty

namespace Ty

/-- A binder does not have the number of a free unknown, and does not stand at the head of its
body. -/
def Grounds (P : Int → Prop) (v : TyVar) (t : Ty) : Prop := ¬ P v.id ∧ ¬ t.Bare v.id

variable {P V : Int → Prop} {t : Ty} {v : TyVar} {id : Int}

/-- What stands at the head of a grounded type is free in it. -/
theorem Formed.of_bare (h : t.Formed (Grounds P) V) (hid : t.Bare id) : V id := by
  induction hid generalizing V with
  | var hv => exact hv ▸ formed_var.1 h
  | union ht _ ih => exact ih (formed_of (k := .union).1 h _ ht)
  | inter ht _ ih => exact ih (formed_of (k := .inter).1 h _ ht)
  | mu v hid ih =>
      obtain ⟨⟨-, hv⟩, ht⟩ := formed_mu.1 h
      refine (ih ht).resolve_left ?_
      rintro rfl
      exact hv hid

theorem Formed.mentions_of_bare (h : t.Formed (Grounds P) V) (hid : t.Bare id) :
    t.Mentions id := by
  induction hid generalizing V with
  | var hv => exact mentions_var.2 hv
  | union ht _ ih => exact mentions_union.2 ⟨_, ht, ih (formed_of (k := .union).1 h _ ht)⟩
  | inter ht _ ih => exact mentions_inter.2 ⟨_, ht, ih (formed_of (k := .inter).1 h _ ht)⟩
  | mu v hid ih =>
      obtain ⟨⟨-, hv⟩, ht⟩ := formed_mu.1 h
      refine mentions_mu.2 ⟨?_, ih ht⟩
      rintro rfl
      exact hv hid

/-- What a grounded type unfolds to is grounded: what is put in has no binder at its head, and so no
binder around can capture one. -/
theorem Formed.unfold (h : (Ty.mu v t).Formed (Grounds P) P) :
    (t.unfold v).Formed (Grounds P) P := by
  let S (s : Subst) : Prop := ∀ c u, s.get? c = some u → ∀ id, u.Bare id → P id
  have hS : ∀ s w, S s → S (s.erase w) := by
    intro s w hs c u hu
    rw [Subst.get?_erase] at hu
    split at hu
    · cases hu
    · exact hs c u hu
  have hM : ∀ s w b, S s → Grounds P w b → Grounds P w ((s.erase w).apply b) := by
    refine fun s w b hs hb => ⟨hb.1, fun hid => ?_⟩
    rcases bare_apply b hid with hid | ⟨c, u, -, hu, hid⟩
    · exact hb.2 hid
    · exact hb.1 (hS s w hs c u hu _ hid)
  refine (formed_mu.1 h).2.apply hS hM (fun c u hu id hid => ?_) (fun id hid hnone => ?_)
    fun id u hu => ?_
  · obtain ⟨-, rfl⟩ := Subst.eq_of_get?_single hu
    exact h.of_bare hid
  · refine hid.resolve_left ?_
    rintro rfl
    rw [Subst.get?_single, if_pos rfl, Subst.held_of_ne fun w h => by cases h] at hnone
    cases hnone
  · obtain ⟨-, rfl⟩ := Subst.eq_of_get?_single hu
    exact h

/-- Unfolding a grounded type brings its heads closer. -/
theorem Formed.tower_unfold_le (h : (Ty.mu v t).Formed (Grounds P) V) :
    (t.unfold v).tower ≤ t.tower := by
  refine tower_apply_le t fun id hid => ?_
  cases hu : (Subst.single v (.mu v t)).get? id with
  | none => rfl
  | some u =>
      obtain ⟨rfl, -⟩ := Subst.eq_of_get?_single hu
      exact absurd hid (formed_mu.1 h).1.2

/-- Refining passes on that a type is grounded. -/
theorem inherited_grounded : Inherited (Formed (Grounds P) P) where
  fields h := formed_record.1 h
  elems h := formed_tuple.1 h
  alternatives h := formed_of (k := .union).1 h
  unionOf _ h := formed_build (k := .union) h
  unfold h := h.unfold

end Ty

end RowTypes
