import RowTypes.Proofs.Substitutions
import RowTypes.Env

/-!
# The unknowns of schemes and environments

A scheme mentions the unknowns of its body that it is not closed over, and an environment those
that its schemes mention.  This is what the sets of free unknowns hold that generalizing looks at.
-/

namespace RowTypes

namespace VarSet

theorem has_erase (s : VarSet) (v w : TyVar) :
    (s.erase v).has w = true ↔ s.has w = true ∧ w.id ≠ v.id := by
  simp only [has, erase, List.any_eq_true, List.mem_filter, bne_iff_ne, beq_iff_eq]
  constructor
  · rintro ⟨x, ⟨hx, hne⟩, hid⟩
    exact ⟨⟨x, hx, hid⟩, hid ▸ hne⟩
  · rintro ⟨⟨x, hx, hid⟩, hne⟩
    exact ⟨x, ⟨hx, hid ▸ hne⟩, hid⟩

theorem has_foldl_erase (w : TyVar) : ∀ (vs : List TyVar) (s : VarSet),
    (vs.foldl erase s).has w = true ↔ s.has w = true ∧ ∀ v ∈ vs, v.id ≠ w.id
  | [], s => by simp
  | v :: vs, s => by
      rw [List.foldl_cons, has_foldl_erase w vs, has_erase, List.forall_mem_cons, and_assoc,
        ne_comm]

theorem has_union (w : TyVar) : ∀ t s : VarSet,
    (s.union t).has w = true ↔ s.has w = true ∨ t.has w = true
  | [], s => by simp [union, has]
  | v :: t, s => by
      have ih := has_union w t (insert v s)
      rw [union] at ih ⊢
      rw [List.foldl_cons, ih, has_insert, Bool.or_eq_true, or_comm (a := (v.id == w.id) = true),
        or_assoc]
      simp [has]

end VarSet

namespace Scheme

/-- The scheme is closed over the unknown of a number. -/
def Binds (s : Scheme) (id : Int) : Prop := id ∈ s.vars.map (·.id)

instance (s : Scheme) (id : Int) : Decidable (s.Binds id) :=
  inferInstanceAs (Decidable (id ∈ s.vars.map (·.id)))

theorem binds_iff {s : Scheme} {id : Int} : s.Binds id ↔ ∃ v ∈ s.vars, v.id = id := List.mem_map

/-- The unknown of a number is free in the scheme. -/
def Mentions (s : Scheme) (id : Int) : Prop := s.body.Mentions id ∧ ¬ s.Binds id

theorem has_free {s : Scheme} {w : TyVar} : s.free.has w = true ↔ s.Mentions w.id := by
  rw [free, VarSet.has_foldl_erase, Ty.has_free, Mentions, binds_iff]
  simp

theorem mentions_mono {t : Ty} {id : Int} : (mono t).Mentions id ↔ t.Mentions id := by
  simp [Mentions, Binds, mono]

theorem binds_generalize {t : Ty} {except : VarSet} {id : Int} :
    (generalize t except).Binds id ↔ t.Mentions id ∧ ¬ except.has ⟨id, 0⟩ = true := by
  have hhas : ∀ v : TyVar, v.id = id → except.has v = except.has ⟨id, 0⟩ := by
    rintro v rfl
    rfl
  rw [binds_iff]
  constructor
  · rintro ⟨v, hv, hid⟩
    obtain ⟨hfree, hnot⟩ := List.mem_filter.1 hv
    rw [hhas v hid] at hnot
    exact ⟨hid ▸ Ty.mentions_of_mem_free hfree, by simpa using hnot⟩
  · rintro ⟨hid, hnot⟩
    obtain ⟨v, hv, hvid⟩ := Ty.exists_mem_free hid
    refine ⟨v, List.mem_filter.2 ⟨hv, ?_⟩, hvid⟩
    rw [hhas v hvid]
    simpa using hnot

/-- Generalizing keeps the unknowns that it was told to. -/
theorem mentions_generalize {t : Ty} {except : VarSet} {id : Int} :
    (generalize t except).Mentions id ↔ t.Mentions id ∧ except.has ⟨id, 0⟩ = true := by
  rw [Mentions, binds_generalize]
  constructor
  · rintro ⟨hid, hnot⟩
    exact ⟨hid, by_contra fun hhas => hnot ⟨hid, hhas⟩⟩
  · rintro ⟨hid, hhas⟩
    exact ⟨hid, fun h => h.2 hhas⟩

end Scheme

theorem Subst.get?_without (id : Int) : ∀ (vs : List TyVar) (s : Subst),
    (s.without vs).get? id = if id ∈ vs.map (·.id) then none else s.get? id
  | [], s => by simp [without]
  | v :: vs, s => by
      have ih := get?_without id vs (s.erase v)
      rw [without] at ih ⊢
      rw [List.foldl_cons, ih, get?_erase]
      by_cases hid : id = v.id
      · simp [hid]
      · simp [hid]

theorem Subst.isEmpty_without {s : Subst} (h : s.isEmpty = true) :
    ∀ vs : List TyVar, (s.without vs).isEmpty = true
  | [] => h
  | v :: vs => by
      refine isEmpty_without ?_ vs
      rw [isEmpty, erase, List.isEmpty_iff.1 h]
      rfl

theorem Scheme.apply_of_isEmpty {s : Subst} (h : s.isEmpty = true) (p : Scheme) :
    p.apply s = p := by
  rw [apply, Subst.apply_of_isEmpty (Subst.isEmpty_without h p.vars)]

namespace Env

/-- The unknown of a number is free in a scheme of the environment. -/
def Mentions (e : Env) (id : Int) : Prop := ∃ entry ∈ e.schemes, entry.2.Mentions id

theorem has_free {e : Env} {w : TyVar} : e.free.has w = true ↔ e.Mentions w.id := by
  have general : ∀ (entries : Table String Scheme) (s : VarSet),
      (entries.foldl (fun s entry => s.union entry.2.free) s).has w = true ↔
        s.has w = true ∨ ∃ entry ∈ entries, entry.2.Mentions w.id := by
    intro entries
    induction entries with
    | nil => simp
    | cons entry entries ih =>
        intro s
        rw [List.foldl_cons, ih, VarSet.has_union, Scheme.has_free, List.exists_mem_cons_iff,
          or_assoc]
  rw [free, general]
  simp [VarSet.has, Mentions]

/-- A name that is given a scheme adds what the scheme mentions. -/
theorem mentions_bind {e : Env} {name : String} {s : Scheme} {id : Int}
    (h : (e.bind name s).Mentions id) : s.Mentions id ∨ e.Mentions id := by
  obtain ⟨entry, hentry, hid⟩ := h
  rcases Table.mem_insert hentry with rfl | hentry
  · exact .inl hid
  · exact .inr ⟨entry, hentry, hid⟩

theorem mentions_of_lookup? {e : Env} {name : String} {s : Scheme} {id : Int}
    (h : e.lookup? name = some s) (hid : s.Mentions id) : e.Mentions id :=
  ⟨(name, s), Table.mem_of_get? h, hid⟩

theorem binds_generalize {e : Env} {t : Ty} {id : Int} :
    (e.generalize t).Binds id ↔ t.Mentions id ∧ ¬ e.Mentions id := by
  rw [generalize, Scheme.binds_generalize, has_free]

theorem mentions_generalize {e : Env} {t : Ty} {id : Int} :
    (e.generalize t).Mentions id ↔ t.Mentions id ∧ e.Mentions id := by
  rw [generalize, Scheme.mentions_generalize, has_free]

/-- The unknowns of an environment after a substitution are those of its schemes after it. -/
theorem mentions_apply {e : Env} {s : Subst} {id : Int} :
    (e.apply s).Mentions id ↔ ∃ entry ∈ e.schemes, (entry.2.apply s).Mentions id := by
  unfold apply
  split
  · next hs =>
      refine exists_congr fun entry => and_congr_right fun _ => ?_
      rw [Scheme.apply_of_isEmpty hs]
  · simp [Mentions]

end Env

end RowTypes
