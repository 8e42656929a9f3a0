import RowTypes.Proofs.FormedTypes
import RowTypes.Proofs.Runs
import RowTypes.Registry.Normalize
import RowTypes.Registry.Resolve

/-!
# Overt types

A type is overt if a constructor shows wherever its head is looked for.  It shows whatever the
unknowns stand for, so an overt type is still overt when they are replaced, and a recursive type of
an overt body unfolds to a constructor.  A definition with an overt body shows one whatever its
arguments are.

References are not overt, though some have a head: what a reference stands for depends on the named
types, and a definition that shows its parameter shows what is given for it.  So an overt type stays
overt when it is normalised, whatever becomes of the references inside.
-/

namespace RowTypes

namespace Ty

/-- A constructor shows wherever the head of a type is looked for. -/
inductive Overt : Ty → Prop where
  | prim (name : String) : Overt (.prim name)
  | lit (value : String) : Overt (.lit value)
  | fn (p q : Ty) : Overt (.fn p q)
  | record (fs : List (String × Ty)) (row : Option TyVar) : Overt (.record fs row)
  | tuple (ts : List Ty) : Overt (.tuple ts)
  | union {ts : List Ty} : (∀ t ∈ ts, Overt t) → Overt (.union ts)
  | inter {ts : List Ty} : (∀ t ∈ ts, Overt t) → Overt (.inter ts)
  | mu (v : TyVar) {t : Ty} : Overt t → Overt (.mu v t)

variable {t : Ty} {ts : List Ty} {k : Compound} {v : TyVar} {id : Int}

theorem overt_mu : (Ty.mu v t).Overt ↔ t.Overt :=
  ⟨fun h => by cases h; assumption, .mu v⟩

theorem overt_of : (k.of ts).Overt ↔ ∀ t ∈ ts, t.Overt := by
  cases k with
  | union => exact ⟨fun h => by cases h; assumption, .union⟩
  | inter => exact ⟨fun h => by cases h; assumption, .inter⟩

theorem overt_build (h : ∀ t ∈ ts, t.Overt) : (k.build ts).Overt :=
  Compound.build_of (fun _ => overt_of) h

theorem Overt.not_bare (h : t.Overt) : ¬ t.Bare id := by
  intro hid
  induction hid with
  | var _ => cases h
  | union ht _ ih => exact ih (overt_of (k := .union).1 h _ ht)
  | inter ht _ ih => exact ih (overt_of (k := .inter).1 h _ ht)
  | mu v _ ih => exact ih (overt_mu.1 h)

/-- Whatever unknowns stand for, the constructors show. -/
theorem Overt.apply (h : t.Overt) : ∀ s : Subst, (s.apply t).Overt := by
  have hof : ∀ {k : Compound} {ts : List Ty} {s : Subst}, (∀ t ∈ ts, t.Overt) →
      (∀ t ∈ ts, (s.apply t).Overt) → (s.apply (k.of ts)).Overt := by
    intro k ts s hts ih
    cases hs : s.isEmpty with
    | true =>
        rw [Subst.apply_of_isEmpty hs]
        exact overt_of.2 hts
    | false =>
        rw [Subst.apply_of hs]
        exact overt_build (List.forall_mem_map.2 ih)
  induction h with
  | prim name => intro s; rw [Subst.apply_prim]; exact .prim name
  | lit value => intro s; rw [Subst.apply_lit]; exact .lit value
  | fn p q => intro s; rw [Subst.apply_fn]; exact .fn _ _
  | record fs row =>
      intro s
      cases row with
      | none => rw [Subst.apply_closed]; exact .record _ _
      | some row => rw [Subst.apply_open]; exact .record _ _
  | tuple ts => intro s; rw [Subst.apply_tuple]; exact .tuple _
  | union hts ih => exact fun s => hof (k := .union) hts fun t ht => ih t ht s
  | inter hts ih => exact fun s => hof (k := .inter) hts fun t ht => ih t ht s
  | mu v _ ih => intro s; rw [Subst.apply_mu]; exact .mu v (ih _)

theorem Overt.unfold (h : t.Overt) (v : TyVar) : (Ty.unfold v t).Overt := h.apply _

/-- Unfolding a recursive type of an overt body brings its heads closer. -/
theorem Overt.tower_unfold_le (h : t.Overt) (v : TyVar) : (Ty.unfold v t).tower ≤ t.tower :=
  tower_apply_le t fun _ hid => absurd hid h.not_bare

end Ty

theorem Definition.overt_of_expand? {d : Definition} {args : List Ty} {t : Ty}
    (hd : d.body.Overt) (ht : d.expand? args = some t) : t.Overt := by
  unfold Definition.expand? at ht
  split at ht
  · cases ht
    exact hd.apply _
  · cases ht

namespace Registry

variable {r : Registry} {t : Ty}

/-- The search for a head ends at an overt type. -/
theorem isSome_head?_of_overt (h : t.Overt) : (r.head? t).isSome := by
  induction htower : t.tower using Nat.strong_induction_on generalizing t with
  | _ n ih =>
    subst htower
    rw [head?_step]
    cases h with
    | mu v h => exact ih _ (Nat.lt_succ_of_le (h.tower_unfold_le v)) (h.unfold v) rfl
    | _ => rfl

/-- The search for a head ends where the bodies of definitions and of recursive types are overt. -/
theorem isSome_head? (hr : ∀ name d, r.lookup? name = some d → d.body.Overt)
    (ht : ∀ v b, t = .mu v b → b.Overt) : (r.head? t).isSome := by
  rw [head?_step]
  cases t with
  | named name args =>
      dsimp only
      split
      · next u hu =>
          obtain ⟨d, hd, hu⟩ := Option.bind_eq_some_iff.1 hu
          exact isSome_head?_of_overt (Definition.overt_of_expand? (hr name d hd) hu)
      · rfl
  | mu v b => exact isSome_head?_of_overt ((ht v b rfl).unfold v)
  | _ => rfl

/-- Two references that stand for each other have no head. -/
theorem head?_of_circular {m n : String} {args args' : List Ty}
    (hm : r.expand? m args = some (.named n args'))
    (hn : r.expand? n args' = some (.named m args)) : r.head? (.named m args) = none := by
  cases hu : r.head? (.named m args) with
  | none => rfl
  | some u =>
      have hhead := head?_induction (r := r)
        (motive := fun t => t = .named m args ∨ t = .named n args')
        (by
          rintro name ts t (heq | heq) ht
          · cases heq
            rw [hm] at ht
            exact .inr (Option.some.inj ht).symm
          · cases heq
            rw [hn] at ht
            exact .inl (Option.some.inj ht).symm)
        (by rintro v t (heq | heq) <;> cases heq) (.inl rfl) hu
      rcases hhead with rfl | rfl
      · rw [expand?_of_head? hu] at hm
        cases hm
      · rw [expand?_of_head? hu] at hn
        cases hn

/-! ## Normal forms -/

section NormalForms

variable {onRef : String → List Ty → StateM Session (Option Ty)} {Q : Ty → Prop} {ts : List Ty}

theorem forall_normalizeAll (h : ∀ t ∈ ts, ∀ σ, Q ((normalizeWith onRef t).run σ).1) :
    ∀ σ, ∀ u ∈ ((normalizeAll onRef ts).run σ).1, Q u := by
  induction ts with
  | nil => exact fun _ => List.forall_mem_nil _
  | cons t ts ih =>
      intro σ
      obtain ⟨ht, hts⟩ := List.forall_mem_cons.1 h
      rw [normalizeAll, StateM.run_bind, StateM.run_bind]
      exact List.forall_mem_cons.2 ⟨ht σ, ih hts _⟩

/-- An overt type has an overt normal form. -/
theorem overt_normalizeWith (h : t.Overt) : ∀ σ, ((normalizeWith onRef t).run σ).1.Overt := by
  induction h with
  | prim name => intro σ; rw [normalizeWith]; exact .prim name
  | lit value => intro σ; rw [normalizeWith]; exact .lit value
  | fn p q => intro σ; rw [normalizeWith]; exact .fn _ _
  | record fs row => intro σ; rw [normalizeWith]; exact .record _ _
  | tuple ts => intro σ; rw [normalizeWith]; exact .tuple _
  | union _ ih =>
      intro σ
      rw [normalizeWith]
      exact Ty.overt_build (k := .union) (forall_normalizeAll ih σ)
  | inter _ ih =>
      intro σ
      rw [normalizeWith]
      exact Ty.overt_build (k := .inter) (forall_normalizeAll ih σ)
  | mu v _ ih => intro σ; rw [normalizeWith]; exact .mu v (ih σ)

end NormalForms

end Registry

/-! ## Annotations -/

mutual

/-- Whether a constructor shows wherever the head of the type that is written is looked for. -/
def TyExpr.isOvert : TyExpr → Bool
  | .name _ n _ => (Ty.primitive? n).isSome
  | .ref .. => false
  | .union _ es | .inter _ es => TyExpr.areOvert es
  | .missing | .fn .. | .record .. | .tuple .. | .lit .. => true

def TyExpr.areOvert : List TyExpr → Bool
  | [] => true
  | e :: es => TyExpr.isOvert e && TyExpr.areOvert es

end

/-- Whether a declaration shows a constructor wherever the head of the type that it declares, if any,
is looked for. -/
def Decl.isOvert : Decl → Bool
  | .type d => d.body.isOvert
  | .missing | .define _ | .expr .. => true

namespace Resolve

variable {r : Registry} {rules : ScopeRules}

mutual

theorem ends_resolve_overt : ∀ {e : TyExpr} {s : Resolving}, e.isOvert = true →
    Ends (resolve r rules e) s (fun t _ => t.Overt) fun _ _ => True
  | .missing, _, _ => by
      rw [resolve]
      exact ends_throw trivial
  | .name _ name args, _, h => by
      rw [TyExpr.isOvert] at h
      rw [resolve]
      split
      · next t ht =>
          split
          · unfold Ty.primitive? at ht
            split at ht
            · cases ht
              exact ends_pure (.prim name)
            · cases ht
          · exact ends_throw trivial
      · next hnone => rw [hnone] at h; cases h
  | .ref _ _, _, h => by cases h
  | .fn _ _ _, _, _ => by
      rw [resolve]
      exact ends_bind_of_forall fun _ _ => ends_bind_of_forall fun _ _ => ends_pure (.fn _ _)
  | .record _ _ _, _, _ => by
      rw [resolve]
      refine ends_bind_of_forall fun _ _ => ?_
      dsimp only
      split
      · exact ends_bind_of_forall fun _ _ => ends_pure (Ty.Overt.record _ _)
      · exact ends_pure (Ty.Overt.record _ _)
  | .tuple _ _, _, _ => by
      rw [resolve]
      exact ends_bind_of_forall fun _ _ => ends_pure (.tuple _)
  | .union _ es, _, h => by
      rw [TyExpr.isOvert] at h
      rw [resolve]
      refine Ends.bind ((ends_resolveAll_overt h).imp (fun ts _ hts => ?_) fun _ _ h => h)
      split
      · next t ht =>
          exact ends_pure (Ty.of_unionOf? (fun _ => Ty.overt_of (k := .union)) hts ht)
      · exact ends_throw trivial
  | .inter _ es, _, h => by
      rw [TyExpr.isOvert] at h
      rw [resolve]
      refine Ends.bind ((ends_resolveAll_overt h).imp (fun ts _ hts => ?_) fun _ _ h => h)
      split
      · next t ht =>
          have hinter : Ty.interOf ts = t := by rw [Ty.interOf, ht]; rfl
          exact ends_pure (hinter ▸ Ty.overt_build (k := .inter) hts)
      · exact ends_throw trivial
  | .lit _ value, _, _ => by
      rw [resolve]
      exact ends_pure (.lit value)

theorem ends_resolveAll_overt : ∀ {es : List TyExpr} {s : Resolving}, TyExpr.areOvert es = true →
    Ends (resolveAll r rules es) s (fun ts _ => ∀ t ∈ ts, t.Overt) fun _ _ => True
  | [], _, _ => by
      rw [resolveAll]
      exact ends_pure (List.forall_mem_nil _)
  | e :: es, _, h => by
      rw [TyExpr.areOvert, Bool.and_eq_true] at h
      rw [resolveAll]
      refine Ends.bind ((ends_resolve_overt h.1).imp (fun t _ ht => ?_) fun _ _ h => h)
      refine Ends.bind ((ends_resolveAll_overt h.2).imp (fun ts _ hts => ?_) fun _ _ h => h)
      exact ends_pure (List.forall_mem_cons.2 ⟨ht, hts⟩)

end

end Resolve

end RowTypes
