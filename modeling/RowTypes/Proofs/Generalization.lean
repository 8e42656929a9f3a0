import RowTypes.Proofs.Contexts

/-!
# Generalizing what a definition's constraints leave open

The type of a definition is closed over the unknowns that are free in it, but not in the
environment, once its constraints are met.  Two facts make this the right scheme, and both come
from what is found being most general.

Read by anything that meets the constraints, the scheme is one that the Damas–Milner system gives
the definition: the names it is closed over can be taken apart from all others.  And it is above
every scheme that the system gives the definition, as long as that reads the environment alike.
-/

namespace RowTypes

open Equations Milner

/-- Lists of things that are bounded one by one are bounded together. -/
theorem exists_bound {α : Type} {P : α → Int → Prop} : ∀ {l : List α},
    (∀ x ∈ l, ∃ B, ∀ a, P x a → a < B) → ∃ B, ∀ x ∈ l, ∀ a, P x a → a < B
  | [], _ => ⟨0, by simp⟩
  | x :: l, h => by
      obtain ⟨B, hB⟩ := h x List.mem_cons_self
      obtain ⟨C, hC⟩ := exists_bound fun y hy => h y (List.mem_cons_of_mem _ hy)
      refine ⟨max B C, fun y hy a ha => ?_⟩
      rcases List.mem_cons.1 hy with rfl | hy
      · exact lt_max_of_lt_left (hB a ha)
      · exact lt_max_of_lt_right (hC y hy a ha)

theorem Milner.Mono.exists_bound (τ : Mono Int) : ∃ B, ∀ a, τ.Occurs a → a < B := by
  induction τ using induct with
  | var a =>
      refine ⟨a + 1, ?_⟩
      rintro _ ⟨⟩
      omega
  | prim name => exact ⟨0, by rintro _ ⟨⟩⟩
  | fn p r ihp ihr =>
      obtain ⟨B, hB⟩ := ihp
      obtain ⟨C, hC⟩ := ihr
      refine ⟨max B C, ?_⟩
      rintro a (_ | h | h)
      · exact lt_max_of_lt_left (hB a h)
      · exact lt_max_of_lt_right (hC a h)
  | tuple ts ih =>
      obtain ⟨B, hB⟩ := RowTypes.exists_bound ih
      refine ⟨B, ?_⟩
      rintro a (_ | _ | _ | ⟨ht, h⟩)
      exact hB _ ht a h

/-- The unknowns of a scheme after a substitution, less those that it captures. -/
theorem Scheme.mentions_apply {p : Scheme} {σ : Subst} (hσ : σ.Core .simple) (hp : p.body.Simple)
    {id : Int} : (p.apply σ).Mentions id ↔
      ∃ j, p.Mentions j ∧ (σ.apply (.var ⟨j, 0⟩)).Mentions id ∧ ¬ p.Binds id := by
  have hget : ∀ j, (σ.without p.vars).get? j = if p.Binds j then none else σ.get? j :=
    fun j => Subst.get?_without j p.vars σ
  have hcore : (σ.without p.vars).Core .simple := by
    intro j u hu
    rw [hget] at hu
    split at hu
    · cases hu
    · exact hσ j u hu
  have hvar : ∀ {j}, ¬ p.Binds j →
      (σ.without p.vars).apply (.var ⟨j, 0⟩) = σ.apply (.var ⟨j, 0⟩) := by
    intro j hj
    rw [Subst.apply_var, Subst.apply_var, hget, if_neg hj]
  show ((σ.without p.vars).apply p.body).Mentions id ∧ ¬ p.Binds id ↔ _
  rw [Subst.mentions_apply_iff hcore hp]
  constructor
  · rintro ⟨⟨j, hj, hid⟩, hnot⟩
    have hbinds : ¬ p.Binds j := by
      intro hbinds
      rw [Subst.apply_var, hget, if_pos hbinds] at hid
      exact hnot (Ty.mentions_var.1 hid ▸ hbinds)
    rw [hvar hbinds] at hid
    exact ⟨j, ⟨hj, hbinds⟩, hid, hnot⟩
  · rintro ⟨j, ⟨hj, hbinds⟩, hid, hnot⟩
    rw [← hvar hbinds] at hid
    exact ⟨⟨j, hj, hid⟩, hnot⟩

namespace Env

variable {e : Env} {n m k : Nat} {R R₁ : Reading Int} {σ : Subst} {t : Ty} {E : Equations}

/-- Some distance moves finitely many names away from the free names of a context. -/
theorem Fits.exists_shift (h : e.Fits n) (R : Reading Int) (ids : List Int) :
    ∃ K : Int, ∀ id ∈ ids, ¬ (e.read R).Free (id + K) := by
  obtain ⟨B, hB⟩ := exists_bound (l := e.free) fun v _ => (R v.id).exists_bound
  obtain ⟨C, hC⟩ := exists_bound (l := ids) (P := fun id a => a = -id)
    fun id _ => ⟨-id + 1, fun a ha => by omega⟩
  refine ⟨B + C, fun id hid hfree => ?_⟩
  obtain ⟨j, hj, hocc⟩ := h.free_read.1 hfree
  obtain ⟨v, hv, hvj⟩ := List.any_eq_true.1 ((has_free (w := ⟨j, 0⟩)).2 hj)
  have hvj : v.id = j := by simpa using hvj
  have := hB v hv _ (hvj ▸ hocc)
  have := hC id hid _ rfl
  omega

/-- The unknowns of a definition: free in the environment, or made for it. -/
def Reaches (e : Env) (n m : Nat) (id : Int) : Prop := e.Mentions id ∨ (n < id ∧ id ≤ m)

/-- A definition whose constraints were met. -/
structure Defines (e : Env) (n m k : Nat) (E : Equations) (σ : Subst) (t : Ty) : Prop where
  fits : e.Fits n
  posed : Posed .simple m E
  solves : Solves .simple m k E σ
  simple : t.Simple
  reaches : ∀ id, t.Mentions id → e.Reaches n m id
  inside : ∀ id, Mentioned E id → e.Reaches n m id
  le : n ≤ m

/-- The scheme that a definition gets. -/
def closing (e : Env) (σ : Subst) (t : Ty) : Scheme := (e.apply σ).generalize (σ.apply t)

theorem binds_closing {id : Int} : (e.closing σ t).Binds id ↔
    (σ.apply t).Mentions id ∧ ¬ (e.apply σ).Mentions id := Env.binds_generalize

theorem mentions_closing {id : Int} : (e.closing σ t).Mentions id ↔
    (σ.apply t).Mentions id ∧ (e.apply σ).Mentions id := Env.mentions_generalize

section Defines

variable (h : Defines e n m k E σ t)
include h

theorem Defines.reaches_subst {id : Int} (hid : σ.Mentions id) : e.Reaches n m id :=
  h.inside id ((h.solves.inside id hid).resolve_right fun hrec => hrec.1)

theorem Defines.reaches_apply {u : Ty} (hu : u.Simple)
    (hreach : ∀ id, u.Mentions id → e.Reaches n m id) {id : Int}
    (hid : (σ.apply u).Mentions id) : e.Reaches n m id :=
  (Subst.mentions_or_of_apply h.solves.solved.core hu hid).elim (hreach id) h.reaches_subst

/-- What becomes of the environment's unknowns is what is free in the environment then. -/
theorem Defines.mentions_apply {id : Int} :
    (e.apply σ).Mentions id ↔ ∃ j, e.Mentions j ∧ (σ.apply (.var ⟨j, 0⟩)).Mentions id := by
  have hcore := h.solves.solved.core
  rw [Env.mentions_apply]
  constructor
  · rintro ⟨entry, hentry, hid⟩
    obtain ⟨j, hj, hid, -⟩ := (Scheme.mentions_apply hcore (h.fits.simple entry hentry)).1 hid
    exact ⟨j, ⟨entry, hentry, hj⟩, hid⟩
  · rintro ⟨j, ⟨entry, hentry, hj⟩, hid⟩
    refine ⟨entry, hentry,
      (Scheme.mentions_apply hcore (h.fits.simple entry hentry)).2 ⟨j, hj, hid, fun hbinds => ?_⟩⟩
    -- What an open scheme is closed over is old and free nowhere, so nothing is sent to it.
    obtain ⟨hle, hnot⟩ := h.fits.apart entry hentry ⟨j, hj⟩ id hbinds
    have hj' : ∀ i, (Ty.var ⟨j, 0⟩).Mentions i → e.Reaches n m i := by
      intro i hi
      rw [← Ty.mentions_var.1 hi]
      exact .inl ⟨entry, hentry, hj⟩
    rcases h.reaches_apply (Ty.simple_var _) hj' hid with hid | ⟨hlt, -⟩
    · exact hnot hid
    · omega

theorem Defines.reaches_env {id : Int} (hid : (e.apply σ).Mentions id) : e.Reaches n m id := by
  obtain ⟨j, hj, hid⟩ := h.mentions_apply.1 hid
  refine h.reaches_apply (Ty.simple_var _) (fun i hi => ?_) hid
  rw [← Ty.mentions_var.1 hi]
  exact .inl hj

/-- The environment with the definition is one that inference meets. -/
theorem Defines.fits_bind (name : String) : (e.bind name (e.closing σ t)).Fits m := by
  refine h.fits.bind h.le name (Subst.simple_apply h.solves.solved.core h.simple)
    (fun id hid => h.reaches_env (mentions_closing.1 hid).2) fun id hid => ?_
  obtain ⟨hid, hnot⟩ := binds_closing.1 hid
  refine ⟨?_, fun hmem => hnot (h.mentions_apply.2 ⟨id, hmem, ?_⟩)⟩
  · rcases h.reaches_apply h.simple h.reaches hid with hid | ⟨-, hle⟩
    · have := h.fits.older id hid
      have := h.le
      omega
    · exact hle
  · rw [Subst.apply_var, h.solves.solved.free_of_mentions h.simple hid]
    exact Ty.mentions_var.2 rfl

/-- What the definition is not closed over is read with names of the context. -/
theorem Defines.free_of_occurs (hR : R.Unifies E) {id a : Int} (hid : (e.apply σ).Mentions id)
    (ha : (R id).Occurs a) : (e.read R).Free a := by
  obtain ⟨j, hj, hid⟩ := h.mentions_apply.1 hid
  refine h.fits.free_read.2 ⟨j, hj, ?_⟩
  have hread : (σ.apply (.var ⟨j, 0⟩)).read R = R j :=
    congrFun (h.solves.reading_eq h.posed hR) j
  rw [← hread]
  exact (Ty.occurs_read (Subst.simple_apply h.solves.solved.core (Ty.simple_var _))).2
    ⟨id, hid, ha⟩

/-- Read by what meets its constraints, the scheme of a definition is above every scheme that
closes its type over names that are not free in the context. -/
theorem Defines.closing_above (hR : R.Unifies E) {A : List Int}
    (hA : ∀ a ∈ A, ¬ (e.read R).Free a) :
    ((e.closing σ t).read R).Above (.quantify A (t.read R)) := by
  intro τ hτ
  obtain ⟨r, rfl⟩ := Poly.instance_quantify.1 hτ
  have hsimple := Subst.simple_apply h.solves.solved.core h.simple
  have hread : t.read R = (σ.apply t).read R := by
    rw [Subst.read_apply R h.simple, h.solves.reading_eq h.posed hR]
  refine (Scheme.instance_read hsimple).2
    ⟨fun id => (R id).bind fun a => if a ∈ A then r a else .var a, ?_⟩
  rw [hread, Ty.bind_read _ _ hsimple]
  refine Ty.read_congr hsimple fun id hid => ?_
  split
  · rfl
  · next hbinds =>
      have hmem : (e.apply σ).Mentions id :=
        by_contra fun hnot => hbinds (binds_closing.2 ⟨hid, hnot⟩)
      refine (Mono.bind_congr _ fun a ha => ?_).trans (Mono.bind_var _)
      rw [if_neg fun hmemA => hA a hmemA (h.free_of_occurs hR hmem ha)]

/-- Read by what meets its constraints, the scheme of a definition is below one that closes over
names that are not free in the context, and the type of which the constraints give too. -/
theorem Defines.exists_above_closing (hR : R.Unifies E) :
    ∃ (R₁ : Reading Int) (A : List Int), R₁.Unifies E ∧ e.read R₁ = e.read R ∧
      (∀ a ∈ A, ¬ (e.read R).Free a) ∧
      Poly.Above (.quantify A (t.read R₁)) ((e.closing σ t).read R) := by
  have hcore := h.solves.solved.core
  have hsimple := Subst.simple_apply hcore h.simple
  obtain ⟨K, hK⟩ := h.fits.exists_shift R ((e.closing σ t).vars.map (·.id))
  -- The bound unknowns are read as names of their own, far from those of the context.
  let R₂ : Reading Int := fun id => if (e.closing σ t).Binds id then .var (id + K) else R id
  have hfixed : ∀ id, (e.apply σ).Mentions id → R₂ id = R id :=
    fun id hid => if_neg fun hbinds => (binds_closing.1 hbinds).2 hid
  refine ⟨σ.reading R₂, (e.closing σ t).vars.map fun v => v.id + K,
    h.solves.unifies_reading h.posed R₂, ?_, ?_, ?_⟩
  · refine h.fits.read_congr fun j hj => ?_
    calc σ.reading R₂ j
        = (σ.apply (.var ⟨j, 0⟩)).read R :=
          Ty.read_congr (Subst.simple_apply hcore (Ty.simple_var _)) fun id hid =>
            hfixed id (h.mentions_apply.2 ⟨j, hj, hid⟩)
      _ = R j := congrFun (h.solves.reading_eq h.posed hR) j
  · intro a ha
    obtain ⟨v, hv, rfl⟩ := List.mem_map.1 ha
    exact hK v.id (List.mem_map_of_mem hv)
  · intro τ hτ
    obtain ⟨r, rfl⟩ := (Scheme.instance_read hsimple).1 hτ
    refine Poly.instance_quantify.2 ⟨fun a => r (a - K), ?_⟩
    rw [← Subst.read_apply R₂ h.simple, Ty.bind_read _ _ hsimple]
    refine Ty.read_congr hsimple fun id hid => ?_
    by_cases hbinds : (e.closing σ t).Binds id
    · have hR₂ : R₂ id = .var (id + K) := if_pos hbinds
      obtain ⟨v, hv, hvid⟩ := Scheme.binds_iff.1 hbinds
      rw [hR₂, if_pos hbinds, Mono.bind, if_pos (List.mem_map.2 ⟨v, hv, by rw [hvid]⟩)]
      congr 1
      omega
    · have hmem : (e.apply σ).Mentions id :=
        by_contra fun hnot => hbinds (binds_closing.2 ⟨hid, hnot⟩)
      rw [hfixed id hmem, if_neg hbinds]
      refine ((Mono.bind_congr _ fun a ha => ?_).trans (Mono.bind_var _)).symm
      refine if_neg fun hmemA => ?_
      obtain ⟨v, hv, rfl⟩ := List.mem_map.1 hmemA
      exact hK v.id (List.mem_map_of_mem hv) (h.free_of_occurs hR hmem ha)

end Defines

end Env

end RowTypes
