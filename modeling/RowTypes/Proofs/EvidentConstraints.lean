import RowTypes.Proofs.Composition
import RowTypes.Proofs.ConstraintSets

/-!
# Constraints that hold by their form

Constraints that hold by their form alone are left out before any is met.  That is right only if
they go on holding under whatever is found later, although a substitution changes their form: it
may order, flatten and shorten the two sides of an equality differently, and it may close an open
record, after which the demand for a record does not hold by its form any more.

So the constraints are looked at that are met at once, without anything being found: those that
hold by their form, and the demand for a record made of a record of any kind.  A substitution
leaves these among themselves.  For equalities this rests on equivalent types staying equivalent,
and for records on a row being spliced or renamed and never taking the record's place.
-/

namespace RowTypes

open Ty

variable {c : Constraint} {cs : ConstraintSet} {s : Subst} {a b t : Ty} {σ : Session} {limit : Nat}

namespace Demand

variable {d : Demand}

/-- The demand asks for nothing that has to be found: two types are to go together that are
equivalent, a type is to be printable, or a record is to be a record. -/
inductive Evident : Demand → Prop where
  | equal {a b : Ty} : a.equiv b = true → Evident (.equal a b)
  | subtype {a b : Ty} : a.equiv b = true → Evident (.subtype a b)
  | printable (t : Ty) : Evident (.ofClass t printable)
  | record (fs : List (String × Ty)) (row : Option TyVar) : Evident (.recordShape (.record fs row))

theorem Evident.apply_empty (h : d.Evident) : (d.apply .empty).Evident := by
  cases h with
  | equal h => exact .equal (by rwa [Subst.apply_empty, Subst.apply_empty])
  | subtype h => exact .subtype (by rwa [Subst.apply_empty, Subst.apply_empty])
  | printable t => exact .printable _
  | record fs row =>
      show (Demand.recordShape (Subst.empty.apply (.record fs row))).Evident
      rw [Subst.apply_empty]
      exact .record fs row

/-- What is evident stays so under a substitution. -/
theorem Evident.apply (h : d.Evident) (htypes : ∀ t ∈ d.types, t.Plain)
    (hs : ∀ id u, s.get? id = some u → u.Plain) : (d.apply s).Evident := by
  cases h with
  | equal h =>
      exact .equal (equiv_apply hs (htypes _ (by simp [types])) (htypes _ (by simp [types])) h)
  | subtype h =>
      exact .subtype (equiv_apply hs (htypes _ (by simp [types])) (htypes _ (by simp [types])) h)
  | printable t => exact .printable _
  | record fs row =>
      show (Demand.recordShape (s.apply (.record fs row))).Evident
      cases row with
      | none =>
          rw [Subst.apply_closed]
          exact .record _ _
      | some v =>
          rw [Subst.apply_open]
          exact .record _ _

end Demand

namespace Constraint

/-- What holds by its form is evident. -/
theorem evident_of_isTrivial (h : c.isTrivial = true) : c.demand.Evident := by
  unfold isTrivial at h
  split at h
  · next heq => exact heq ▸ .equal h
  · next heq => exact heq ▸ .subtype h
  · next heq => exact heq ▸ beq_iff_eq.1 h ▸ .printable _
  · next heq => exact heq ▸ .record _ _
  · cases h

end Constraint

/-- A record is one already. -/
theorem Relate.recordShape_record (ctx : Context) (fs : List (String × Ty)) (row : Option TyVar) :
    recordShape ctx (.record fs row) = pure .empty := by
  rw [recordShape, head_record]
  rfl

namespace Session

/-- An evident constraint is met at once, and nothing is found. -/
theorem run_discharge_of_evident (h : c.demand.Evident) :
    (discharge limit c).run σ = (.ok .empty, σ) := by
  by_cases htrivial : c.isTrivial = true
  · rw [discharge, if_pos htrivial]
    rfl
  · obtain ⟨demand, origin, span⟩ := c
    cases h with
    | equal h => exact absurd h htrivial
    | subtype h => exact absurd h htrivial
    | printable t => exact absurd (beq_self_eq_true _) htrivial
    | record fs row =>
        rw [discharge, if_neg htrivial]
        show relating span (fun ctx => Relate.recordShape ctx (.record fs row)) σ = _
        simp only [Relate.recordShape_record]
        show (Except.ok Subst.empty, σ.afterRelating { supply := σ.supply }) = (.ok .empty, σ)
        rw [afterRelating_eq_self rfl rfl trivial]

/-- Evident constraints are all met, and nothing is found. -/
theorem run_solveInOrder_of_evident : ∀ {cs : List Constraint}, (∀ c ∈ cs, c.demand.Evident) →
    (solveInOrder limit cs [] .empty).run σ = ({ subst := .empty }, σ)
  | [], _ => rfl
  | c :: cs, h => by
      obtain ⟨hc, hcs⟩ := List.forall_mem_cons.1 h
      have hmet : (discharge limit (c.apply .empty)).run σ = (.ok .empty, σ) :=
        run_discharge_of_evident hc.apply_empty
      rw [run_solveInOrder, List.foldl_nil, hmet]
      exact run_solveInOrder_of_evident hcs

theorem run_solve_of_evident (h : ∀ c ∈ cs.items, c.demand.Evident) :
    (solve limit cs).run σ = ({ subst := .empty }, σ) :=
  run_solveInOrder_of_evident fun c hc => h c (ConstraintSet.mem_sorted_simplify.1 hc).1

/-- Constraints that hold by their form go on holding: under a substitution equivalent types stay
equivalent, solving what becomes of such constraints finds nothing and changes nothing, and so no
constraint is left out of a set that would have to be met. -/
theorem solve_apply_of_isTrivial (hs : ∀ id u, s.get? id = some u → u.Plain) :
    (∀ a b : Ty, a.Plain → b.Plain → a.equiv b = true → (s.apply a).equiv (s.apply b) = true) ∧
    (∀ c : Constraint, c.isTrivial = true → (∀ t ∈ c.types, t.Plain) → ∀ limit σ,
      (solve limit (.ofList [c.apply s])).run σ = ({ subst := .empty, failure := none }, σ)) ∧
    ∀ cs : ConstraintSet, (∀ c ∈ cs.items, ∀ t ∈ c.types, t.Plain) → ∀ c ∈ cs.items,
      c ∈ cs.simplify.items ∨ ∀ limit σ,
        (solve limit (.ofList [c.apply s])).run σ = ({ subst := .empty, failure := none }, σ) := by
  have hsolve : ∀ c : Constraint, c.isTrivial = true → (∀ t ∈ c.types, t.Plain) → ∀ limit σ,
      (solve limit (.ofList [c.apply s])).run σ = ({ subst := .empty, failure := none }, σ) := by
    intro c hc htypes limit σ
    refine run_solve_of_evident (List.forall_mem_singleton.2 ?_)
    exact (Constraint.evident_of_isTrivial hc).apply htypes hs
  refine ⟨fun a b ha hb => Ty.equiv_apply hs ha hb, hsolve, fun cs hplain c hc => ?_⟩
  cases htrivial : c.isTrivial with
  | true => exact .inr (hsolve c htrivial (hplain c hc))
  | false =>
      refine .inl ?_
      rw [ConstraintSet.simplify, ConstraintSet.items_filter]
      exact List.mem_filter.2 ⟨hc, by rw [htrivial, Bool.not_false]⟩

/-- Two unions whose sides become different lists, and an open record whose row turns out to be
empty, so that the demand for a record does not hold by its form any more. -/
theorem solve_apply_of_closed :
    let s := (Subst.empty.bind ⟨1, 0⟩ (.union [.string, .int])).bind ⟨2, 0⟩ (.record [] none)
    let a := Ty.union [.var ⟨1, 0⟩, .int]
    let b := Ty.union [.int, .var ⟨1, 0⟩]
    let c : Constraint := { demand := .recordShape (.record [("x", .var ⟨1, 0⟩)] (some ⟨2, 0⟩)) }
    (∀ id u, s.get? id = some u → u.Plain) ∧ a.Plain ∧ b.Plain ∧ (∀ t ∈ c.types, t.Plain) ∧
      s.apply a = .union [.string, .int] ∧ s.apply b = .union [.int, .string] ∧
      (s.apply a).equiv (s.apply b) = true ∧
      c.isTrivial = true ∧ (c.apply s).isTrivial = false ∧
      (solve 5 (.ofList [c.apply s])).run {} = ({ subst := .empty, failure := none }, {}) := by
  intro s a b c
  have hchoice : ∀ x y : Ty, x.Plain → y.Plain → [x, y].Pairwise (fun a b => equiv a b = false) →
      (∀ t ∈ [x, y], ∀ us, t ≠ .union us) → (Ty.union [x, y]).Plain := fun x y hx hy hxy hflat =>
    .union (by simp) (by simp [hx, hy]) hflat hxy
  have ha : a.Plain := hchoice _ _ (.var _) (.prim _) (by decide +kernel) (by simp [Ty.int])
  have hb : b.Plain := hchoice _ _ (.prim _) (.var _) (by decide +kernel) (by simp [Ty.int])
  have hrow : Ty.Plain (.record [("x", .var ⟨1, 0⟩)] (some ⟨2, 0⟩)) :=
    .record _ (List.pairwise_singleton _ _) (List.forall_mem_singleton.2 (.var _))
  have htypes : ∀ t ∈ c.types, t.Plain := List.forall_mem_singleton.2 hrow
  have hs : ∀ id u, s.get? id = some u → u.Plain := by
    have hcomposable : s.Composable (fun id => id = 2) :=
      (Subst.composable_empty.bind _ (hchoice _ _ (.prim _) (.prim _) (by decide +kernel)
        nofun) ⟨trivial, trivial, trivial⟩ (by simp)).bind _
          (.record _ .nil nofun) ⟨trivial, nofun⟩ (by simp)
    exact hcomposable.plain
  obtain ⟨hequiv, hsolve, -⟩ := solve_apply_of_isTrivial hs
  exact ⟨hs, ha, hb, htypes, by cbv, by cbv, hequiv a b ha hb (by decide +kernel), rfl, by cbv,
    hsolve c rfl htypes 5 {}⟩

end Session

end RowTypes
