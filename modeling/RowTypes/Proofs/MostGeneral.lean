import Mathlib
import RowTypes.Proofs.Solving

/-!
# Most general unifiers

Solving a set of equalities between core types finds a most general unifier: what it finds makes
the two sides of each equality equivalent, and every unifier is an instance of it.  If it fails,
other than by exceeding its limit, then there is no unifier.

A unifier here is one that respects the records of the set: it gives a row no field that a record
with the row names itself, since such a field is lost when the row is spliced.  Which of the other
substitutions are found depends on the order of the constraints, so whether a set is solved at all
may depend on it too, where the set has no unifier.  And unifiers have no recursive types in them:
equivalence of those is not transitive.
-/

namespace RowTypes

open Equations

/-! ## Valuations as substitutions -/

namespace Valuation

variable {κ : Sorts} {θ θ' : Valuation} {t : Ty}

/-- What a type stands for depends on its unknowns only, and on these up to equivalence. -/
theorem form_congr (ht : t.Core κ)
    (h : ∀ id, t.Mentions id → (¬ κ.isRow id → (θ.ty id).form = (θ'.ty id).form) ∧
      (κ.isRow id → (θ.row id).toTy.form = (θ'.row id).toTy.form)) :
    θ.form t = θ'.form t := by
  induction ht with
  | @var v hv => exact (h v.id (Ty.mentions_var.2 rfl)).1 hv
  | prim name => rfl
  | fn hp hr ihp ihr =>
      refine (Ty.form_fn (θ.tame_under hp) (θ.tame_under hr) (θ'.tame_under hp)
        (θ'.tame_under hr)).2 ⟨ihp fun id hid => ?_, ihr fun id hid => ?_⟩
      · exact h id (Ty.mentions_fn.2 (.inl hid))
      · exact h id (Ty.mentions_fn.2 (.inr hid))
  | @tuple ts hts ih =>
      unfold form
      rw [under, under, underAll_eq_map, underAll_eq_map]
      exact Ty.form_tuple_map (fun t ht => θ.tame_under (hts t ht))
        (fun t ht => θ'.tame_under (hts t ht)) fun t ht =>
          ih t ht fun id hid => h id (Ty.mentions_tuple.2 ⟨t, ht, hid⟩)
  | @record fs row hrec hasc hrow hfs ih =>
      have hcore : (Ty.record fs row).Core κ := .record hrec hasc hrow hfs
      have hrest : (θ.rest row).rowId = (θ'.rest row).rowId ∧
          ∀ name, (θ.rest row).formAt name = (θ'.rest row).formAt name := by
        cases row with
        | none => exact ⟨rfl, fun _ => rfl⟩
        | some v =>
            have hv := (h v.id (Ty.mentions_record.2 (.inr ⟨v, rfl, rfl⟩))).2 (hrow v rfl)
            exact (RecordTy.form_toTy (θ.tame_row v.id) (θ'.tame_row v.id)).1 hv
      have hform := RecordTy.form_toTy (r := θ.record ⟨fs, row⟩) (q := θ'.record ⟨fs, row⟩)
        (θ.tame_under hcore) (θ'.tame_under hcore)
      refine hform.2 ⟨hrest.1, fun name => ?_⟩
      rw [formAt_record, formAt_record, hrest.2]
      congr 1
      show (Table.get? name fs).map θ.form = (Table.get? name fs).map θ'.form
      cases hf : Table.get? name fs with
      | none => rfl
      | some t =>
          have hmem := Table.mem_of_get? hf
          exact congrArg some (ih _ hmem fun id hid =>
            h id (Ty.mentions_record.2 (.inl ⟨_, hmem, hid⟩)))

open Classical in
/-- What the unknown of a number stands for, as a type. -/
noncomputable def image (κ : Sorts) (θ : Valuation) (id : Int) : Ty :=
  if κ.isRow id then (θ.row id).toTy else θ.ty id

/-- The valuation of some numbers, as a substitution. -/
noncomputable def toSubst (κ : Sorts) (θ : Valuation) (ids : List Int) : Subst :=
  .ofList (ids.map fun id => (⟨id, 0⟩, θ.image κ id))

theorem tame_image (id : Int) : (θ.image κ id).Tame := by
  unfold image
  split
  · exact θ.tame_row id
  · exact θ.tame_ty id

end Valuation

theorem Subst.get?_foldl_bind (f : Int → Ty) (id : Int) : ∀ (ids : List Int) (s : Subst),
    ((ids.map fun j => ((⟨j, 0⟩ : TyVar), f j)).foldl (fun s b => s.bind b.1 b.2) s).get? id =
      if id ∈ ids then held id (f id) else s.get? id
  | [], s => by simp
  | j :: ids, s => by
      rw [List.map_cons, List.foldl_cons, Subst.get?_foldl_bind f id ids, Subst.get?_bind]
      by_cases hj : id = j
      · subst hj
        simp
      · simp [hj]

namespace Valuation

variable {κ : Sorts} {θ : Valuation} {t : Ty} {ids : List Int}

theorem get?_toSubst (id : Int) :
    (θ.toSubst κ ids).get? id = if id ∈ ids then Subst.held id (θ.image κ id) else none :=
  Subst.get?_foldl_bind _ id ids .empty

theorem tame_toSubst {id : Int} {u : Ty} (h : (θ.toSubst κ ids).get? id = some u) : u.Tame := by
  rw [get?_toSubst] at h
  split at h
  · rw [(Subst.held_eq_some h).1]
    exact tame_image id
  · cases h

/-- A valuation as a substitution makes of a type what the type stands for. -/
theorem form_toSubst (ht : t.Core κ) (hids : ∀ id, t.Mentions id → id ∈ ids) :
    ((θ.toSubst κ ids).apply t).form = θ.form t := by
  rw [← Subst.form_valuation ht fun id u _ => tame_toSubst]
  refine form_congr ht fun id hid => ⟨fun hrow => ?_, fun hrow => ?_⟩
  · rw [Subst.ty_valuation fun u => tame_toSubst, get?_toSubst, if_pos (hids id hid), image,
      if_neg hrow]
    unfold Subst.held
    split
    · next w hw =>
        rw [hw]
        split
        · next hid => exact Ty.form_var.2 hid.symm
        · rfl
    · rfl
  · have hget : (θ.toSubst κ ids).get? id = some (θ.row id).toTy := by
      rw [get?_toSubst, if_pos (hids id hid), image, if_pos hrow]
      rfl
    rw [Subst.row_valuation fun u => tame_toSubst, hget]
    refine (RecordTy.form_toTy ?_ (θ.tame_row id)).2 ⟨rfl, fun name => ?_⟩
    · refine RecordTy.tame_splice List.Pairwise.nil (by intro f hf; cases hf) fun u hu => ?_
      cases hu
      exact θ.tame_row id
    · rw [RecordTy.formAt, RecordTy.field?]
      show Option.map _ (Table.get? name (Table.underlay [] (θ.row id).fields)) = _
      rw [Table.get?_underlay, Table.get?_nil, Option.none_or]
      rfl

end Valuation

/-! ## Unifiers of a set -/

namespace Subst

/-- No record of the type names a field of the record that its row is sent to. -/
inductive Clears (θ : Subst) : Ty → Prop where
  | var (v : TyVar) : Clears θ (.var v)
  | prim (name : String) : Clears θ (.prim name)
  | fn {p r : Ty} : Clears θ p → Clears θ r → Clears θ (.fn p r)
  | tuple {ts : List Ty} : (∀ t ∈ ts, Clears θ t) → Clears θ (.tuple ts)
  | record {fs : List (String × Ty)} {row : Option TyVar} :
      (∀ v gs rest, row = some v → θ.get? v.id = some (.record gs rest) →
        ∀ name ∈ Table.keys fs, Table.get? name gs = none) →
      (∀ f ∈ fs, Clears θ f.2) → Clears θ (.record fs row)

/-- The substitution makes the sides of each equality equivalent, and gives no row of a record a
field that the record names. -/
structure Unifies (θ : Subst) (cs : ConstraintSet) : Prop where
  equiv : ∀ c ∈ cs.items, ∀ a b, c.demand = .equal a b → (θ.apply a).equiv (θ.apply b) = true
  clears : ∀ c ∈ cs.items, ∀ t ∈ c.types, θ.Clears t

/-- Unknowns are sent to types without recursive ones in them. -/
def Plain (θ : Subst) : Prop := ∀ id t, θ.get? id = some t → t.Tame

theorem field?_splice_nil {v : TyVar} {bound : Option Ty} {name : String}
    (h : ∀ gs rest, bound = some (.record gs rest) → Table.get? name gs = none) :
    (RecordTy.splice [] v bound).field? name = none := by
  unfold RecordTy.splice RecordTy.field?
  split
  · rfl
  · rfl
  · next gs rest =>
      rw [Table.get?_underlay, Table.get?_nil, Option.none_or]
      exact h gs rest rfl
  · rfl

theorem Plain.respects {θ : Subst} (hθ : θ.Plain) {t : Ty} (h : θ.Clears t) :
    θ.valuation.Respects t := by
  induction h with
  | var v => exact .var v
  | prim name => exact .prim name
  | fn _ _ ihp ihr => exact .fn ihp ihr
  | tuple _ ih => exact .tuple ih
  | @record fs row hclear _ ih =>
      refine .record (fun name hname => ?_) ih
      cases row with
      | none => rfl
      | some v =>
          rw [Valuation.rest, row_valuation (hθ v.id)]
          exact field?_splice_nil fun gs rest hget => hclear v gs rest rfl hget name hname

end Subst

namespace ConstraintSet

/-- An unknown occurs in a constraint of the set. -/
def Mentions (cs : ConstraintSet) (id : Int) : Prop := ∃ c ∈ cs.items, ∃ t ∈ c.types, t.Mentions id

/-- All constraints are equalities between core types, with rows and other unknowns told apart by
their numbers, and of unknowns that have been given out. -/
structure Equalities (isRow : Int → Prop) (n : Nat) (cs : ConstraintSet) : Prop where
  equal : ∀ c ∈ cs.items, ∃ a b, c.demand = .equal a b
  core : ∀ c ∈ cs.items, ∀ t ∈ c.types, t.Core ⟨isRow, True⟩
  older : ∀ id, cs.Mentions id → id ≤ n

/-- The sorts where all unknowns that are still to be given out are rows. -/
def sortsFrom (isRow : Int → Prop) (n : Nat) : Sorts := ⟨fun id => isRow id ∨ (n : Int) < id, True⟩

theorem isRow_sortsFrom (isRow : Int → Prop) (n : Nat) (id : Int) (hid : n < id) :
    (sortsFrom isRow n).isRow id :=
  .inr hid

end ConstraintSet

theorem Ty.Core.sortsFrom {isRow : Int → Prop} {n : Nat} {t : Ty} (h : t.Core ⟨isRow, True⟩)
    (hle : ∀ id, t.Mentions id → id ≤ n) : t.Core (ConstraintSet.sortsFrom isRow n) := by
  induction h with
  | @var v hv =>
      have := hle v.id (Ty.mentions_var.2 rfl)
      exact .var fun hrow => hrow.elim hv (by omega)
  | prim name => exact .prim name
  | fn _ _ ihp ihr =>
      exact .fn (ihp fun id hid => hle id (Ty.mentions_fn.2 (.inl hid)))
        (ihr fun id hid => hle id (Ty.mentions_fn.2 (.inr hid)))
  | tuple _ ih =>
      exact .tuple fun t ht => ih t ht fun id hid => hle id (Ty.mentions_tuple.2 ⟨t, ht, hid⟩)
  | record _ hasc hrow _ ih =>
      exact .record trivial hasc (fun v hv => .inl (hrow v hv)) fun f hf =>
        ih f hf fun id hid => hle id (Ty.mentions_record.2 (.inl ⟨f, hf, hid⟩))

namespace ConstraintSet

section Equalities

variable {isRow : Int → Prop} {n : Nat} {cs : ConstraintSet}

theorem Equalities.mem_sides (h : cs.Equalities isRow n) {t : Ty} :
    t ∈ sides (Session.equationsOf cs.items) ↔ ∃ c ∈ cs.items, t ∈ c.types := by
  rw [Equations.mem_sides]
  constructor
  · rintro ⟨e, he, ht⟩
    obtain ⟨c, hc, he⟩ := Session.mem_equationsOf.1 he
    obtain ⟨a, b, hab⟩ := h.equal c hc
    rw [hab, Demand.equations, List.mem_singleton] at he
    refine ⟨c, hc, ?_⟩
    rw [Constraint.types, hab, Demand.types]
    rw [he] at ht
    rcases ht with rfl | rfl <;> simp
  · rintro ⟨c, hc, ht⟩
    obtain ⟨a, b, hab⟩ := h.equal c hc
    rw [Constraint.types, hab, Demand.types] at ht
    refine ⟨(a, b), Session.mem_equationsOf.2 ⟨c, hc, ?_⟩, by simpa using ht⟩
    rw [hab, Demand.equations]
    exact List.mem_singleton_self _

theorem Equalities.mentioned (h : cs.Equalities isRow n) {id : Int} :
    Mentioned (Session.equationsOf cs.items) id ↔ cs.Mentions id := by
  constructor
  · rintro ⟨t, ht, hid⟩
    obtain ⟨c, hc, ht⟩ := h.mem_sides.1 ht
    exact ⟨c, hc, t, ht, hid⟩
  · rintro ⟨c, hc, t, ht, hid⟩
    exact ⟨t, h.mem_sides.2 ⟨c, hc, ht⟩, hid⟩

theorem Equalities.equational (h : cs.Equalities isRow n) (κ : Sorts) :
    ∀ c ∈ cs.items, c.demand.Equational κ := by
  intro c hc
  obtain ⟨a, b, hab⟩ := h.equal c hc
  rw [hab]
  exact .equal a b

theorem Equalities.posed (h : cs.Equalities isRow n) :
    Posed (sortsFrom isRow n) n (Session.equationsOf cs.items) := by
  have holder : ∀ t ∈ sides (Session.equationsOf cs.items), ∀ id, t.Mentions id → id ≤ n :=
    fun t ht id hid => h.older id (h.mentioned.1 ⟨t, ht, hid⟩)
  refine ⟨fun t ht => ?_, holder, fun _ id hid => .inr hid⟩
  obtain ⟨c, hc, htc⟩ := h.mem_sides.1 ht
  exact (h.core c hc t htc).sortsFrom (holder t ht)

theorem Equalities.perm (h : cs.Equalities isRow n) {cs' : ConstraintSet}
    (hperm : cs'.items.Perm cs.items) : cs'.Equalities isRow n where
  equal := fun c hc => h.equal c (hperm.mem_iff.1 hc)
  core := fun c hc => h.core c (hperm.mem_iff.1 hc)
  older := fun id ⟨c, hc, t, ht, hid⟩ => h.older id ⟨c, hperm.mem_iff.1 hc, t, ht, hid⟩

end Equalities

end ConstraintSet

theorem Subst.Unifies.perm {θ : Subst} {cs cs' : ConstraintSet} (h : θ.Unifies cs)
    (hperm : cs'.items.Perm cs.items) : θ.Unifies cs' where
  equiv := fun c hc => h.equiv c (hperm.mem_iff.1 hc)
  clears := fun c hc => h.clears c (hperm.mem_iff.1 hc)

/-! ## Solving finds the most general one -/

section Generality

variable {isRow : Int → Prop} {n m : Nat} {cs : ConstraintSet} {s θ : Subst}

/-- A unifier of a set is a valuation that unifies its equations. -/
theorem Subst.Unifies.valuation (hu : θ.Unifies cs) (hθ : θ.Plain) (h : cs.Equalities isRow n) :
    θ.valuation.RespectsAll (Session.equationsOf cs.items) ∧
      θ.valuation.Unifies (Session.equationsOf cs.items) := by
  refine ⟨fun t ht => ?_, fun e he => ?_⟩
  · obtain ⟨c, hc, ht⟩ := h.mem_sides.1 ht
    exact hθ.respects (hu.clears c hc t ht)
  · have h₁ := h.posed.core e.1 (mem_sides.2 ⟨e, he, .inl rfl⟩)
    have h₂ := h.posed.core e.2 (mem_sides.2 ⟨e, he, .inr rfl⟩)
    have htame : ∀ {t : Ty}, ∀ id u, t.Mentions id → θ.get? id = some u → u.Tame :=
      fun id u _ => hθ id u
    obtain ⟨c, hc, he⟩ := Session.mem_equationsOf.1 he
    obtain ⟨a, b, hab⟩ := h.equal c hc
    rw [hab, Demand.equations, List.mem_singleton] at he
    subst he
    rw [Subst.form_valuation h₁ htame, Subst.form_valuation h₂ htame]
    exact Ty.form_congr (Subst.tame_apply h₁ htame) (Subst.tame_apply h₂ htame)
      (hu.equiv c hc a b hab)

/-- What solves the equations of a set makes their sides equivalent. -/
theorem Solves.equiv {κ : Sorts} {E : Equations} (hs : Solves κ n m E s) (hE : Posed κ n E)
    {e : Ty × Ty} (he : e ∈ E) : (s.apply e.1).equiv (s.apply e.2) = true := by
  have h₁ := hE.core e.1 (mem_sides.2 ⟨e, he, .inl rfl⟩)
  have h₂ := hE.core e.2 (mem_sides.2 ⟨e, he, .inr rfl⟩)
  have htame : ∀ {t : Ty}, ∀ id u, t.Mentions id → s.get? id = some u → u.Tame :=
    fun id u _ hu => (hs.solved.core id u hu).1.tame
  have hform := hs.sound s.valuation hs.solved.absorbs_valuation e he
  rw [Subst.form_valuation h₁ htame, Subst.form_valuation h₂ htame] at hform
  exact (Ty.form_eq_iff (Subst.tame_apply h₁ htame) (Subst.tame_apply h₂ htame)).1 hform

/-- Every unifier of a set factors through what solves its equations. -/
theorem Solves.factors (h : cs.Equalities isRow n)
    (hs : Solves (ConstraintSet.sortsFrom isRow n) n m (Session.equationsOf cs.items) s)
    (hθ : θ.Plain) (hu : θ.Unifies cs) :
    ∃ δ : Subst, ∀ t : Ty, t.Core (ConstraintSet.sortsFrom isRow n) →
      (∀ id, t.Mentions id → cs.Mentions id) →
        (δ.apply (s.apply t)).equiv (θ.apply t) = true := by
  obtain ⟨hr, hunifies⟩ := hu.valuation hθ h
  obtain ⟨θ', hagree, habs, -⟩ := hs.general θ.valuation hr hunifies
  -- What the result is over is finite: the unknowns of the set, and those made on the way.
  let ids : List Int := (Ty.frees (sides (Session.equationsOf cs.items))).map (·.id) ++
    (List.range (m + 1)).map fun k : Nat => (k : Int)
  have hset : ∀ id, cs.Mentions id → id ∈ ids := by
    intro id hid
    have hhas : (Ty.frees (sides (Session.equationsOf cs.items))).has ⟨id, 0⟩ = true :=
      Ty.has_frees.2 (h.mentioned.2 hid)
    obtain ⟨w, hw, hid⟩ := List.any_eq_true.1 hhas
    exact List.mem_append_left _ (List.mem_map.2 ⟨w, hw, by simpa using hid⟩)
  refine ⟨θ'.toSubst (ConstraintSet.sortsFrom isRow n) ids, fun t ht hmem => ?_⟩
  have hcore := hs.solved.core.apply ht
  have hids : ∀ id, (s.apply t).Mentions id → id ∈ ids := by
    intro id hid
    rcases Subst.mentions_or_of_apply hs.solved.core ht hid with hid | hid
    · exact hset id (hmem id hid)
    · rcases hs.inside id hid with hid | ⟨-, hlt, hle⟩
      · exact hset id (h.mentioned.1 hid)
      · refine List.mem_append_right _ (List.mem_map.2 ⟨id.toNat, ?_, by omega⟩)
        exact List.mem_range.2 (by omega)
  have htame : ∀ id u, t.Mentions id → θ.get? id = some u → u.Tame := fun id u _ => hθ id u
  refine (Ty.form_eq_iff (Subst.tame_apply hcore fun id u _ => Valuation.tame_toSubst)
    (Subst.tame_apply ht htame)).1 ?_
  calc ((θ'.toSubst _ ids).apply (s.apply t)).form
      = θ'.form (s.apply t) := Valuation.form_toSubst hcore hids
    _ = θ'.form t := habs.form_apply hs.solved.core ht
    _ = θ.valuation.form t := hagree.form_eq ht fun id hid => h.older id (hmem id hid)
    _ = (θ.apply t).form := Subst.form_valuation ht htame

end Generality

namespace Session

/-- A set of constraints is solved by its most general unifier, and failing to solve it, other
than by exceeding the limit, means that it has none. -/
structure MostGeneral (isRow : Int → Prop) (limit : Nat) (σ : Session) (cs : ConstraintSet) :
    Prop where
  /-- What is found makes the sides of each equality equivalent. -/
  sound : ∀ s, ((solve limit cs).run σ).1 = { subst := s } →
    ∀ c ∈ cs.items, ∀ a b, c.demand = .equal a b → (s.apply a).equiv (s.apply b) = true
  /-- Every unifier is what was found, followed by something, on each unknown and each row. -/
  general : ∀ s, ((solve limit cs).run σ).1 = { subst := s } →
    ∀ θ : Subst, θ.Plain → θ.Unifies cs → ∃ δ : Subst,
      (∀ v : TyVar, cs.Mentions v.id → ¬ isRow v.id →
        (δ.apply (s.apply (.var v))).equiv (θ.apply (.var v)) = true) ∧
      (∀ r : TyVar, cs.Mentions r.id → isRow r.id →
        (δ.apply (s.apply (.record [] (some r)))).equiv (θ.apply (.record [] (some r))) = true)
  /-- There is no unifier of what could not be solved within the limit. -/
  complete : ∀ e, ((solve limit cs).run σ).1.failure = some e → e.isInternal = false →
    ¬ ∃ θ : Subst, θ.Plain ∧ θ.Unifies cs
  /-- A set that has a unifier is solved in every order, unless the limit is exceeded. -/
  anyOrder : ∀ θ : Subst, θ.Plain → θ.Unifies cs →
    ∀ cs' : ConstraintSet, cs'.items.Perm cs.items →
      ∀ e, ((solve limit cs').run σ).1.failure = some e → e.isInternal = true

variable {isRow : Int → Prop} {σ : Session} {cs : ConstraintSet}

/-- Where there is a unifier, solving only fails by exceeding the limit. -/
theorem isInternal_of_unifies (limit : Nat) (h : cs.Equalities isRow σ.supply.count) {θ : Subst}
    (hθ : θ.Plain) (hu : θ.Unifies cs) {e : Diagnostic}
    (he : ((solve limit cs).run σ).1.failure = some e) : e.isInternal = true := by
  have hsettled := (settled_solve limit (h.equational _) h.posed).2
  rw [he] at hsettled
  obtain ⟨hr, hunifies⟩ := hu.valuation hθ h
  exact (hsettled θ.valuation hr hunifies).2 trivial

/-- Equalities are solved by a most general unifier. -/
theorem mostGeneral_solve (limit : Nat) (h : cs.Equalities isRow σ.supply.count) :
    MostGeneral isRow limit σ cs := by
  have hsettled := (settled_solve limit (h.equational _) h.posed).2
  have hsolves : ∀ s, ((solve limit cs).run σ).1 = { subst := s } →
      Solves (ConstraintSet.sortsFrom isRow σ.supply.count) σ.supply.count
        ((solve limit cs).run σ).2.supply.count (equationsOf cs.items) s := by
    intro s hs
    rw [hs] at hsettled
    exact hsettled
  refine ⟨fun s hs c hc a b hab => ?_, fun s hs θ hθ hu => ?_, fun e he hint => ?_,
    fun θ hθ hu cs' hperm e he => ?_⟩
  · refine (hsolves s hs).equiv h.posed (e := (a, b)) (mem_equationsOf.2 ⟨c, hc, ?_⟩)
    rw [hab]
    exact List.mem_singleton_self _
  · obtain ⟨δ, hδ⟩ := (hsolves s hs).factors h hθ hu
    refine ⟨δ, fun v hv hrow => ?_, fun r hr hrow => ?_⟩
    · refine hδ (.var v) (.var fun hv' => hv'.elim hrow ?_) fun id hid => ?_
      · have := h.older v.id hv
        omega
      · rw [← Ty.mentions_var.1 hid]
        exact hv
    · refine hδ _ (.record trivial List.Pairwise.nil ?_ (by intro f hf; cases hf)) fun id hid => ?_
      · rintro v ⟨⟩
        exact .inl hrow
      · rcases Ty.mentions_record.1 hid with ⟨f, hf, -⟩ | ⟨v, hv, hid⟩
        · cases hf
        · cases hv
          rw [← hid]
          exact hr
  · rintro ⟨θ, hθ, hu⟩
    have := isInternal_of_unifies limit h hθ hu he
    rw [hint] at this
    cases this
  · exact isInternal_of_unifies limit (h.perm hperm) hθ (hu.perm hperm) he

end Session

/-! ## What the order decides -/

namespace Session

/-- The session in which some unknowns have been given out. -/
def sessionOf (count : Nat) : Session := { supply := ⟨count⟩ }

/-- `{fs | t₁} ~ {a: n, b: Bool}` for some fields and a primitive `n`. -/
def pairOf (fs : List (String × Ty)) (n : String) : Constraint :=
  .equal (.record fs (some ⟨1, 0⟩)) (.record [("a", .prim n), ("b", .bool)] none) .unification {}

/-- `{a: Int | t₁} ~ {a: Int, b: Bool}`, which leaves `b` to the row. -/
def restOfPair : Constraint := pairOf [("a", .int)] "Int"

/-- `{| t₁} ~ {a: String, b: Bool}`, which gives both fields to the row. -/
def wholePair : Constraint := pairOf [] "String"

/-- `tᵢ ~ tⱼ`. -/
def alike (i j : Int) : Constraint := .equal (.var ⟨i, 0⟩) (.var ⟨j, 0⟩) .unification {}

theorem types_pairOf {fs : List (String × Ty)} {n : String} {t : Ty}
    (hfs : fs = [] ∨ fs = [("a", .int)]) (ht : t ∈ (pairOf fs n).types) :
    t.Core ⟨(· = 1), True⟩ ∧ ∀ id, t.Mentions id → id = 1 := by
  have hab : Table.Ascending [("a", Ty.prim n), ("b", Ty.bool)] :=
    List.pairwise_pair.2 (show "a" < "b" by decide)
  have hcases : t = .record fs (some ⟨1, 0⟩) ∨ t = .record [("a", .prim n), ("b", .bool)] none := by
    simpa [pairOf, Constraint.equal, Constraint.types, Demand.types] using ht
  rcases hcases with rfl | rfl
  · refine ⟨.record trivial ?_ (by simp) ?_, fun id hid => ?_⟩
    · rcases hfs with rfl | rfl <;> simp [Table.Ascending]
    · rcases hfs with rfl | rfl
      · simp
      · simp only [List.mem_singleton, forall_eq]
        exact .prim _
    · rcases hfs with rfl | rfl <;> simp [Ty.int] at hid <;> exact hid.symm
  · refine ⟨.record trivial hab (by simp) ?_, fun id hid => ?_⟩
    · simp only [List.mem_cons, List.not_mem_nil, or_false, forall_eq_or_imp, forall_eq]
      exact ⟨.prim _, .prim _⟩
    · simp [Ty.bool] at hid

theorem items_pairs :
    (ConstraintSet.ofList [restOfPair, wholePair]).items = [restOfPair, wholePair] ∧
    (ConstraintSet.ofList [wholePair, restOfPair]).items = [wholePair, restOfPair] := by
  constructor
  · cbv
  · cbv

theorem equalities_pairs {cs : ConstraintSet} (h : ∀ c ∈ cs.items, c = restOfPair ∨ c = wholePair) :
    cs.Equalities (· = 1) 1 := by
  have htypes : ∀ c ∈ cs.items, ∀ t ∈ c.types,
      t.Core ⟨(· = 1), True⟩ ∧ ∀ id, t.Mentions id → id = 1 := by
    intro c hc t ht
    rcases h c hc with rfl | rfl
    · exact types_pairOf (.inr rfl) ht
    · exact types_pairOf (.inl rfl) ht
  refine ⟨fun c hc => ?_, fun c hc t ht => (htypes c hc t ht).1, ?_⟩
  · rcases h c hc with rfl | rfl <;> exact ⟨_, _, rfl⟩
  · rintro id ⟨c, hc, t, ht, hid⟩
    rw [(htypes c hc t ht).2 id hid]
    decide

/-! Equivalence renames the binders of its left side only, so a type with a binder can be
equivalent to two that are not equivalent to a third together. -/

/-- The recursive types `μ a. (a → b)`, `μ b. (b → b)` and `μ a. (b → a)` for three unknowns. -/
def recursive : Subst :=
  .ofList [(⟨1, 0⟩, .mu ⟨4, 0⟩ (.fn (.var ⟨4, 0⟩) (.var ⟨5, 0⟩))),
    (⟨2, 0⟩, .mu ⟨5, 0⟩ (.fn (.var ⟨5, 0⟩) (.var ⟨5, 0⟩))),
    (⟨3, 0⟩, .mu ⟨4, 0⟩ (.fn (.var ⟨5, 0⟩) (.var ⟨4, 0⟩)))]

theorem items_alike :
    (ConstraintSet.ofList [alike 1 2, alike 3 2]).items = [alike 1 2, alike 3 2] := by cbv

theorem equalities_alike :
    (ConstraintSet.ofList [alike 1 2, alike 3 2]).Equalities (fun _ => False) 3 := by
  have htypes : ∀ c ∈ (ConstraintSet.ofList [alike 1 2, alike 3 2]).items, ∀ t ∈ c.types,
      ∃ v : TyVar, t = .var v ∧ v.id ≤ 3 := by
    rw [items_alike]
    simp [alike, Constraint.equal, Constraint.types, Demand.types]
  refine ⟨?_, fun c hc t ht => ?_, ?_⟩
  · rw [items_alike]
    simp [alike, Constraint.equal]
  · obtain ⟨v, rfl, -⟩ := htypes c hc t ht
    exact .var id
  · rintro id ⟨c, hc, t, ht, hid⟩
    obtain ⟨v, rfl, hv⟩ := htypes c hc t ht
    rw [← Ty.mentions_var.1 hid]
    exact hv

/-- No type is equivalent to `μ a. (a → b)` and to `μ a. (b → a)`. -/
theorem not_equiv_both (t : Ty) :
    ¬ (t.equiv (.mu ⟨4, 0⟩ (.fn (.var ⟨4, 0⟩) (.var ⟨5, 0⟩))) = true ∧
      t.equiv (.mu ⟨4, 0⟩ (.fn (.var ⟨5, 0⟩) (.var ⟨4, 0⟩))) = true) := by
  rintro ⟨h₁, h₂⟩
  cases t with
  | mu x t =>
      cases t with
      | fn p r =>
          cases p with
          | var p =>
              cases r with
              | var r =>
                  simp only [Ty.equiv, Ty.equivUnder, TyVar.sameUnder, List.lookup_cons,
                    List.lookup_nil, Bool.and_eq_true] at h₁ h₂
                  grind
              | _ => simp [Ty.equiv, Ty.equivUnder] at h₁
          | _ => simp [Ty.equiv, Ty.equivUnder] at h₁
      | _ => simp [Ty.equiv, Ty.equivUnder] at h₁
  | _ => simp [Ty.equiv, Ty.equivUnder] at h₁

theorem unifies_recursive : recursive.Unifies (ConstraintSet.ofList [alike 1 2, alike 3 2]) := by
  constructor
  · rw [items_alike]
    intro c hc a b hab
    rcases (by simpa using hc : c = _ ∨ c = _) with rfl | rfl <;> cases hab <;> cbv
  · intro c hc t ht
    rw [items_alike] at hc
    rcases (by simpa using hc : c = _ ∨ c = _) with rfl | rfl <;>
      rcases (by simpa [alike, Constraint.equal, Constraint.types, Demand.types] using ht :
        t = _ ∨ t = _) with rfl | rfl <;> exact .var _

theorem failure_eq_none {out : Solution} (h : out.failure.isSome = false) :
    out = { subst := out.subst } := by
  obtain ⟨subst, failure⟩ := out
  cases failure with
  | none => rfl
  | some e => cases h

/-- One order of a set is solved and the other one is not. -/
theorem solve_pairs :
    ((solve 250 (.ofList [wholePair, restOfPair])).run (sessionOf 1)).1.failure.isSome = false ∧
    ((solve 250 (.ofList [restOfPair, wholePair])).run (sessionOf 1)).1.failure.map
      Diagnostic.isInternal = some false := by
  constructor
  · cbv
  · cbv

theorem solve_alike :
    ((solve 250 (.ofList [alike 1 2, alike 3 2])).run (sessionOf 3)).1 =
      { subst := .ofList [(⟨1, 0⟩, .var ⟨2, 0⟩), (⟨3, 0⟩, .var ⟨2, 0⟩)] } := by cbv

/-- Of two orders of a set without a unifier, one is solved and the other is not; and a unifier
with recursive types need not factor through what is found. -/
theorem order_and_recursion_matter :
    (∃ cs cs' : ConstraintSet, cs.Equalities (· = 1) 1 ∧ cs'.items.Perm cs.items ∧
      (∃ s, ((solve 250 cs).run (sessionOf 1)).1 = { subst := s }) ∧
      ∃ e, ((solve 250 cs').run (sessionOf 1)).1.failure = some e ∧ e.isInternal = false) ∧
    ∃ (cs : ConstraintSet) (s θ : Subst), cs.Equalities (fun _ => False) 3 ∧ θ.Unifies cs ∧
      ((solve 250 cs).run (sessionOf 3)).1 = { subst := s } ∧
      ¬ ∃ δ : Subst, ∀ v : TyVar, cs.Mentions v.id →
        (δ.apply (s.apply (.var v))).equiv (θ.apply (.var v)) = true := by
  constructor
  · obtain ⟨hsolved, hfailed⟩ := solve_pairs
    refine ⟨.ofList [wholePair, restOfPair], .ofList [restOfPair, wholePair],
      equalities_pairs (by rw [items_pairs.2]; simp), ?_, ⟨_, failure_eq_none hsolved⟩,
      by simpa using hfailed⟩
    rw [items_pairs.1, items_pairs.2]
    exact List.Perm.swap _ _ _
  · refine ⟨_, _, recursive, equalities_alike, unifies_recursive, solve_alike, ?_⟩
    rintro ⟨δ, hδ⟩
    -- The first and the third unknown are one by what is found.
    have h₁ := hδ ⟨1, 0⟩ ⟨alike 1 2, by rw [items_alike]; simp, .var ⟨1, 0⟩,
      List.mem_cons_self, rfl⟩
    have h₃ := hδ ⟨3, 0⟩ ⟨alike 3 2, by rw [items_alike]; simp, .var ⟨3, 0⟩,
      List.mem_cons_self, rfl⟩
    exact not_equiv_both (δ.apply (.var ⟨2, 0⟩)) ⟨h₁, h₃⟩

/-- A row that is left one field has a unifier, and that is found. -/
theorem mostGeneral_restOfPair :
    (∃ θ : Subst, θ.Plain ∧ θ.Unifies (.ofList [restOfPair])) ∧
      MostGeneral (· = 1) 250 (sessionOf 1) (.ofList [restOfPair]) := by
  have hitems : (ConstraintSet.ofList [restOfPair]).items = [restOfPair] := by cbv
  refine ⟨⟨.single ⟨1, 0⟩ (.record [("b", .bool)] none), fun id t ht => ?_, ?_, ?_⟩,
    mostGeneral_solve 250 (equalities_pairs (by rw [hitems]; simp))⟩
  · rw [Subst.get?_single] at ht
    split at ht
    · cases ht
      refine .record _ (List.pairwise_singleton _ _) fun f hf => ?_
      rw [List.mem_singleton.1 hf]
      exact .prim _
    · cases ht
  · rw [hitems]
    intro c hc a b hab
    rw [List.mem_singleton.1 hc] at hab
    cases hab
    cbv
  · rw [hitems]
    intro c hc t ht
    rw [List.mem_singleton.1 hc] at ht
    rcases (by simpa [restOfPair, pairOf, Constraint.equal, Constraint.types, Demand.types] using ht :
      t = _ ∨ t = _) with rfl | rfl
    · refine .record (fun v gs rest hv hget name hname => ?_) (by simp; exact .prim _)
      cases hv
      cases hget
      rw [List.mem_singleton.1 hname]
      cbv
    · exact .record (by rintro v gs rest ⟨⟩) (by simp; exact ⟨.prim _, .prim _⟩)

end Session

end RowTypes
