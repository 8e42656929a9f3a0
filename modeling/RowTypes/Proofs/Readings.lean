import RowTypes.Proofs.Milner
import RowTypes.Proofs.Solving
import RowTypes.Env

/-!
# Reading types of unknowns

A reading says which type each unknown stands for.  Under a reading, a type of unknowns without
records is a type of the Damas–Milner system, a scheme is a scheme, and an environment is a
context.  Readings are valuations, so what solves equations can be said with readings alone:
a reading unifies the equations just in case it is unchanged by what solves them.
-/

namespace RowTypes

open Equations Milner

/-- No rows and no records. -/
def Sorts.simple : Sorts := ⟨fun _ => False, False⟩

theorem not_records_simple : ¬ Sorts.simple.records := id

/-- Types of unknowns, primitives, functions and tuples. -/
abbrev Ty.Simple (t : Ty) : Prop := t.Core .simple

/-- Which types unknowns stand for. -/
abbrev Reading (ν : Type) := Int → Mono ν

namespace Ty

variable {ν μ : Type}

mutual

/-- A type under a reading of its unknowns. Only types without records are read. -/
def read (R : Reading ν) : Ty → Mono ν
  | .var v => R v.id
  | .prim name => .prim name
  | .fn p r => .fn (read R p) (read R r)
  | .tuple ts => .tuple (readAll R ts)
  | _ => .tuple []

/-- Several types under a reading. -/
def readAll (R : Reading ν) : List Ty → List (Mono ν)
  | [] => []
  | t :: ts => read R t :: readAll R ts

end

-- The equations of reading are worked out here, before many proofs ask for them at once.
attribute [grind =] read readAll

theorem readAll_eq_map (R : Reading ν) (ts : List Ty) : readAll R ts = ts.map (read R) := by
  induction ts with
  | nil => rfl
  | cons t ts ih => rw [readAll, ih, List.map_cons]

theorem simple_var (v : TyVar) : (Ty.var v).Simple := .var id

theorem simple_curried {ts : List Ty} {t : Ty} (hts : ∀ u ∈ ts, u.Simple) (ht : t.Simple) :
    (curried ts t).Simple := by
  have hfoldr : ∀ us : List Ty, (∀ u ∈ us, u.Simple) → (us.foldr .fn t).Simple := by
    intro us hus
    induction us with
    | nil => exact ht
    | cons u us ih =>
        exact .fn (hus u List.mem_cons_self) (ih fun w hw => hus w (List.mem_cons_of_mem _ hw))
  cases ts with
  | nil => exact .fn (.prim _) ht
  | cons u us => exact hfoldr (u :: us) hts

theorem mentions_curried {ts : List Ty} {t : Ty} {id : Int} (h : (curried ts t).Mentions id) :
    (∃ u ∈ ts, u.Mentions id) ∨ t.Mentions id := by
  have hfoldr : ∀ us : List Ty, (us.foldr .fn t).Mentions id →
      (∃ u ∈ us, u.Mentions id) ∨ t.Mentions id := by
    intro us hus
    induction us with
    | nil => exact .inr hus
    | cons u us ih =>
        rcases mentions_fn.1 hus with hid | hid
        · exact .inl ⟨u, List.mem_cons_self, hid⟩
        · exact (ih hid).imp_left fun ⟨w, hw, hid⟩ => ⟨w, List.mem_cons_of_mem _ hw, hid⟩
  cases ts with
  | nil => exact .inr ((mentions_fn.1 h).resolve_left mentions_prim)
  | cons u us => exact hfoldr (u :: us) h

theorem read_curried (R : Reading ν) (ts : List Ty) (t : Ty) :
    (curried ts t).read R = .curried (ts.map (read R)) (t.read R) := by
  have hfoldr : ∀ us : List Ty,
      (us.foldr .fn t).read R = (us.map (read R)).foldr .fn (t.read R) := by
    intro us
    induction us with
    | nil => rfl
    | cons u us ih => rw [List.foldr_cons, read, ih, List.map_cons, List.foldr_cons]
  cases ts with
  | nil => rfl
  | cons u us => exact hfoldr (u :: us)

variable {t : Ty}

theorem read_congr {R R' : Reading ν} (ht : t.Simple) (h : ∀ id, t.Mentions id → R id = R' id) :
    t.read R = t.read R' := by
  induction ht with
  | @var v _ => exact h v.id (mentions_var.2 rfl)
  | prim name => rfl
  | fn _ _ ihp ihr =>
      rw [read, read, ihp fun id hid => h id (mentions_fn.2 (.inl hid)),
        ihr fun id hid => h id (mentions_fn.2 (.inr hid))]
  | tuple _ ih =>
      rw [read, read, readAll_eq_map, readAll_eq_map]
      exact congrArg Mono.tuple (List.map_congr_left fun t ht =>
        ih t ht fun id hid => h id (mentions_tuple.2 ⟨t, ht, hid⟩))
  | record hrec _ _ _ _ => cases hrec

theorem bind_read (R : Reading ν) (f : ν → Mono μ) (ht : t.Simple) :
    (t.read R).bind f = t.read fun id => (R id).bind f := by
  induction ht with
  | var _ => rfl
  | prim name => rfl
  | fn _ _ ihp ihr => rw [read, read, Mono.bind, ihp, ihr]
  | tuple _ ih =>
      rw [read, read, readAll_eq_map, readAll_eq_map, Mono.bind, Mono.bindAll_eq_map, List.map_map]
      exact congrArg Mono.tuple (List.map_congr_left ih)
  | record hrec _ _ _ _ => cases hrec

theorem occurs_read {R : Reading ν} {a : ν} (ht : t.Simple) :
    (t.read R).Occurs a ↔ ∃ id, t.Mentions id ∧ (R id).Occurs a := by
  induction ht with
  | @var v _ =>
      constructor
      · exact fun h => ⟨v.id, mentions_var.2 rfl, h⟩
      · rintro ⟨id, hid, h⟩
        rw [← mentions_var.1 hid] at h
        exact h
  | prim name =>
      constructor
      · rintro ⟨⟩
      · rintro ⟨id, hid, _⟩
        exact absurd hid mentions_prim
  | fn _ _ ihp ihr =>
      rw [read]
      constructor
      · rintro (_ | h | h)
        · obtain ⟨id, hid, h⟩ := ihp.1 h
          exact ⟨id, mentions_fn.2 (.inl hid), h⟩
        · obtain ⟨id, hid, h⟩ := ihr.1 h
          exact ⟨id, mentions_fn.2 (.inr hid), h⟩
      · rintro ⟨id, hid, h⟩
        rcases mentions_fn.1 hid with hid | hid
        · exact .param (ihp.2 ⟨id, hid, h⟩)
        · exact .result (ihr.2 ⟨id, hid, h⟩)
  | tuple _ ih =>
      rw [read, readAll_eq_map]
      constructor
      · rintro (_ | _ | _ | ⟨hmem, h⟩)
        obtain ⟨t, ht, rfl⟩ := List.mem_map.1 hmem
        obtain ⟨id, hid, h⟩ := (ih t ht).1 h
        exact ⟨id, mentions_tuple.2 ⟨t, ht, hid⟩, h⟩
      · rintro ⟨id, hid, h⟩
        obtain ⟨t, ht, hid⟩ := mentions_tuple.1 hid
        exact .elem (List.mem_map_of_mem ht) ((ih t ht).2 ⟨id, hid, h⟩)
  | record hrec _ _ _ _ => cases hrec

end Ty

/-! ## Readings after substitutions -/

namespace Subst

variable {ν : Type} {s : Subst} {t : Ty}

/-- A reading of what a substitution makes of unknowns. -/
def reading (s : Subst) (R : Reading ν) : Reading ν := fun id => (s.apply (.var ⟨id, 0⟩)).read R

theorem reading_of_none {R : Reading ν} {id : Int} (h : s.get? id = none) :
    s.reading R id = R id := by
  rw [reading, apply_var, h]
  rfl

theorem reading_of_some {R : Reading ν} {id : Int} (h : s.get? id = some t) :
    s.reading R id = t.read R := by
  rw [reading, apply_var, h]
  rfl

/-- Binding an unknown changes how it is read, also where the binding is to itself. -/
theorem reading_bind (s : Subst) (v : TyVar) (t : Ty) (R : Reading ν) (id : Int) :
    (s.bind v t).reading R id = if id = v.id then t.read R else s.reading R id := by
  have hget := get?_bind s v t id
  split
  · next hid =>
      rw [if_pos hid] at hget
      unfold held at hget
      split at hget
      · next w =>
          split at hget
          · next hw =>
              rw [reading_of_none hget, Ty.read, hw, hid]
          · exact reading_of_some hget
      · exact reading_of_some hget
  · next hid =>
      rw [if_neg hid] at hget
      unfold reading
      rw [apply_var, apply_var, hget]

/-- Applying a substitution and reading is reading what it makes of the unknowns. -/
theorem read_apply (R : Reading ν) (ht : t.Simple) :
    (s.apply t).read R = t.read (s.reading R) := by
  induction ht with
  | @var v _ =>
      rw [Ty.read, apply_var]
      cases h : s.get? v.id with
      | none => exact (reading_of_none h).symm
      | some u => exact (reading_of_some h).symm
  | prim name => rw [apply_prim]; rfl
  | fn _ _ ihp ihr => rw [apply_fn, Ty.read, Ty.read, ihp, ihr]
  | tuple _ ih =>
      rw [apply_tuple, Ty.read, Ty.read, Ty.readAll_eq_map, Ty.readAll_eq_map, List.map_map]
      exact congrArg Mono.tuple (List.map_congr_left ih)
  | record hrec _ _ _ _ => cases hrec

theorem simple_apply (hs : s.Core .simple) (ht : t.Simple) : (s.apply t).Simple := hs.apply ht

/-- The unknowns of a type after a substitution are those of what becomes of its unknowns. -/
theorem mentions_apply_iff (hs : s.Core .simple) (ht : t.Simple) {id : Int} :
    (s.apply t).Mentions id ↔
      ∃ j, t.Mentions j ∧ (s.apply (.var ⟨j, 0⟩)).Mentions id := by
  have hself : ∀ {u : Ty}, u.Simple → ((u.read Mono.var).Occurs id ↔ u.Mentions id) := by
    intro u hu
    rw [Ty.occurs_read hu]
    constructor
    · rintro ⟨j, hj, ⟨⟩⟩
      exact hj
    · exact fun h => ⟨id, h, .var⟩
  rw [← hself (simple_apply hs ht), read_apply _ ht, Ty.occurs_read ht]
  refine exists_congr fun j => and_congr_right fun _ => ?_
  exact hself (simple_apply hs (Ty.simple_var _))

end Subst

/-! ## Readings as valuations -/

namespace Milner.Mono

theorem toTyAll_eq_map (ts : List (Mono Int)) : toTyAll ts = ts.map toTy := by
  induction ts with
  | nil => rfl
  | cons t ts ih => rw [toTyAll, ih, List.map_cons]

theorem simple_toTy (τ : Mono Int) : τ.toTy.Simple := by
  induction τ using induct with
  | var a => exact Ty.simple_var _
  | prim name => exact .prim name
  | fn p r ihp ihr => exact .fn ihp ihr
  | tuple ts ih =>
      rw [toTy, toTyAll_eq_map]
      refine .tuple fun t ht => ?_
      obtain ⟨u, hu, rfl⟩ := List.mem_map.1 ht
      exact ih u hu

theorem read_toTy (τ : Mono Int) : τ.toTy.read Mono.var = τ := by
  induction τ using induct with
  | var a => rfl
  | prim name => rfl
  | fn p r ihp ihr => rw [toTy, Ty.read, ihp, ihr]
  | tuple ts ih =>
      rw [toTy, toTyAll_eq_map, Ty.read, Ty.readAll_eq_map, List.map_map]
      exact congrArg tuple ((List.map_congr_left ih).trans (List.map_id ts))

end Milner.Mono

/-- Types that are equivalent are read alike. -/
theorem Ty.read_eq_of_equiv {ν : Type} {R : Reading ν} {a : Ty} (ha : a.Simple) :
    ∀ {b : Ty}, b.Simple → a.equiv b = true → a.read R = b.read R := by
  induction ha with
  | @var v _ =>
      intro b _ h
      obtain ⟨w, rfl, hid⟩ := exists_var_of_equiv h
      exact congrArg R hid
  | prim name =>
      intro b _ h
      rw [eq_prim_of_equiv h]
  | fn _ _ ihp ihr =>
      intro b hb h
      obtain ⟨p', r', rfl, hp, hr⟩ := exists_fn_of_equiv h
      cases hb with
      | fn hp' hr' => rw [Ty.read, Ty.read, ihp hp' hp, ihr hr' hr]
  | @tuple as has ih =>
      intro b hb h
      obtain ⟨bs, rfl, helems⟩ := exists_tuple_of_equiv h
      cases hb with
      | tuple hbs =>
          rw [Ty.read, Ty.read, Ty.readAll_eq_map, Ty.readAll_eq_map]
          exact congrArg Mono.tuple
            (map_eq_map_of_forall₂ helems fun a ha b hb => ih a ha (hbs b hb))
  | record hrec _ _ _ _ => cases hrec

namespace Reading

/-- A reading as a valuation, under which no row stands for anything. -/
def valuation (R : Reading Int) : Valuation where
  ty := fun id => (R id).toTy
  row := fun _ => {}
  tame_ty := fun id => (R id).simple_toTy.tame
  tame_row := fun _ => .record _ List.Pairwise.nil (by intro f hf; cases hf)

variable {R : Reading Int} {E F : Equations} {s : Subst} {t : Ty} {n m : Nat}

theorem under_valuation (ht : t.Simple) : R.valuation.under t = (t.read R).toTy := by
  induction ht with
  | var _ => rfl
  | prim name => rfl
  | fn _ _ ihp ihr => rw [Valuation.under, Ty.read, Mono.toTy, ihp, ihr]
  | tuple _ ih =>
      rw [Valuation.under, Ty.read, Mono.toTy, Valuation.underAll_eq_map, Ty.readAll_eq_map,
        Mono.toTyAll_eq_map, List.map_map]
      exact congrArg Ty.tuple (List.map_congr_left ih)
  | record hrec _ _ _ _ => cases hrec

/-- Types have the same form under a reading if they are read alike. -/
theorem form_valuation {a b : Ty} (ha : a.Simple) (hb : b.Simple) :
    R.valuation.form a = R.valuation.form b ↔ a.read R = b.read R := by
  unfold Valuation.form
  rw [under_valuation ha, under_valuation hb]
  constructor
  · intro h
    have hequiv := (Ty.form_eq_iff (Mono.simple_toTy _).tame (Mono.simple_toTy _).tame).1 h
    have hread :=
      Ty.read_eq_of_equiv (R := Mono.var) (Mono.simple_toTy _) (Mono.simple_toTy _) hequiv
    rwa [Mono.read_toTy, Mono.read_toTy] at hread
  · intro h
    rw [h]

/-- The reading makes both sides of each equation one. -/
def Unifies (R : Reading Int) (E : Equations) : Prop := ∀ e ∈ E, e.1.read R = e.2.read R

theorem unifies_nil : R.Unifies [] := by
  intro eq heq
  cases heq

theorem unifies_pair {a b : Ty} : R.Unifies [(a, b)] ↔ a.read R = b.read R := by
  simp [Unifies]

theorem unifies_cons {eq : Ty × Ty} :
    R.Unifies (eq :: E) ↔ eq.1.read R = eq.2.read R ∧ R.Unifies E := List.forall_mem_cons

theorem unifies_append : R.Unifies (E ++ F) ↔ R.Unifies E ∧ R.Unifies F := List.forall_mem_append

theorem unifies_valuation (hE : ∀ t ∈ sides E, t.Simple) :
    R.valuation.Unifies E ↔ R.Unifies E := by
  refine forall_congr' fun e => forall_congr' fun he => ?_
  exact form_valuation (hE _ (mem_sides.2 ⟨e, he, .inl rfl⟩)) (hE _ (mem_sides.2 ⟨e, he, .inr rfl⟩))

theorem absorbs_valuation (hs : s.Core .simple) :
    R.valuation.Absorbs .simple s ↔ ∀ id t, s.get? id = some t → t.read R = R id := by
  refine forall_congr' fun id => forall_congr' fun t => forall_congr' fun ht => ?_
  have hform := form_valuation (R := R) (hs id t ht).1 (Ty.simple_var ⟨id, 0⟩)
  constructor
  · exact fun h => hform.1 (h.1 fun hrow => hrow)
  · exact fun h => ⟨fun _ => hform.2 h, fun hrow => hrow.elim⟩

end Reading

section Solutions

variable {R : Reading Int} {E : Equations} {s : Subst} {t : Ty} {n m : Nat}

/-- What a reading after what solves equations is unifies them. -/
theorem Solves.unifies_reading (h : Solves .simple n m E s) (hE : Posed .simple n E)
    (R : Reading Int) : (s.reading R).Unifies E := by
  refine (Reading.unifies_valuation hE.core).1 (h.sound _ ?_)
  refine (Reading.absorbs_valuation h.solved.core).2 fun id t ht => ?_
  have hcore := (h.solved.core id t ht).1
  rw [Subst.reading_of_some ht, ← Subst.read_apply R hcore,
    hcore.stable.apply_eq_self (h.solved.fixed ht)]

/-- A reading that unifies equations is unchanged by what solves them. -/
theorem Solves.reading_eq (h : Solves .simple n m E s) (hE : Posed .simple n E)
    (hR : R.Unifies E) : s.reading R = R := by
  obtain ⟨θ', hagree, habs, -⟩ := h.general R.valuation
    (fun t ht => Valuation.respects_of_core not_records_simple (hE.core t ht))
    ((Reading.unifies_valuation hE.core).2 hR)
  have hle : ∀ id, s.Mentions id → id ≤ n := by
    intro id hid
    obtain ⟨t, ht, hid⟩ := (h.inside id hid).resolve_right fun hrec => hrec.1
    exact hE.older t ht id hid
  have habs' := hagree.symm.absorbs h.solved.core hle habs
  funext id
  cases hget : s.get? id with
  | none => exact Subst.reading_of_none hget
  | some t =>
      rw [Subst.reading_of_some hget]
      exact (Reading.absorbs_valuation h.solved.core).1 habs' id t hget

/-- Equations that a reading unifies are not refuted. -/
theorem Refutes.excused {excused : Prop} (h : Refutes E excused) (hE : ∀ t ∈ sides E, t.Simple)
    (hR : R.Unifies E) : excused :=
  h R.valuation (fun t ht => Valuation.respects_of_core not_records_simple (hE t ht))
    ((Reading.unifies_valuation hE).2 hR)

end Solutions

end RowTypes
