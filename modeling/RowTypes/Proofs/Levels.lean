import Mathlib.Data.List.Induction
import RowTypes.Proofs.BuiltTypes

/-!
# Types up to levels

Unknowns are told apart by their numbers, and the level that each carries along decides nothing.
Two types that differ in nothing but levels are the same for all that is done to them, and they are
compared here by forgetting the levels of both.

Equivalence does not look at levels, so a union or an intersection keeps the same members whether
levels are forgotten before it is built or after.  The same follows for substitutions.
-/

namespace RowTypes

/-- An unknown without its level. -/
def TyVar.levelless (v : TyVar) : TyVar := ⟨v.id, 0⟩

theorem TyVar.levelless_congr {v w : TyVar} (h : v.id = w.id) : v.levelless = w.levelless :=
  congrArg (TyVar.mk · 0) h

namespace Ty

variable {a b t u : Ty} {ts us : List Ty} {k : Compound}

mutual

/-- A type without the levels of its unknowns. -/
def levelless : Ty → Ty
  | .var v => .var v.levelless
  | .prim name => .prim name
  | .lit value => .lit value
  | .fn p r => .fn p.levelless r.levelless
  | .record fs row => .record (levellessFields fs) (row.map TyVar.levelless)
  | .tuple ts => .tuple (levellessAll ts)
  | .union ts => .union (levellessAll ts)
  | .inter ts => .inter (levellessAll ts)
  | .named name ts => .named name (levellessAll ts)
  | .mu v t => .mu v.levelless t.levelless

def levellessAll : List Ty → List Ty
  | [] => []
  | t :: ts => t.levelless :: levellessAll ts

def levellessFields : List (String × Ty) → List (String × Ty)
  | [] => []
  | (name, t) :: fs => (name, t.levelless) :: levellessFields fs

end

theorem levellessAll_eq_map (ts : List Ty) : levellessAll ts = ts.map levelless := by
  induction ts with
  | nil => rfl
  | cons t ts ih => rw [levellessAll, ih, List.map_cons]

theorem levelless_record (fs : List (String × Ty)) (row : Option TyVar) :
    (Ty.record fs row).levelless =
      .record (fs.map fun f => (f.1, f.2.levelless)) (row.map TyVar.levelless) := by
  rw [levelless]
  congr 1
  induction fs with
  | nil => rfl
  | cons f fs ih => rw [levellessFields, ih, List.map_cons]

theorem levelless_tuple (ts : List Ty) :
    (Ty.tuple ts).levelless = .tuple (ts.map levelless) := by
  rw [levelless, levellessAll_eq_map]

theorem levelless_named (name : String) (ts : List Ty) :
    (Ty.named name ts).levelless = .named name (ts.map levelless) := by
  rw [levelless, levellessAll_eq_map]

theorem levelless_of (k : Compound) (ts : List Ty) :
    (k.of ts).levelless = k.of (ts.map levelless) := by
  rw [← levellessAll_eq_map]
  cases k <;> rfl

/-- Forgetting the levels of all unknowns makes nothing a compound. -/
theorem levelless_ne_of (h : ∀ us, t ≠ k.of us) : ∀ us, t.levelless ≠ k.of us := by
  intro us
  cases k with
  | union =>
      cases t with
      | union ts => exact absurd rfl (h ts)
      | _ => rintro ⟨⟩
  | inter =>
      cases t with
      | inter ts => exact absurd rfl (h ts)
      | _ => rintro ⟨⟩

/-! ## Equivalence does not look at levels -/

theorem Tame.levelless (h : t.Tame) : t.levelless.Tame := by
  induction h with
  | var v => exact .var _
  | prim name => exact .prim name
  | lit value => exact .lit value
  | fn _ _ ihp ihr => exact .fn ihp ihr
  | record row hasc _ ih =>
      rw [levelless_record]
      exact .record _ (hasc.map Ty.levelless) (List.forall_mem_map.2 ih)
  | tuple _ ih => rw [levelless_tuple]; exact .tuple (List.forall_mem_map.2 ih)
  | union _ ih =>
      exact levelless_of .union _ ▸ .union (List.forall_mem_map.2 ih)
  | inter _ ih =>
      exact levelless_of .inter _ ▸ .inter (List.forall_mem_map.2 ih)
  | named name _ ih => rw [levelless_named]; exact .named name (List.forall_mem_map.2 ih)

theorem equiv_levelless (h : t.Tame) : equiv t.levelless t = true := by
  have hall : ∀ {ts : List Ty}, (∀ t ∈ ts, equiv t.levelless t = true) →
      List.Forall₂ (fun a b => equiv a b = true) (ts.map Ty.levelless) ts := fun ih =>
    List.forall₂_map_left_iff.2 (List.forall₂_same.2 ih)
  have hof : ∀ {k : Compound} {ts : List Ty}, (∀ t ∈ ts, equiv t.levelless t = true) →
      equiv (k.of ts).levelless (k.of ts) = true := by
    intro k ts ih
    rw [levelless_of]
    refine Compound.equiv_of_iff.2 ⟨ts, rfl, List.length_map _, ?_, fun t ht => ?_⟩
    · exact List.forall_mem_map.2 fun t ht => ⟨t, ht, ih t ht⟩
    · exact ⟨t.levelless, List.mem_map_of_mem ht, ih t ht⟩
  induction h with
  | var v => exact equiv_var.2 rfl
  | prim name => exact equiv_refl (.prim name)
  | lit value => exact equiv_refl (.lit value)
  | fn _ _ ihp ihr => exact equiv_fn.2 ⟨ihp, ihr⟩
  | @record fs row hasc _ ih =>
      rw [levelless_record]
      refine (equiv_record (hasc.map Ty.levelless) hasc).2 ⟨?_, fun name => ?_⟩
      · cases row <;> rfl
      · rw [Table.get?_map]
        cases hf : Table.get? name fs with
        | none => exact .none
        | some u => exact .some (ih _ (Table.mem_of_get? hf))
  | tuple _ ih => rw [levelless_tuple]; exact equiv_tuple.2 (hall ih)
  | union _ ih => exact hof (k := .union) ih
  | inter _ ih => exact hof (k := .inter) ih
  | named name _ ih => rw [levelless_named]; exact equiv_named.2 ⟨rfl, hall ih⟩

theorem form_levelless (h : t.Tame) : t.levelless.form = t.form :=
  form_congr h.levelless h (equiv_levelless h)

theorem equiv_levelless_iff (ha : a.Tame) (hb : b.Tame) :
    equiv a.levelless b.levelless = equiv a b := by
  rw [Bool.eq_iff_iff, ← form_eq_iff ha.levelless hb.levelless, ← form_eq_iff ha hb,
    form_levelless ha, form_levelless hb]

/-! ## What is built -/

theorem distinct_append_singleton (ts : List Ty) (t : Ty) :
    distinct (ts ++ [t]) = addDistinct (distinct ts) t :=
  List.foldl_append

theorem distinct_map {f : Ty → Ty} (h : ∀ a ∈ ts, ∀ b ∈ ts, equiv (f a) (f b) = equiv a b) :
    distinct (ts.map f) = (distinct ts).map f := by
  induction ts using List.reverseRecOn with
  | nil => rfl
  | append_singleton ts t ih =>
      have hseen : ((distinct ts).map f).any (fun s => equiv s (f t)) =
          (distinct ts).any fun s => equiv s t := by
        rw [List.any_map, Bool.eq_iff_iff, List.any_eq_true, List.any_eq_true]
        refine exists_congr fun s => and_congr_right fun hs => ?_
        rw [Function.comp_apply, h s (List.mem_append_left _ (mem_distinct hs)) t (by simp)]
      have ih := ih fun a ha b hb => h a (List.mem_append_left _ ha) b (List.mem_append_left _ hb)
      rw [List.map_append, List.map_singleton, distinct_append_singleton,
        distinct_append_singleton, ih, addDistinct, addDistinct, hseen]
      split
      · rfl
      · rw [List.map_append, List.map_singleton]

section Mapping

variable {f : Ty → Ty}

/-- A map that works on compounds part by part, and makes nothing else a compound, works so on what
a type consists of. -/
theorem parts_map (hof : ∀ ts, f (k.of ts) = k.of (ts.map f))
    (hne : ∀ t, (∀ us, t ≠ k.of us) → ∀ us, f t ≠ k.of us) (h : t.Tame) :
    k.parts (f t) = (k.parts t).map f := by
  have hsingle : ∀ {t : Ty}, (∀ us, t ≠ k.of us) → k.parts (f t) = (k.parts t).map f := by
    intro t ht
    rw [Compound.parts_of_ne ht, Compound.parts_of_ne (hne t ht), List.map_singleton]
  have hcompound : ∀ {ts : List Ty}, (∀ t ∈ ts, k.parts (f t) = (k.parts t).map f) →
      k.parts (f (k.of ts)) = (k.parts (k.of ts)).map f := by
    intro ts ih
    rw [hof, Compound.parts_of, Compound.parts_of, List.flatMap_map, List.map_flatMap]
    exact List.flatMap_congr ih
  induction h with
  | union _ ih =>
      cases k with
      | union => exact hcompound ih
      | inter => exact hsingle (by rintro us ⟨⟩)
  | inter _ ih =>
      cases k with
      | union => exact hsingle (by rintro us ⟨⟩)
      | inter => exact hcompound ih
  | _ => exact hsingle (by cases k <;> rintro us ⟨⟩)

/-- Such a map is the same before building and after if it keeps apart what is apart. -/
theorem build_map (hof : ∀ ts, f (k.of ts) = k.of (ts.map f))
    (hne : ∀ t, (∀ us, t ≠ k.of us) → ∀ us, f t ≠ k.of us) (h : ∀ t ∈ ts, t.Tame)
    (hequiv : ∀ a ∈ ts.flatMap k.parts, ∀ b ∈ ts.flatMap k.parts, equiv (f a) (f b) = equiv a b) :
    f (k.build ts) = k.build (ts.map f) := by
  have hparts : (ts.map f).flatMap k.parts = (ts.flatMap k.parts).map f := by
    rw [List.flatMap_map, List.map_flatMap]
    exact List.flatMap_congr fun t ht => parts_map hof hne (h t ht)
  have htogether : ∀ ds : List Ty, f (k.together ds) = k.together (ds.map f) := by
    intro ds
    by_cases hlen : ds.length = 1
    · obtain ⟨d, rfl⟩ := List.length_eq_one_iff.1 hlen
      rfl
    · rw [Compound.together_of_length_ne hlen, hof,
        Compound.together_of_length_ne (by rwa [List.length_map])]
  rw [Compound.build_eq, Compound.build_eq, htogether, hparts, distinct_map hequiv]

/-- Such a map keeps a compound as it is built if it keeps its parts so. -/
theorem built_map (hof : ∀ ts, f (k.of ts) = k.of (ts.map f))
    (hne : ∀ t, (∀ us, t ≠ k.of us) → ∀ us, f t ≠ k.of us) (h : (k.of ts).Plain)
    (hparts : ∀ t ∈ ts, (f t).Plain)
    (hequiv : ∀ a ∈ ts, ∀ b ∈ ts, equiv (f a) (f b) = equiv a b) : (f (k.of ts)).Plain := by
  obtain ⟨hlen, -, hflat, hdistinct⟩ := built_of_iff.1 h
  rw [hof]
  refine built_of_iff.2 ⟨by rwa [List.length_map], List.forall_mem_map.2 hparts,
    List.forall_mem_map.2 fun t ht => hne t (hflat t ht), List.pairwise_map.2 ?_⟩
  refine hdistinct.imp_of_mem fun ha hb hab => ?_
  rw [hequiv _ ha _ hb, hab]

end Mapping

theorem levelless_build (h : ∀ t ∈ ts, t.Tame) :
    (k.build ts).levelless = k.build (ts.map levelless) := by
  have htame := Compound.tame_of_mem_parts (k := k) h
  exact build_map (levelless_of k) (fun _ => levelless_ne_of) h fun a ha b hb =>
    equiv_levelless_iff (htame a ha) (htame b hb)

theorem Built.levelless (h : t.Plain) : t.levelless.Plain := by
  have hof : ∀ {k : Compound} {ts : List Ty}, (k.of ts).Plain → (∀ t ∈ ts, t.levelless.Plain) →
      (k.of ts).levelless.Plain := by
    intro k ts h ih
    have hts := (built_of_iff.1 h).2.1
    exact built_map (levelless_of k) (fun _ => levelless_ne_of) h ih fun a ha b hb =>
      equiv_levelless_iff (hts a ha).tame (hts b hb).tame
  induction h with
  | var v => exact .var _
  | prim name => exact .prim name
  | lit value => exact .lit value
  | fn _ _ ihp ihr => exact .fn ihp ihr
  | record row hasc _ ih =>
      rw [levelless_record]
      exact .record _ (hasc.map Ty.levelless) (List.forall_mem_map.2 ih)
  | tuple _ ih => rw [levelless_tuple]; exact .tuple (List.forall_mem_map.2 ih)
  | union hlen hts hflat hdistinct ih =>
      exact hof (k := .union) (.union hlen hts hflat hdistinct) ih
  | inter hlen hts hflat hdistinct ih =>
      exact hof (k := .inter) (.inter hlen hts hflat hdistinct) ih
  | named name _ ih => rw [levelless_named]; exact .named name (List.forall_mem_map.2 ih)
  | mu _ h => exact h.elim

end Ty

/-! ## Substituting -/

namespace Subst

variable {s : Subst} {t : Ty}

/-- The substitution to the types without levels. -/
def levelless (s : Subst) : Subst :=
  ⟨s.bindings.map fun entry => (entry.1, ⟨entry.2.var, entry.2.ty.levelless⟩)⟩

theorem get?_levelless (s : Subst) (id : Int) : s.levelless.get? id = (s.get? id).map Ty.levelless := by
  unfold get? levelless
  rw [Table.get?_map fun b : Binding => (⟨b.var, b.ty.levelless⟩ : Binding), Option.map_map,
    Option.map_map]
  rfl

theorem levelless_splice {fs : List (String × Ty)} {row : TyVar} (hfs : Table.Ascending fs)
    (bound : Option Ty) : (RecordTy.splice fs row bound).toTy.levelless =
      (RecordTy.splice (fs.map fun f => (f.1, f.2.levelless)) row.levelless
        (bound.map Ty.levelless)).toTy := by
  have hstay : (Ty.record fs (some row)).levelless =
      .record (fs.map fun f => (f.1, f.2.levelless)) (some row.levelless) :=
    Ty.levelless_record fs (some row)
  cases bound with
  | none => exact hstay
  | some u =>
      cases u with
      | var w => exact Ty.levelless_record fs (some w)
      | record more rest =>
          rw [Option.map_some, Ty.levelless_record]
          exact (Ty.levelless_record _ _).trans
            (congrArg (Ty.record · (rest.map TyVar.levelless)) (hfs.map_underlay Ty.levelless more))
      | _ => exact hstay

/-- It does not matter whether levels are forgotten before a substitution or after it. -/
theorem levelless_apply (ht : t.Plain) (hs : ∀ id u, s.get? id = some u → u.Plain) :
    (s.apply t).levelless = s.levelless.apply t.levelless := by
  have hof : ∀ {k : Compound} {ts : List Ty}, (k.of ts).Plain →
      (∀ t ∈ ts, (s.apply t).levelless = s.levelless.apply t.levelless) →
      (s.apply (k.of ts)).levelless = s.levelless.apply (k.of ts).levelless := by
    intro k ts h ih
    have htame : ∀ u ∈ ts.map s.apply, u.Tame := List.forall_mem_map.2 fun t ht =>
      (((Ty.built_of_iff.1 h).2.1 t ht).apply hs).tame
    have hbuilt := h.levelless
    rw [Ty.levelless_of] at hbuilt ⊢
    rw [h.apply_of, hbuilt.apply_of, Ty.levelless_build htame, List.map_map, List.map_map]
    exact congrArg _ (List.map_congr_left ih)
  induction ht with
  | var v =>
      rw [Ty.levelless, apply_var, apply_var, get?_levelless]
      show _ = ((s.get? v.id).map Ty.levelless).getD _
      cases s.get? v.id <;> rfl
  | prim name => rw [apply_prim, Ty.levelless, apply_prim]
  | lit value => rw [apply_lit, Ty.levelless, apply_lit]
  | fn _ _ ihp ihr => rw [apply_fn, Ty.levelless, Ty.levelless, apply_fn, ihp, ihr]
  | @record fs row hasc _ ih =>
      have hfs : ((fs.map fun f => (f.1, s.apply f.2)).map fun f => (f.1, f.2.levelless)) =
          (fs.map fun f => (f.1, f.2.levelless)).map fun f => (f.1, s.levelless.apply f.2) := by
        rw [List.map_map, List.map_map]
        exact List.map_congr_left fun f hf => congrArg (Prod.mk f.1) (ih f hf)
      cases row with
      | none =>
          rw [apply_closed, Ty.levelless_record, Ty.levelless_record, hfs]
          exact (apply_closed _ _).symm
      | some row =>
          rw [Ty.levelless_record, apply_open, levelless_splice (hasc.map s.apply), hfs]
          refine ((apply_open _ _ _).trans ?_).symm
          rw [get?_levelless]
          rfl
  | tuple _ ih =>
      rw [apply_tuple, Ty.levelless_tuple, Ty.levelless_tuple, apply_tuple, List.map_map,
        List.map_map]
      exact congrArg _ (List.map_congr_left ih)
  | union hlen hts hflat hdistinct ih => exact hof (k := .union) (.union hlen hts hflat hdistinct) ih
  | inter hlen hts hflat hdistinct ih => exact hof (k := .inter) (.inter hlen hts hflat hdistinct) ih
  | named name _ ih =>
      rw [apply_named, Ty.levelless_named, Ty.levelless_named, apply_named, List.map_map,
        List.map_map]
      exact congrArg _ (List.map_congr_left ih)
  | mu _ h => exact h.elim

/-- Types that differ in nothing but levels do so under a substitution as well. -/
theorem levelless_apply_congr {u : Ty} (ht : t.Plain) (hu : u.Plain)
    (hs : ∀ id u, s.get? id = some u → u.Plain) (h : t.levelless = u.levelless) :
    (s.apply t).levelless = (s.apply u).levelless := by
  rw [levelless_apply ht hs, levelless_apply hu hs, h]

end Subst

end RowTypes
