import RowTypes.Proofs.Composition
import RowTypes.Proofs.Digests
import RowTypes.Proofs.NormalTypes

/-!
# Building unions and intersections step by step

A union may be built from its alternatives at once, or some of them may be put together first, and
it is the same union, down to the order of the alternatives: a part that is built first is taken
apart again, and what was left out of it would have been left out later.  Another order of the
alternatives may keep other representatives, of the same forms.  So the union is equivalent then,
and has the same digest.  Intersections obey the same laws, for the same reasons.
-/

namespace RowTypes

open Ty

namespace Ty

variable {a b : Ty} {us vs ws : List Ty}

/-- Repetitions may be left out of the end of a list beforehand. -/
theorem distinct_append_distinct (hus : ∀ u ∈ us, u.Tame) (hvs : ∀ v ∈ vs, v.Tame) :
    distinct (us ++ distinct vs) = distinct (us ++ vs) := by
  have h := distinct_append_flatMap_distinct (f := fun v => [v]) hus
    (fun v hv => ⟨hvs v hv, List.forall_mem_singleton.2 (hvs v hv)⟩)
    fun a _ b _ hab y hy => ⟨a, List.mem_singleton.2 rfl, List.mem_singleton.1 hy ▸ hab⟩
  rwa [List.flatMap_singleton', List.flatMap_singleton'] at h

/-- Repetitions may be left out of the middle of a list beforehand. -/
theorem distinct_append_distinct_append (hus : ∀ u ∈ us, u.Tame) (hvs : ∀ v ∈ vs, v.Tame)
    (ws : List Ty) : distinct (us ++ (distinct vs ++ ws)) = distinct (us ++ (vs ++ ws)) := by
  rw [← List.append_assoc, ← List.append_assoc, distinct_append, distinct_append_distinct hus hvs,
    ← distinct_append]

theorem Built.irredundant (h : a.Plain) : a.Irredundant := by
  induction h with
  | var v => exact .var v
  | prim name => exact .prim name
  | lit value => exact .lit value
  | fn _ _ ihp ihr => exact .fn ihp ihr
  | record row hasc _ ih => exact .record row hasc ih
  | tuple _ ih => exact .tuple ih
  | union _ _ _ hdistinct ih => exact .union ih hdistinct
  | inter _ _ _ hdistinct ih => exact .inter ih hdistinct
  | named name _ ih => exact .named name ih
  | mu _ h => exact h.elim

/-- Types of one form have one digest. -/
theorem Built.digest_eq_of_form (ha : a.Plain) (hb : b.Plain) (h : a.form = b.form) :
    a.digest = b.digest :=
  ha.irredundant.determines hb.irredundant ((form_eq_iff ha.tame hb.tame).1 h)

end Ty

namespace Compound

variable {k : Compound} {M : Prop} {as bs ts us xs ys zs : List Ty}

/-! ## Putting some of the parts together first -/

/-- A part of the list may be built beforehand. -/
theorem build_append_build (hxs : ∀ t ∈ xs, t.Tame) (hys : ∀ t ∈ ys, t.Tame) (zs : List Ty) :
    k.build (xs ++ k.build ys :: zs) = k.build (xs ++ ys ++ zs) := by
  have hparts : distinct ((xs ++ k.build ys :: zs).flatMap k.parts) =
      distinct ((xs ++ ys ++ zs).flatMap k.parts) := by
    rw [List.flatMap_append, List.flatMap_cons, parts_build, List.append_assoc,
      List.flatMap_append, List.flatMap_append]
    exact distinct_append_distinct_append (tame_of_mem_parts hxs) (tame_of_mem_parts hys) _
  rw [build_eq k (xs ++ k.build ys :: zs), build_eq k (xs ++ ys ++ zs), hparts]

/-! ## Putting the parts into another order -/

/-- The order of the parts does not matter to the form of what is built. -/
theorem form_build_perm (hts : ∀ t ∈ ts, t.Tame) (h : us.Perm ts) :
    (k.build us).form = (k.build ts).form :=
  form_build_congr (fun u hu => hts u (h.subset hu)) hts fun _ =>
    exists_congr fun _ => and_congr_left fun _ => h.mem_iff

/-! ## Building again -/

/-- What was built is built again from its parts. -/
theorem build_of_build_eq (h : k.build ts = k.of us) : k.build us = k.of us := by
  have hparts : us.flatMap k.parts = distinct (ts.flatMap k.parts) := by
    rw [← parts_of, ← h, parts_build]
  have hlen : (distinct (ts.flatMap k.parts)).length ≠ 1 := by
    intro hlen
    obtain ⟨d, hd⟩ := List.length_eq_one_iff.1 hlen
    rw [build_eq, hd] at h
    have hd' : d ∈ ts.flatMap k.parts := mem_distinct (hd ▸ List.mem_singleton.2 rfl)
    obtain ⟨t, -, hd'⟩ := List.mem_flatMap.1 hd'
    exact ne_of_mem_parts us hd' h
  rw [build_eq, hparts, distinct_eq_self (pairwise_distinct _), ← build_eq, h]

/-! ## The laws -/

/-- Of types without recursion in normal form, compounds can be built, and: a part of the list may
be built beforehand, the order does not matter up to equivalence and not at all to the digest, and
from the parts of what was built it is built again. -/
theorem build?_regroup_reorder (hys : ys ≠ []) (h : ∀ t ∈ xs ++ ys ++ zs, t.Plain ∧ t.Canonical) :
    ∃ part whole, k.build? ys = some part ∧ k.build? (xs ++ ys ++ zs) = some whole ∧
      k.build? (xs ++ part :: zs) = some whole ∧
      (∀ ts, ts.Perm (xs ++ ys ++ zs) → ∃ u, k.build? ts = some u ∧
        u.equiv whole = true ∧ u.digest = whole.digest) ∧
      ∀ us, whole = k.of us → k.build? us = some whole := by
  have htame : ∀ t ∈ xs ++ ys ++ zs, t.Tame := fun t ht => (h t ht).1.tame
  have hcanonical : ∀ t ∈ xs ++ ys ++ zs, t.Canonical := fun t ht => (h t ht).2
  have hne : xs ++ ys ++ zs ≠ [] := by simp [hys]
  obtain ⟨hxys, hzs⟩ := List.forall_mem_append.1 h
  obtain ⟨hxs, hys'⟩ := List.forall_mem_append.1 hxys
  have hpart : (k.build ys).Canonical := canonical_build hys fun t ht => (hys' t ht).2
  refine ⟨k.build ys, k.build (xs ++ ys ++ zs), build?_eq_build hys fun t ht => (hys' t ht).2,
    build?_eq_build hne hcanonical, ?_, fun ts hperm => ?_, fun us hus => ?_⟩
  · rw [← build_append_build (fun t ht => (hxs t ht).1.tame) (fun t ht => (hys' t ht).1.tame)]
    refine build?_eq_build (by simp) (List.forall_mem_append.2 ⟨fun t ht => (hxs t ht).2, ?_⟩)
    exact List.forall_mem_cons.2 ⟨hpart, fun t ht => (hzs t ht).2⟩
  · have hts : ∀ t ∈ ts, t.Plain ∧ t.Canonical := fun t ht => h t (hperm.subset ht)
    have hform : (k.build ts).form = (k.build (xs ++ ys ++ zs)).form := form_build_perm htame hperm
    have hplain : (k.build ts).Plain := built_build fun t ht => (hts t ht).1
    have hplain' : (k.build (xs ++ ys ++ zs)).Plain := built_build fun t ht => (h t ht).1
    exact ⟨k.build ts, build?_eq_build (fun hnil => hne (List.nil_perm.1 (hnil ▸ hperm)))
      fun t ht => (hts t ht).2, (form_eq_iff hplain.tame hplain'.tame).1 hform,
      hplain.digest_eq_of_form hplain' hform⟩
  · have hwhole : (k.of us).Canonical := hus ▸ canonical_build hne hcanonical
    obtain ⟨hlen, hparts, -⟩ := canonical_of.1 hwhole
    rw [build?_eq_build (List.ne_nil_of_length_pos (by omega)) hparts, hus, build_of_build_eq hus]

theorem normal_union_prims {m n : String} (h : m ≠ n) :
    (Ty.union [.prim m, .prim n]).Plain ∧ (Ty.union [.prim m, .prim n]).Canonical := by
  have hdistinct : [Ty.prim m, .prim n].Pairwise fun a b => equiv a b = false := by
    simpa [equiv, equivUnder] using h
  have hflat : ∀ t ∈ [Ty.prim m, .prim n], ∀ us, t ≠ .union us := by simp
  exact ⟨.union (by simp) (by simp [Built.prim]) hflat hdistinct,
    .union (by simp) (by simp [Canonical.prim]) hflat hdistinct⟩

/-- Two alternatives that are put together first, one of them equivalent to one that stands to their
left, the other one of those that a union to their right brings along. -/
theorem build?_regroup_reorder_choices :
    let pair := Ty.tuple [.union [.int, .string], .bool]
    let pair' := Ty.tuple [.union [.string, .int], .bool]
    let rest := Ty.union [.bool, .int]
    (∀ t ∈ [pair] ++ [pair', .bool] ++ [rest], t.Plain ∧ t.Canonical) ∧
      unionOf? ([pair] ++ .union [pair', .bool] :: [rest]) = some (.union [pair, .bool, .int]) ∧
      ∃ u, unionOf? [rest, .bool, pair', pair] = some u ∧
        u.equiv (.union [pair, .bool, .int]) = true ∧
        u.digest = (Ty.union [pair, .bool, .int]).digest := by
  intro pair pair' rest
  have hpairs : ∀ t : Ty, t.Plain ∧ t.Canonical →
      (Ty.tuple [t, .bool]).Plain ∧ (Ty.tuple [t, .bool]).Canonical := fun t ht =>
    ⟨.tuple (by simp [ht.1, Ty.bool, Built.prim]), .tuple (by simp [ht.2, Ty.bool, Canonical.prim])⟩
  have hall : ∀ t ∈ [pair] ++ [pair', .bool] ++ [rest], t.Plain ∧ t.Canonical := by
    simp only [List.cons_append, List.nil_append, List.forall_mem_cons]
    exact ⟨hpairs _ (normal_union_prims (by decide)), hpairs _ (normal_union_prims (by decide)),
      ⟨.prim _, .prim _⟩, normal_union_prims (by decide), nofun⟩
  obtain ⟨part, whole, hpart, hwhole, hregroup, hreorder, -⟩ :=
    build?_regroup_reorder (k := .union) (List.cons_ne_nil _ _) hall
  obtain rfl : Ty.union [pair', .bool] = part := Option.some.inj ((by cbv : _ = _).symm.trans hpart)
  obtain rfl : Ty.union [pair, .bool, .int] = whole :=
    Option.some.inj ((by cbv : _ = _).symm.trans hwhole)
  exact ⟨hall, hregroup, hreorder _ (List.reverse_perm [pair, pair', .bool, rest])⟩

end Compound

end RowTypes
