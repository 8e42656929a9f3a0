import RowTypes.Proofs.Alternatives
import RowTypes.Proofs.CoreTypes

/-!
# Literals under substitutions

To a substitution a literal is a constant like any other; it is only relating types that lets it go
with strings.  Stamping says so: it gives each literal, and each primitive, a primitive of its own.
Stamped types are core types, nothing is lost by stamping, and it does not matter whether a type is
stamped before or after a substitution.  So whatever is known about solved substitutions and core
types holds for types with literals too.

These are the types without alternatives: what is missing are unions and intersections, which a
substitution builds anew, and names and recursive types.
-/

namespace RowTypes

namespace Ty

/-- Types of unknowns, primitives, literals, functions, tuples and records, by the sorts. -/
inductive Unmixed (κ : Sorts) : Ty → Prop where
  | var {v : TyVar} : ¬ κ.isRow v.id → Unmixed κ (.var v)
  | prim (name : String) : Unmixed κ (.prim name)
  | lit (value : String) : Unmixed κ (.lit value)
  | fn {p r : Ty} : Unmixed κ p → Unmixed κ r → Unmixed κ (.fn p r)
  | tuple {ts : List Ty} : (∀ t ∈ ts, Unmixed κ t) → Unmixed κ (.tuple ts)
  | record {fs : List (String × Ty)} {row : Option TyVar} : κ.records → Table.Ascending fs →
      (∀ v, row = some v → κ.isRow v.id) → (∀ f ∈ fs, Unmixed κ f.2) → Unmixed κ (.record fs row)

mutual

/-- The type with a primitive of its own for each literal and each primitive. -/
def stamp : Ty → Ty
  | .var v => .var v
  | .prim name => .prim ("p" ++ name)
  | .lit value => .prim ("l" ++ value)
  | .fn p r => .fn (stamp p) (stamp r)
  | .record fs row => .record (stampFields fs) row
  | .tuple ts => .tuple (stampAll ts)
  | t => t

def stampAll : List Ty → List Ty
  | [] => []
  | t :: ts => stamp t :: stampAll ts

def stampFields : List (String × Ty) → List (String × Ty)
  | [] => []
  | (name, t) :: fs => (name, stamp t) :: stampFields fs

end

theorem stampAll_eq_map (ts : List Ty) : stampAll ts = ts.map stamp := by
  induction ts with
  | nil => rfl
  | cons t ts ih => rw [stampAll, ih, List.map_cons]

theorem stampFields_eq_map (fs : List (String × Ty)) :
    stampFields fs = fs.map fun f => (f.1, stamp f.2) := by
  induction fs with
  | nil => rfl
  | cons f fs ih => rw [stampFields, ih, List.map_cons]

example : stamp (.tuple [.lit "a", .fn (.prim "String") (.var ⟨1, 0⟩)]) =
    .tuple [.prim "la", .fn (.prim "pString") (.var ⟨1, 0⟩)] := by cbv

theorem stamp_tuple (ts : List Ty) : stamp (.tuple ts) = .tuple (ts.map stamp) := by
  rw [stamp, stampAll_eq_map]

theorem stamp_record (fs : List (String × Ty)) (row : Option TyVar) :
    stamp (.record fs row) = .record (fs.map fun f => (f.1, stamp f.2)) row := by
  rw [stamp, stampFields_eq_map]

variable {κ : Sorts} {t : Ty}

theorem Unmixed.core_stamp (h : t.Unmixed κ) : t.stamp.Core κ := by
  induction h with
  | var hv => exact .var hv
  | prim name => exact .prim _
  | lit value => exact .prim _
  | fn _ _ ihp ihr => exact .fn ihp ihr
  | tuple _ ih =>
      rw [stamp_tuple]
      exact .tuple (List.forall_mem_map.2 ih)
  | record hrec hasc hrow _ ih =>
      rw [stamp_record]
      exact .record hrec (hasc.map stamp) hrow (List.forall_mem_map.2 ih)

theorem unmixed_of_core_stamp (h : t.stamp.Core κ) : t.Unmixed κ := by
  generalize hc : t.stamp = c at h
  induction h generalizing t with
  | var hv => cases t <;> cases hc; exact .var hv
  | prim name =>
      cases t with
      | prim name => exact .prim name
      | lit value => exact .lit value
      | _ => cases hc
  | fn _ _ ihp ihr => cases t <;> cases hc; exact .fn (ihp rfl) (ihr rfl)
  | tuple _ ih =>
      cases t with
      | tuple ts =>
          rw [stamp_tuple] at hc
          cases hc
          exact .tuple fun t ht => ih _ (List.mem_map_of_mem ht) rfl
      | _ => cases hc
  | record hrec hasc hrow _ ih =>
      cases t with
      | record fs row =>
          rw [stamp_record] at hc
          cases hc
          refine .record hrec ?_ hrow fun f hf => ih _ (List.mem_map_of_mem hf) rfl
          rwa [Table.Ascending, List.pairwise_map] at hasc
      | _ => cases hc

theorem Unmixed.tame (h : t.Unmixed κ) : t.Tame := by
  induction h with
  | var _ => exact .var _
  | prim name => exact .prim name
  | lit value => exact .lit value
  | fn _ _ ihp ihr => exact .fn ihp ihr
  | tuple _ ih => exact .tuple ih
  | record _ hasc _ _ ih => exact .record _ hasc ih

theorem Unmixed.stable (h : t.Unmixed κ) : t.Stable := by
  induction h with
  | var _ => exact .var _
  | prim name => exact .prim name
  | lit value => exact .lit value
  | fn _ _ ihp ihr => exact .fn ihp ihr
  | tuple _ ih => exact .tuple ih
  | record _ _ _ _ ih => exact .record _ ih

theorem Unmixed.mentions_stamp (h : t.Unmixed κ) {id : Int} :
    t.stamp.Mentions id ↔ t.Mentions id := by
  induction h with
  | var _ => rfl
  | prim name => simp [stamp]
  | lit value => simp [stamp]
  | fn _ _ ihp ihr => rw [stamp, mentions_fn, mentions_fn, ihp, ihr]
  | tuple _ ih =>
      rw [stamp_tuple, mentions_tuple, mentions_tuple]
      simp only [List.mem_map, exists_exists_and_eq_and]
      exact exists_congr fun t => and_congr_right fun ht => ih t ht
  | record _ _ _ _ ih =>
      rw [stamp_record, mentions_record, mentions_record]
      simp only [List.mem_map, exists_exists_and_eq_and]
      exact or_congr_left (exists_congr fun f => and_congr_right fun hf => ih f hf)

theorem stamps_ne (name value : String) : "p" ++ name ≠ "l" ++ value := by
  intro h
  have hchars := congrArg String.toList h
  simp at hchars

/-- Nothing is lost by stamping. -/
theorem Unmixed.stamp_inj {a b : Ty} (ha : a.Unmixed κ) (hb : b.Unmixed κ) (h : a.stamp = b.stamp) :
    a = b := by
  induction ha generalizing b with
  | var _ => cases hb <;> cases h; rfl
  | prim name =>
      cases hb with
      | prim name' => simpa [stamp] using h
      | lit value => exact absurd (Ty.prim.inj h) (stamps_ne name value)
      | _ => cases h
  | lit value =>
      cases hb with
      | lit value' => simpa [stamp] using h
      | prim name => exact absurd (Ty.prim.inj h).symm (stamps_ne name value)
      | _ => cases h
  | fn _ _ ihp ihr =>
      cases hb with
      | fn hp hr =>
          rw [stamp, stamp, Ty.fn.injEq] at h
          rw [ihp hp h.1, ihr hr h.2]
      | _ => cases h
  | @tuple as _ ih =>
      cases hb with
      | @tuple bs hbs =>
          rw [stamp_tuple, stamp_tuple, Ty.tuple.injEq] at h
          refine congrArg _
            (List.ext_getElem (by simpa using congrArg List.length h) fun i hi hj => ?_)
          refine ih _ (List.getElem_mem hi) (hbs _ (List.getElem_mem hj)) ?_
          have hget := congrArg (fun ts => ts[i]?) h
          simpa [hi, hj] using hget
      | _ => cases h
  | @record fs row _ hasc _ _ ih =>
      cases hb with
      | @record gs row' _ _ _ hgs =>
          rw [stamp_record, stamp_record, Ty.record.injEq] at h
          obtain ⟨hfields, rfl⟩ := h
          refine congrArg (Ty.record · row)
            (List.ext_getElem (by simpa using congrArg List.length hfields) fun i hi hj => ?_)
          have hget := congrArg (fun fs => fs[i]?) hfields
          simp only [List.getElem?_map, List.getElem?_eq_getElem hi, List.getElem?_eq_getElem hj,
            Option.map_some, Option.some.injEq, Prod.mk.injEq] at hget
          exact Prod.ext hget.1 (ih _ (List.getElem_mem hi) (hgs _ (List.getElem_mem hj)) hget.2)
      | _ => cases h

end Ty

namespace Subst

/-- The substitution to the stamped types. -/
def stamp (s : Subst) : Subst :=
  ⟨s.bindings.map fun entry => (entry.1, ⟨entry.2.var, entry.2.ty.stamp⟩)⟩

variable {κ : Sorts} {s next : Subst} {t : Ty} {id : Int}

theorem get?_stamp (s : Subst) (id : Int) : s.stamp.get? id = (s.get? id).map Ty.stamp := by
  unfold get? stamp
  rw [Table.get?_map fun b : Binding => (⟨b.var, b.ty.stamp⟩ : Binding), Option.map_map,
    Option.map_map]
  rfl

/-- It does not matter whether a type is stamped before a substitution or after it. -/
theorem stamp_apply (s : Subst) (ht : t.Unmixed κ) : (s.apply t).stamp = s.stamp.apply t.stamp := by
  induction ht with
  | @var v _ =>
      rw [Ty.stamp, apply_var, apply_var, get?_stamp]
      cases s.get? v.id <;> rfl
  | prim name => rw [apply_prim, Ty.stamp, apply_prim]
  | lit value => rw [apply_lit, Ty.stamp, apply_prim]
  | fn _ _ ihp ihr => rw [apply_fn, Ty.stamp, Ty.stamp, apply_fn, ihp, ihr]
  | tuple _ ih =>
      rw [apply_tuple, Ty.stamp_tuple, Ty.stamp_tuple, apply_tuple, List.map_map, List.map_map]
      exact congrArg _ (List.map_congr_left ih)
  | @record fs row _ hasc _ _ ih =>
      have hfs : ((fs.map fun f => (f.1, s.apply f.2)).map fun f => (f.1, f.2.stamp)) =
          (fs.map fun f => (f.1, f.2.stamp)).map fun f => (f.1, s.stamp.apply f.2) := by
        rw [List.map_map, List.map_map]
        exact List.map_congr_left fun f hf => congrArg (Prod.mk f.1) (ih f hf)
      cases row with
      | none => rw [apply_closed, Ty.stamp_record, Ty.stamp_record, apply_closed, hfs]
      | some row =>
          rw [Ty.stamp_record, apply_open, apply_open, get?_stamp, ← hfs]
          -- Stamping keeps records and unknowns what they are, and makes neither of other types.
          cases s.get? row.id with
          | none => exact Ty.stamp_record _ _
          | some u =>
              cases u with
              | record gs rest =>
                  rw [Option.map_some, Ty.stamp_record]
                  exact (Ty.stamp_record _ _).trans
                    (congrArg (Ty.record · rest) ((hasc.map s.apply).map_underlay Ty.stamp gs))
              | _ => exact Ty.stamp_record _ _

/-- What is done to a type depends on the bindings of its unknowns alone. -/
theorem apply_congr_of_unmixed {s' : Subst} (ht : t.Unmixed κ)
    (h : ∀ id, t.Mentions id → s.get? id = s'.get? id) : s.apply t = s'.apply t :=
  ht.stable.apply_congr h

/-- Unknowns are bound to types without alternatives, rows to records, and nothing that is bound is
mentioned in what something is bound to. -/
structure Settled (κ : Sorts) (s : Subst) : Prop where
  ordered : s.Ordered
  solved : s.stamp.Solved κ

theorem ordered_stamp (h : s.Ordered) : s.stamp.Ordered where
  keyed := List.forall_mem_map.2 h.keyed
  ascending := by
    rw [Table.Ascending, stamp, List.pairwise_map]
    exact h.ascending
  proper := by
    intro id w hw
    rw [get?_stamp, Option.map_eq_some_iff] at hw
    obtain ⟨t, ht, hw⟩ := hw
    cases t <;> cases hw
    exact h.proper ht

theorem settled_empty (κ : Sorts) : empty.Settled κ := ⟨ordered_empty, solved_empty κ⟩

section Settled

variable (hs : s.Settled κ)
include hs

theorem Settled.unmixed (h : s.get? id = some t) : t.Unmixed κ :=
  Ty.unmixed_of_core_stamp (hs.solved.core id t.stamp (by rw [get?_stamp, h]; rfl)).1

theorem Settled.row_cases {row : TyVar} (hrow : κ.isRow row.id) :
    s.get? row.id = none ∨ ∃ gs rest, s.get? row.id = some (.record gs rest) := by
  rcases hs.solved.core.row_cases hrow with h | ⟨gs, rest, h⟩
  · rw [get?_stamp, Option.map_eq_none_iff] at h
    exact .inl h
  · rw [get?_stamp, Option.map_eq_some_iff] at h
    obtain ⟨t, ht, hrecord⟩ := h
    cases t <;> cases hrecord
    exact .inr ⟨_, _, ht⟩

theorem Settled.apply (ht : t.Unmixed κ) : (s.apply t).Unmixed κ := by
  refine Ty.unmixed_of_core_stamp ?_
  rw [stamp_apply s ht]
  exact hs.solved.core.apply ht.core_stamp

theorem Settled.mentions_stamp : s.stamp.Mentions id ↔ s.Mentions id := by
  unfold Mentions
  simp only [get?_stamp, Option.map_eq_some_iff]
  refine or_congr ⟨fun ⟨t, u, hu, _⟩ => ⟨u, hu⟩, fun ⟨u, hu⟩ => ⟨u.stamp, u, hu, rfl⟩⟩
    ⟨?_, ?_⟩
  · rintro ⟨j, t, ⟨u, hu, rfl⟩, hid⟩
    exact ⟨j, u, hu, (hs.unmixed hu).mentions_stamp.1 hid⟩
  · rintro ⟨j, u, hu, hid⟩
    exact ⟨j, u.stamp, ⟨u, hu, rfl⟩, (hs.unmixed hu).mentions_stamp.2 hid⟩

/-- After a settled substitution none of its unknowns is left. -/
theorem Settled.free_of_mentions (ht : t.Unmixed κ) (h : (s.apply t).Mentions id) :
    s.get? id = none := by
  rw [← (hs.apply ht).mentions_stamp, stamp_apply s ht] at h
  have hfree := hs.solved.free_of_mentions ht.core_stamp h
  rwa [get?_stamp, Option.map_eq_none_iff] at hfree

theorem Settled.mentions_or_of_apply (ht : t.Unmixed κ) (h : (s.apply t).Mentions id) :
    t.Mentions id ∨ s.Mentions id := by
  rw [← (hs.apply ht).mentions_stamp, stamp_apply s ht] at h
  rw [← ht.mentions_stamp, ← hs.mentions_stamp]
  exact Subst.mentions_or_of_apply hs.solved.core ht.core_stamp h

variable (hn : next.Settled κ) (hapart : next.Apart s)
include hn hapart

omit hs in
theorem Settled.apart_stamp : next.stamp.Apart s.stamp := by
  intro id hid
  rw [get?_stamp, hapart id (hn.mentions_stamp.1 hid)]
  rfl

omit hapart in
theorem Settled.get?_after_stamp (id : Int) :
    (next.after s).stamp.get? id = (next.stamp.after s.stamp).get? id := by
  rw [get?_stamp, get?_after hn.ordered hs.ordered,
    get?_after hn.solved.ordered hs.solved.ordered, get?_stamp, get?_stamp]
  cases h : s.get? id with
  | none => rfl
  | some t =>
      show (held id (next.apply t)).map Ty.stamp = held id (next.stamp.apply t.stamp)
      rw [← stamp_apply next (hs.unmixed h)]
      cases next.apply t with
      | var w =>
          rw [Ty.stamp, held]
          split <;> rfl
      | _ => rfl

theorem Settled.after : (next.after s).Settled κ := by
  have hord := hn.ordered.after hs.ordered
  have hafter := hs.solved.after hn.solved (hn.apart_stamp hapart)
  have hget := hs.get?_after_stamp hn
  refine ⟨hord, ordered_stamp hord, fun id t ht => ?_, fun {id t} ht j hj => ?_⟩
  · rw [hget] at ht
    exact hafter.core id t ht
  · rw [hget] at ht ⊢
    exact hafter.fixed ht j hj

/-- Composition does one substitution after the other. -/
theorem Settled.apply_after (ht : t.Unmixed κ) :
    (next.after s).apply t = next.apply (s.apply t) := by
  refine Ty.Unmixed.stamp_inj ((hs.after hn hapart).apply ht) (hn.apply (hs.apply ht)) ?_
  rw [stamp_apply _ ht, stamp_apply _ (hs.apply ht), stamp_apply _ ht,
    Subst.apply_congr (hs.get?_after_stamp hn) ht.core_stamp]
  exact Subst.apply_after hs.solved hn.solved (hn.apart_stamp hapart) ht.core_stamp

theorem Settled.mentions_after (h : (next.after s).Mentions id) :
    s.Mentions id ∨ next.Mentions id := by
  rw [← (hs.after hn hapart).mentions_stamp] at h
  rw [← hs.mentions_stamp, ← hn.mentions_stamp]
  refine Subst.mentions_after hs.solved hn.solved (hn.apart_stamp hapart) ?_
  rcases h with ⟨t, ht⟩ | ⟨j, t, ht, hid⟩
  · exact .inl ⟨t, by rw [← hs.get?_after_stamp hn]; exact ht⟩
  · exact .inr ⟨j, t, by rw [← hs.get?_after_stamp hn]; exact ht, hid⟩

end Settled

end Subst

/-! ## What is found step by step -/

/-- A settled substitution whose unknowns satisfy a predicate, or were made between two counts. -/
structure Found (κ : Sorts) (P : Int → Prop) (n m : Nat) (s : Subst) : Prop where
  settled : s.Settled κ
  inside : ∀ id, s.Mentions id → P id ∨ (n < id ∧ id ≤ m)

section Found

variable {κ : Sorts} {P Q : Int → Prop} {n m m' : Nat} {s next : Subst} {id : Int}

theorem found_empty (κ : Sorts) (P : Int → Prop) (n m : Nat) : Found κ P n m .empty :=
  ⟨Subst.settled_empty κ, fun _ h => absurd h Subst.not_mentions_empty⟩

theorem Found.later (h : Found κ P n m s) (hmm : m ≤ m') : Found κ P n m' s :=
  ⟨h.settled, fun id hid => (h.inside id hid).imp_right fun ⟨hlt, hle⟩ => ⟨hlt, by omega⟩⟩

theorem Found.earlier {n' : Nat} (h : Found κ P n m s) (hn : n' ≤ n) : Found κ P n' m s :=
  ⟨h.settled, fun id hid => (h.inside id hid).imp_right fun ⟨hlt, hle⟩ => ⟨by omega, hle⟩⟩

theorem Found.mono (h : Found κ P n m s) (hPQ : ∀ id, P id → Q id) : Found κ Q n m s :=
  ⟨h.settled, fun id hid => (h.inside id hid).imp_left (hPQ id)⟩

/-- An unknown that is left in a type is free, and was there before or was made. -/
theorem Found.left (h : Found κ P n m s) {t : Ty} (ht : t.Unmixed κ)
    (hin : ∀ id, t.Mentions id → P id) (hid : (s.apply t).Mentions id) :
    s.get? id = none ∧ (P id ∨ (n < id ∧ id ≤ m)) := by
  refine ⟨h.settled.free_of_mentions ht hid, ?_⟩
  exact (h.settled.mentions_or_of_apply ht hid).elim (fun hid => .inl (hin id hid)) (h.inside id)

variable (h : Found κ P n m s) (hP : ∀ id, P id → id ≤ n) (hnm : n ≤ m)
include h hP hnm

theorem Found.older (hid : s.Mentions id) : id ≤ m := by
  rcases h.inside id hid with hid | ⟨-, hid⟩
  · have := hP id hid
    omega
  · exact hid

theorem Found.unbound (hid : m < id) : s.get? id = none := by
  cases hget : s.get? id with
  | none => rfl
  | some t =>
      have := h.older hP hnm (.inl ⟨t, hget⟩)
      omega

theorem Found.apart (hQ : ∀ id, Q id → s.get? id = none) (hnext : Found κ Q m m' next) :
    next.Apart s := fun id hid =>
  (hnext.inside id hid).elim (hQ id) fun hid => h.unbound hP hnm hid.1

/-- What is found step by step comes together. -/
theorem Found.append (hmm : m ≤ m')
    (hQ : ∀ id, Q id → s.get? id = none ∧ (P id ∨ (n < id ∧ id ≤ m)))
    (hnext : Found κ Q m m' next) : Found κ P n m' (next.after s) := by
  have hapart := h.apart hP hnm (fun id hid => (hQ id hid).1) hnext
  have hlater : ∀ {id : Int}, P id ∨ (n < id ∧ id ≤ m) → P id ∨ (n < id ∧ id ≤ m') := fun hid =>
    hid.imp_right fun ⟨hlt, hle⟩ => ⟨hlt, by omega⟩
  refine ⟨h.settled.after hnext.settled hapart, fun id hid => ?_⟩
  rcases h.settled.mentions_after hnext.settled hapart hid with hid | hid
  · exact hlater (h.inside id hid)
  · rcases hnext.inside id hid with hid | ⟨hlt, hle⟩
    · exact hlater (hQ id hid).2
    · exact .inr ⟨by omega, hle⟩

end Found

end RowTypes
