import RowTypes.Proofs.Equivalence
import RowTypes.Proofs.StableTypes

/-!
# Core types and solved substitutions

The types that equalities are solved over are those made of unknowns, primitives, functions,
tuples and records.  Rows and other unknowns share their numbers, so what a number stands for is
said from outside, by sorts.  The same sorts say whether there are records at all: types without
them are the ones that joins of branches are solved over.

Solving only makes substitutions that are solved: no unknown that is bound occurs in a type that
another one is bound to.  A substitution found later mentions no unknown that was bound before, and
then composition is exactly doing one after the other, on the types themselves and not only up to
equivalence.
-/

namespace RowTypes

/-- What the numbers of unknowns stand for. -/
structure Sorts where
  /-- The number is that of a row. -/
  isRow : Int → Prop
  /-- There are records. -/
  records : Prop

namespace Ty

/-- Types of unknowns, primitives, functions, tuples and records, by the sorts. -/
inductive Core (κ : Sorts) : Ty → Prop where
  | var {v : TyVar} : ¬ κ.isRow v.id → Core κ (.var v)
  | prim (name : String) : Core κ (.prim name)
  | fn {p r : Ty} : Core κ p → Core κ r → Core κ (.fn p r)
  | tuple {ts : List Ty} : (∀ t ∈ ts, Core κ t) → Core κ (.tuple ts)
  | record {fs : List (String × Ty)} {row : Option TyVar} : κ.records → Table.Ascending fs →
      (∀ v, row = some v → κ.isRow v.id) → (∀ f ∈ fs, Core κ f.2) → Core κ (.record fs row)

theorem Core.tame {κ : Sorts} {t : Ty} (h : t.Core κ) : t.Tame := by
  induction h with
  | var _ => exact .var _
  | prim name => exact .prim name
  | fn _ _ ihp ihr => exact .fn ihp ihr
  | tuple _ ih => exact .tuple ih
  | record _ hasc _ _ ih => exact .record _ hasc ih

theorem Core.stable {κ : Sorts} {t : Ty} (h : t.Core κ) : t.Stable := by
  induction h with
  | var _ => exact .var _
  | prim name => exact .prim name
  | fn _ _ ihp ihr => exact .fn ihp ihr
  | tuple _ ih => exact .tuple ih
  | record _ _ _ _ ih => exact .record _ ih

end Ty

namespace Subst

/-- Unknowns are bound to core types, and rows to records. -/
def Core (κ : Sorts) (s : Subst) : Prop :=
  ∀ id t, s.get? id = some t → t.Core κ ∧ (κ.isRow id → ∃ fs row, t = .record fs row)

/-- An unknown is bound, or occurs in what one is bound to. -/
def Mentions (id : Int) (s : Subst) : Prop :=
  (∃ t, s.get? id = some t) ∨ ∃ j t, s.get? j = some t ∧ t.Mentions id

/-- The first substitution mentions nothing that the second one binds. -/
def Apart (next s : Subst) : Prop := ∀ id, next.Mentions id → s.get? id = none

/-- What unknowns are bound to mentions no unknown that is bound. -/
structure Solved (κ : Sorts) (s : Subst) : Prop where
  ordered : s.Ordered
  core : s.Core κ
  fixed : ∀ {id : Int} {t : Ty}, s.get? id = some t → ∀ j, t.Mentions j → s.get? j = none

theorem solved_empty (κ : Sorts) : empty.Solved κ where
  ordered := ordered_empty
  core := by intro id t h; cases h
  fixed := by intro id t h; cases h

theorem not_mentions_empty {id : Int} : ¬ empty.Mentions id := by
  rintro (⟨t, h⟩ | ⟨j, t, h, -⟩) <;> cases h

section Application

variable {κ : Sorts} {s : Subst}

theorem apply_open_unbound {fs : List (String × Ty)} {row : TyVar} (h : s.get? row.id = none) :
    s.apply (.record fs (some row)) = .record (fs.map fun f => (f.1, s.apply f.2)) (some row) := by
  rw [apply_open, h]
  rfl

theorem apply_open_bound {fs gs : List (String × Ty)} {row : TyVar} {rest : Option TyVar}
    (h : s.get? row.id = some (.record gs rest)) :
    s.apply (.record fs (some row)) =
      .record (Table.underlay (fs.map fun f => (f.1, s.apply f.2)) gs) rest := by
  rw [apply_open, h]
  rfl

/-- The row of a record is free under a substitution, or bound to a record. -/
theorem Core.row_cases (hs : s.Core κ) {row : TyVar} (hrow : κ.isRow row.id) :
    s.get? row.id = none ∨ ∃ gs rest, s.get? row.id = some (.record gs rest) := by
  cases h : s.get? row.id with
  | none => exact .inl rfl
  | some t =>
      obtain ⟨gs, rest, rfl⟩ := (hs _ _ h).2 hrow
      exact .inr ⟨gs, rest, rfl⟩

theorem mem_map_fields {f : String × Ty} {fs : List (String × Ty)}
    (h : f ∈ fs.map fun f => (f.1, s.apply f.2)) : ∃ g ∈ fs, f = (g.1, s.apply g.2) := by
  obtain ⟨g, hg, rfl⟩ := List.mem_map.1 h
  exact ⟨g, hg, rfl⟩

theorem Core.apply (hs : s.Core κ) {t : Ty} (ht : t.Core κ) : (s.apply t).Core κ := by
  induction ht with
  | @var v hv =>
      rw [apply_var]
      cases h : s.get? v.id with
      | none => exact .var hv
      | some u => exact (hs _ _ h).1
  | prim name => rw [apply_prim]; exact .prim name
  | fn _ _ ihp ihr => rw [apply_fn]; exact .fn ihp ihr
  | tuple _ ih =>
      rw [apply_tuple]
      refine .tuple fun t ht => ?_
      obtain ⟨u, hu, rfl⟩ := List.mem_map.1 ht
      exact ih u hu
  | @record fs row hrec hasc hrow hfs ih =>
      have hmap : ∀ f ∈ fs.map fun f => (f.1, s.apply f.2), f.2.Core κ := by
        intro f hf
        obtain ⟨g, hg, rfl⟩ := mem_map_fields hf
        exact ih g hg
      cases row with
      | none =>
          rw [apply_closed]
          exact .record hrec (hasc.map s.apply) (by intro v hv; cases hv) hmap
      | some row =>
          rcases hs.row_cases (hrow row rfl) with h | ⟨gs, rest, h⟩
          · rw [apply_open_unbound h]
            exact .record hrec (hasc.map s.apply) hrow hmap
          · rw [apply_open_bound h]
            cases (hs _ _ h).1 with
            | record _ _ hrest hgs =>
                refine .record hrec (hasc.map s.apply).underlay hrest fun f hf => ?_
                rcases Table.mem_underlay hf with hf | hf
                · exact hmap f hf
                · exact hgs f hf

/-- The unknowns of a type under a substitution are free ones of the type, or come from what its
bound ones are bound to. -/
theorem Core.mentions_apply (hs : s.Core κ) {t : Ty} (ht : t.Core κ) {id : Int}
    (h : (s.apply t).Mentions id) :
    (t.Mentions id ∧ s.get? id = none) ∨
      ∃ j u, t.Mentions j ∧ s.get? j = some u ∧ u.Mentions id := by
  induction ht with
  | @var v _ =>
      rw [apply_var] at h
      cases hv : s.get? v.id with
      | none =>
          rw [hv] at h
          have hid : v.id = id := Ty.mentions_var.1 h
          exact .inl ⟨h, hid ▸ hv⟩
      | some u => rw [hv] at h; exact .inr ⟨v.id, u, Ty.mentions_var.2 rfl, hv, h⟩
  | prim name =>
      rw [apply_prim] at h
      exact absurd h Ty.mentions_prim
  | fn _ _ ihp ihr =>
      rw [apply_fn] at h
      rcases Ty.mentions_fn.1 h with h | h
      · rcases ihp h with ⟨h, hfree⟩ | ⟨j, u, hj, hu, hid⟩
        · exact .inl ⟨Ty.mentions_fn.2 (.inl h), hfree⟩
        · exact .inr ⟨j, u, Ty.mentions_fn.2 (.inl hj), hu, hid⟩
      · rcases ihr h with ⟨h, hfree⟩ | ⟨j, u, hj, hu, hid⟩
        · exact .inl ⟨Ty.mentions_fn.2 (.inr h), hfree⟩
        · exact .inr ⟨j, u, Ty.mentions_fn.2 (.inr hj), hu, hid⟩
  | tuple _ ih =>
      rw [apply_tuple] at h
      obtain ⟨t', ht', h⟩ := Ty.mentions_tuple.1 h
      obtain ⟨t, ht, rfl⟩ := List.mem_map.1 ht'
      rcases ih t ht h with ⟨h, hfree⟩ | ⟨j, u, hj, hu, hid⟩
      · exact .inl ⟨Ty.mentions_tuple.2 ⟨t, ht, h⟩, hfree⟩
      · exact .inr ⟨j, u, Ty.mentions_tuple.2 ⟨t, ht, hj⟩, hu, hid⟩
  | @record fs row _ _ hrow _ ih =>
      have hfields : (∃ f ∈ fs.map fun f => (f.1, s.apply f.2), f.2.Mentions id) →
          ((Ty.record fs row).Mentions id ∧ s.get? id = none) ∨
            ∃ j u, (Ty.record fs row).Mentions j ∧ s.get? j = some u ∧ u.Mentions id := by
        rintro ⟨f', hf', h⟩
        obtain ⟨f, hf, rfl⟩ := mem_map_fields hf'
        rcases ih f hf h with ⟨h, hfree⟩ | ⟨j, u, hj, hu, hid⟩
        · exact .inl ⟨Ty.mentions_record.2 (.inl ⟨f, hf, h⟩), hfree⟩
        · exact .inr ⟨j, u, Ty.mentions_record.2 (.inl ⟨f, hf, hj⟩), hu, hid⟩
      cases row with
      | none =>
          rw [apply_closed] at h
          rcases Ty.mentions_record.1 h with h | ⟨v, hv, -⟩
          · exact hfields h
          · cases hv
      | some row =>
          have hmem : (Ty.record fs (some row)).Mentions row.id :=
            Ty.mentions_record.2 (.inr ⟨row, rfl, rfl⟩)
          rcases hs.row_cases (hrow row rfl) with hfree | ⟨gs, rest, hbound⟩
          · rw [apply_open_unbound hfree] at h
            rcases Ty.mentions_record.1 h with h | ⟨v, hv, hid⟩
            · exact hfields h
            · cases hv
              exact .inl ⟨hid ▸ hmem, hid ▸ hfree⟩
          -- Fields that the row brings along are mentioned by what it is bound to, not by `fs`.
          · rw [apply_open_bound hbound] at h
            rcases Ty.mentions_record.1 h with ⟨f, hf, h⟩ | h
            · rcases Table.mem_underlay hf with hf | hf
              · exact hfields ⟨f, hf, h⟩
              · exact .inr ⟨row.id, _, hmem, hbound, Ty.mentions_record.2 (.inl ⟨f, hf, h⟩)⟩
            · exact .inr ⟨row.id, _, hmem, hbound, Ty.mentions_record.2 (.inr h)⟩

end Application

/-! ## Solved substitutions -/

section Composition

variable {κ : Sorts} {s next : Subst} {t : Ty} {id : Int}

/-- After a solved substitution none of its unknowns is left. -/
theorem Solved.free_of_mentions (hs : s.Solved κ) (ht : t.Core κ)
    (h : (s.apply t).Mentions id) : s.get? id = none := by
  rcases hs.core.mentions_apply ht h with ⟨-, hfree⟩ | ⟨j, u, -, hu, hid⟩
  · exact hfree
  · exact hs.fixed hu id hid

theorem Solved.apply_apply (hs : s.Solved κ) (ht : t.Core κ) :
    s.apply (s.apply t) = s.apply t :=
  (hs.core.apply ht).stable.apply_eq_self fun _ => hs.free_of_mentions ht

theorem mentions_or_of_apply (hs : s.Core κ) (ht : t.Core κ) (h : (s.apply t).Mentions id) :
    t.Mentions id ∨ s.Mentions id := by
  rcases hs.mentions_apply ht h with ⟨h, -⟩ | ⟨j, u, -, hu, hid⟩
  · exact .inl h
  · exact .inr (.inr ⟨j, u, hu, hid⟩)

/-- A binding found first is carried on, and one found next is added. -/
theorem get?_after_apart (hs : s.Solved κ) (hn : next.Solved κ) (hapart : next.Apart s)
    (id : Int) : (next.after s).get? id =
      match s.get? id with
      | some t => some (next.apply t)
      | none => next.get? id := by
  rw [get?_after hn.ordered hs.ordered]
  cases h : s.get? id with
  | none => rfl
  | some t =>
      refine held_of_ne fun w hw hid => ?_
      -- The unknown itself would have to occur in its own binding, now or before.
      have hmention : (next.apply t).Mentions id := by
        rw [hw]
        exact Ty.mentions_var.2 hid
      have hfree : s.get? id = none := by
        rcases mentions_or_of_apply hn.core (hs.core _ _ h).1 hmention with hm | hm
        · exact hs.fixed h id hm
        · exact hapart id hm
      rw [h] at hfree
      cases hfree

theorem Solved.after (hs : s.Solved κ) (hn : next.Solved κ) (hapart : next.Apart s) :
    (next.after s).Solved κ where
  ordered := hn.ordered.after hs.ordered
  core := by
    intro id t ht
    rw [get?_after_apart hs hn hapart] at ht
    cases h : s.get? id with
    | none => rw [h] at ht; exact hn.core id t ht
    | some u =>
        rw [h] at ht
        cases ht
        obtain ⟨hcore, hrow⟩ := hs.core id u h
        refine ⟨hn.core.apply hcore, fun hid => ?_⟩
        obtain ⟨fs, row, rfl⟩ := hrow hid
        cases row with
        | none => exact ⟨_, _, apply_closed next fs⟩
        | some row => exact ⟨_, _, apply_open next fs row⟩
  fixed := by
    intro id t ht j hj
    rw [get?_after_apart hs hn hapart]
    have hfree : s.get? j = none ∧ next.get? j = none := by
      rw [get?_after_apart hs hn hapart] at ht
      cases h : s.get? id with
      | none =>
          rw [h] at ht
          exact ⟨hapart j (.inr ⟨id, t, ht, hj⟩), hn.fixed ht j hj⟩
      | some u =>
          rw [h] at ht
          cases ht
          rcases hn.core.mentions_apply (hs.core id u h).1 hj with ⟨hu, hfree⟩ | ⟨i, w, -, hw, hid⟩
          · exact ⟨hs.fixed h j hu, hfree⟩
          · exact ⟨hapart j (.inr ⟨i, w, hw, hid⟩), hn.fixed hw j hid⟩
    rw [hfree.1]
    exact hfree.2

theorem mentions_after (hs : s.Solved κ) (hn : next.Solved κ) (hapart : next.Apart s)
    (h : (next.after s).Mentions id) : s.Mentions id ∨ next.Mentions id := by
  rcases h with ⟨t, ht⟩ | ⟨j, t, ht, hid⟩
  · rw [get?_after_apart hs hn hapart] at ht
    cases h : s.get? id with
    | none => rw [h] at ht; exact .inr (.inl ⟨t, ht⟩)
    | some u => exact .inl (.inl ⟨u, h⟩)
  · rw [get?_after_apart hs hn hapart] at ht
    cases h : s.get? j with
    | none => rw [h] at ht; exact .inr (.inr ⟨j, t, ht, hid⟩)
    | some u =>
        rw [h] at ht
        cases ht
        rcases mentions_or_of_apply hn.core (hs.core j u h).1 hid with hm | hm
        · exact .inl (.inr ⟨j, u, h, hm⟩)
        · exact .inr hm

/-- Composition does one substitution after the other. -/
theorem apply_after (hs : s.Solved κ) (hn : next.Solved κ) (hapart : next.Apart s)
    (ht : t.Core κ) : (next.after s).apply t = next.apply (s.apply t) := by
  have hget := get?_after_apart hs hn hapart
  induction ht with
  | @var v _ =>
      rw [apply_var, apply_var, hget]
      cases h : s.get? v.id with
      | none => exact (apply_var next v).symm
      | some u => rfl
  | prim name => rw [apply_prim, apply_prim, apply_prim]
  | fn _ _ ihp ihr => rw [apply_fn, apply_fn, apply_fn, ihp, ihr]
  | tuple _ ih =>
      rw [apply_tuple, apply_tuple, apply_tuple, List.map_map]
      exact congrArg _ (List.map_congr_left ih)
  | @record fs row _ hasc hrow _ ih =>
      have hfs : (fs.map fun f => (f.1, (next.after s).apply f.2)) =
          (fs.map fun f => (f.1, s.apply f.2)).map fun f => (f.1, next.apply f.2) := by
        rw [List.map_map]
        exact List.map_congr_left fun f hf => by rw [ih f hf]; rfl
      cases row with
      | none => rw [apply_closed, apply_closed, apply_closed, hfs]
      | some row =>
          rcases hs.core.row_cases (hrow row rfl) with hfree | ⟨gs, rest, hbound⟩
          · rw [apply_open_unbound hfree, apply_open, apply_open, hfs, hget, hfree]
          -- Both sides lay three layers of fields over each other, grouped differently.
          · have hafter : (next.after s).get? row.id = some (next.apply (.record gs rest)) := by
              rw [hget, hbound]
            rw [apply_open_bound hbound, apply_open, hafter, hfs]
            cases (hs.core _ _ hbound).1 with
            | record _ hasc' hrest _ =>
                have hmap := (hasc.map s.apply).map_underlay next.apply gs
                cases rest with
                | none => rw [apply_closed, apply_closed, hmap]; rfl
                | some row' =>
                    rcases hn.core.row_cases (hrest row' rfl) with hfree' | ⟨hs', rest', hbound'⟩
                    · rw [apply_open_unbound hfree', apply_open_unbound hfree', hmap]; rfl
                    · rw [apply_open_bound hbound', apply_open_bound hbound', hmap,
                        ((hasc.map s.apply).map next.apply).underlay_underlay]
                      rfl

/-- What is done to a core type depends on the bindings alone. -/
theorem apply_congr {s' : Subst} (h : ∀ id, s.get? id = s'.get? id) (ht : t.Core κ) :
    s.apply t = s'.apply t := ht.stable.apply_congr fun id _ => h id

/-- It does not matter in which order three substitutions are composed. -/
theorem get?_after_assoc {last : Subst} (hs : s.Solved κ) (hn : next.Solved κ)
    (hl : last.Solved κ) (hns : next.Apart s) (hln : last.Apart next) (hls : last.Apart s)
    (id : Int) : (last.after (next.after s)).get? id = ((last.after next).after s).get? id := by
  have hleft : last.Apart (next.after s) := by
    intro id hid
    rw [get?_after_apart hs hn hns, hls id hid]
    exact hln id hid
  have hright : (last.after next).Apart s := by
    intro id hid
    rcases mentions_after hn hl hln hid with hid | hid
    · exact hns id hid
    · exact hls id hid
  rw [get?_after_apart (hs.after hn hns) hl hleft, get?_after_apart hs hn hns,
    get?_after_apart hs (hn.after hl hln) hright]
  cases h : s.get? id with
  | some t => exact congrArg some (apply_after hn hl hln (hs.core _ _ h).1).symm
  | none => exact (get?_after_apart hn hl hln id).symm

end Composition

end Subst

end RowTypes
