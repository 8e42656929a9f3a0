import RowTypes.Proofs.Alternatives
import RowTypes.Proofs.CoreTypes
import RowTypes.Proofs.Provenance

/-!
# Solved forms

A substitution is in solved form if nothing that it binds is left in what it binds anything to.  It
stays so when another one is found later, provided that the later one was found for types to which
the first has been applied: then it mentions nothing that the first one binds.

That a bound unknown is gone from a type once the substitution is applied needs care in one place.
A row that is bound to anything else than a record or an unknown stays where it is.  So rows and
other unknowns are kept apart, and solving binds rows to records only.  Which types are looked at
beyond that is left open: a `Grammar` is a class of types that is closed under what solving does
with them.
-/

namespace RowTypes

/-! ## Types whose rows are rows -/

namespace Subst

/-- Rows are bound to records only. -/
def RowsToRecords (row : Int → Prop) (s : Subst) : Prop :=
  ∀ id u, row id → s.get? id = some u → ∃ fs rest, u = .record fs rest

theorem RowsToRecords.erase {row : Int → Prop} {s : Subst} (h : s.RowsToRecords row) (v : TyVar) :
    (s.erase v).RowsToRecords row := by
  intro id u hrow hu
  rw [get?_erase] at hu
  split at hu
  · cases hu
  · exact h id u hrow hu

/-- Rows are bound to records or to unknowns, so that what they are bound to takes their place. -/
def ReplacesRows (row : Int → Prop) (s : Subst) : Prop :=
  ∀ id u, row id → s.get? id = some u → (∃ fs rest, u = .record fs rest) ∨ ∃ v, u = .var v

theorem RowsToRecords.replacesRows {row : Int → Prop} {s : Subst} (h : s.RowsToRecords row) :
    s.ReplacesRows row := fun id u hrow hu => .inl (h id u hrow hu)

theorem ReplacesRows.erase {row : Int → Prop} {s : Subst} (h : s.ReplacesRows row) (v : TyVar) :
    (s.erase v).ReplacesRows row := by
  intro id u hrow hu
  rw [get?_erase] at hu
  split at hu
  · cases hu
  · exact h id u hrow hu

/-- A number comes out of a type under a substitution: it occurs in the type and is not bound, or
occurs in what one of the type's unknowns is bound to. -/
def Leaves (s : Subst) (t : Ty) (id : Int) : Prop :=
  (t.Mentions id ∧ s.get? id = none) ∨ ∃ j u, t.Mentions j ∧ s.get? j = some u ∧ u.Mentions id

theorem Leaves.mono {s : Subst} {t t' : Ty} {id : Int} (h : s.Leaves t id)
    (hsub : ∀ j, t.Mentions j → t'.Mentions j) : s.Leaves t' id := by
  rcases h with ⟨h, hfree⟩ | ⟨j, u, hj, hu, hid⟩
  · exact .inl ⟨hsub id h, hfree⟩
  · exact .inr ⟨j, u, hsub j hj, hu, hid⟩

theorem leaves_of_isEmpty {s : Subst} {t : Ty} {id : Int} (hs : s.isEmpty = true)
    (h : t.Mentions id) : s.Leaves t id := .inl ⟨h, get?_of_isEmpty hs id⟩

variable {plain row : Int → Prop}

mutual

/-- Where what rows are bound to takes their place, what is bound is replaced wherever it occurs. -/
theorem leaves_of_mentions_apply {id : Int} : ∀ {s : Subst} {t : Ty}, s.ReplacesRows row →
    t.Kinded plain row → (s.apply t).Mentions id → s.Leaves t id
  | s, .var v, _, _, h => by
      rw [apply_var] at h
      cases hv : s.get? v.id with
      | none =>
          rw [hv] at h
          exact .inl ⟨h, Ty.mentions_var.1 h ▸ hv⟩
      | some u =>
          rw [hv] at h
          exact .inr ⟨v.id, u, Ty.mentions_var.2 rfl, hv, h⟩
  | s, .prim name, _, _, h => by
      rw [apply_prim] at h
      exact absurd h Ty.mentions_prim
  | s, .lit value, _, _, h => by
      rw [apply.eq_def] at h
      split at h <;> exact absurd h Ty.mentions_lit
  | s, .fn p r, hs, ht, h => by
      rw [apply_fn] at h
      rcases Ty.mentions_fn.1 h with h | h
      · exact (leaves_of_mentions_apply hs ht.1 h).mono fun j hj => Ty.mentions_fn.2 (.inl hj)
      · exact (leaves_of_mentions_apply hs ht.2 h).mono fun j hj => Ty.mentions_fn.2 (.inr hj)
  | s, .record fs none, hs, ht, h => by
      rw [apply_closed, ← applyFields_eq_map] at h
      rcases Ty.mentions_record.1 h with h | ⟨v, hv, -⟩
      · exact leaves_of_mentions_fields hs ht.1 none h
      · cases hv
  | s, .record fs (some v), hs, ht, h => by
      have hmem : (Ty.record fs (some v)).Mentions v.id := Ty.mentions_record.2 (.inr ⟨v, rfl, rfl⟩)
      rw [apply_open, ← applyFields_eq_map] at h
      cases hv : s.get? v.id with
      | none =>
          rw [hv] at h
          rcases Ty.mentions_record.1 h with h | ⟨w, hw, hid⟩
          · exact leaves_of_mentions_fields hs ht.1 _ h
          · cases hw
            exact .inl ⟨hid ▸ hmem, hid ▸ hv⟩
      | some u =>
          rcases hs v.id u (ht.2 v rfl) hv with ⟨gs, rest, rfl⟩ | ⟨w, rfl⟩
          · rw [hv] at h
            -- Fields that the row brings along are mentioned by what it is bound to, not by `fs`.
            rcases Ty.mentions_record.1 h with ⟨f, hf, h⟩ | h
            · rcases Table.mem_underlay hf with hf | hf
              · exact leaves_of_mentions_fields hs ht.1 _ ⟨f, hf, h⟩
              · exact .inr ⟨v.id, _, hmem, hv, Ty.mentions_record.2 (.inl ⟨f, hf, h⟩)⟩
            · exact .inr ⟨v.id, _, hmem, hv, Ty.mentions_record.2 (.inr h)⟩
          · rw [hv] at h
            rcases Ty.mentions_record.1 h with h | ⟨x, hx, hid⟩
            · exact leaves_of_mentions_fields hs ht.1 _ h
            · cases hx
              exact .inr ⟨v.id, _, hmem, hv, Ty.mentions_var.2 hid⟩
  | s, .tuple ts, hs, ht, h => by
      rw [apply_tuple, ← applyAll_eq_map] at h
      obtain ⟨t, ht, hy⟩ := leaves_of_mentions_all hs ht (Ty.mentions_tuple.1 h)
      exact hy.mono fun j hj => Ty.mentions_tuple.2 ⟨t, ht, hj⟩
  | s, .union ts, hs, ht, h => by
      rw [apply] at h
      split at h
      · next hempty => exact leaves_of_isEmpty hempty h
      · obtain ⟨t, ht, hy⟩ := leaves_of_mentions_all hs ht (Ty.mentions_unionOf h)
        exact hy.mono fun j hj => Ty.mentions_union.2 ⟨t, ht, hj⟩
  | s, .inter ts, hs, ht, h => by
      rw [apply] at h
      split at h
      · next hempty => exact leaves_of_isEmpty hempty h
      · obtain ⟨t, ht, hy⟩ := leaves_of_mentions_all hs ht (Ty.mentions_interOf h)
        exact hy.mono fun j hj => Ty.mentions_inter.2 ⟨t, ht, hj⟩
  | s, .named name ts, hs, ht, h => by
      rw [apply_named, ← applyAll_eq_map] at h
      obtain ⟨t, ht, hy⟩ := leaves_of_mentions_all hs ht (Ty.mentions_named.1 h)
      exact hy.mono fun j hj => Ty.mentions_named.2 ⟨t, ht, hj⟩
  | s, .mu v t, hs, ht, h => by
      rw [apply_mu] at h
      obtain ⟨hne, h⟩ := Ty.mentions_mu.1 h
      rcases leaves_of_mentions_apply (hs.erase v) ht.2 h with ⟨h, hfree⟩ | ⟨j, u, hj, hu, hid⟩
      · rw [get?_erase, if_neg (Ne.symm hne)] at hfree
        exact .inl ⟨Ty.mentions_mu.2 ⟨hne, h⟩, hfree⟩
      · rw [get?_erase] at hu
        split at hu
        · cases hu
        · next hjv => exact .inr ⟨j, u, Ty.mentions_mu.2 ⟨Ne.symm hjv, hj⟩, hu, hid⟩

theorem leaves_of_mentions_all {id : Int} : ∀ {s : Subst} {ts : List Ty}, s.ReplacesRows row →
    Ty.KindedAll plain row ts → (∃ t ∈ s.applyAll ts, t.Mentions id) → ∃ t ∈ ts, s.Leaves t id
  | s, [], _, _, h => by simp [applyAll] at h
  | s, t :: ts, hs, hts, h => by
      rw [applyAll, List.exists_mem_cons_iff] at h
      rcases h with h | h
      · exact ⟨t, List.mem_cons_self, leaves_of_mentions_apply hs hts.1 h⟩
      · obtain ⟨u, hu, hy⟩ := leaves_of_mentions_all hs hts.2 h
        exact ⟨u, List.mem_cons_of_mem _ hu, hy⟩

theorem leaves_of_mentions_fields {id : Int} : ∀ {s : Subst} {fs : List (String × Ty)},
    s.ReplacesRows row → Ty.KindedFields plain row fs → ∀ rest : Option TyVar,
    (∃ f ∈ s.applyFields fs, f.2.Mentions id) → s.Leaves (.record fs rest) id
  | s, [], _, _, _, h => by simp [applyFields] at h
  | s, (name, t) :: fs, hs, hfs, rest, h => by
      rw [applyFields, List.exists_mem_cons_iff] at h
      rcases h with h | h
      · exact (leaves_of_mentions_apply hs hfs.1 h).mono fun j hj =>
          Ty.mentions_record.2 (.inl ⟨(name, t), List.mem_cons_self, hj⟩)
      · refine (leaves_of_mentions_fields hs hfs.2 rest h).mono fun j hj => ?_
        rcases Ty.mentions_record.1 hj with ⟨f, hf, hj⟩ | hj
        · exact Ty.mentions_record.2 (.inl ⟨f, List.mem_cons_of_mem _ hf, hj⟩)
        · exact Ty.mentions_record.2 (.inr hj)

end

end Subst

/-! ## Grammars -/

/-- A class of types that is closed under what solving does with them, in which rows and other
unknowns are kept apart. -/
structure Grammar where
  isRow : Int → Prop
  Ok : Ty → Prop
  kinded : ∀ {t}, Ok t → t.Kinded (fun id => ¬ isRow id) isRow
  prim : ∀ name, Ok (.prim name)
  fn : ∀ {p r}, Ok (.fn p r) → Ok p ∧ Ok r
  field : ∀ {fs row}, Ok (.record fs row) → ∀ f ∈ fs, Ok f.2
  record : ∀ {fs row}, Table.Ascending fs → (∀ f ∈ fs, Ok f.2) → (∀ v, row = some v → isRow v.id) →
    Ok (.record fs row)
  tuple : ∀ {ts}, Ok (.tuple ts) ↔ ∀ t ∈ ts, Ok t
  union : ∀ {ts}, Ok (.union ts) → ∀ t ∈ ts, Ok t
  inter : ∀ {ts}, Ok (.inter ts) → ∀ t ∈ ts, Ok t
  named : ∀ {name ts}, Ok (.named name ts) → ∀ t ∈ ts, Ok t
  unionOf : ∀ {ts}, ts ≠ [] → (∀ t ∈ ts, Ok t) → Ok (Ty.unionOf ts)
  unfold : ∀ {v t}, Ok (.mu v t) → Ok (.unfold v t)
  apply : ∀ {s : Subst} {t}, (∀ id u, s.get? id = some u → Ok u) → s.RowsToRecords isRow → Ok t →
    Ok (s.apply t)

namespace Grammar

variable {G : Grammar} {P Q : Int → Prop} {n m m' : Nat} {s next : Subst} {t : Ty} {v : TyVar}

/-- A type of the grammar whose free unknowns satisfy a predicate. -/
structure Within (G : Grammar) (Q : Int → Prop) (t : Ty) : Prop where
  ok : G.Ok t
  free : ∀ id, t.Mentions id → Q id

theorem Within.mono (h : G.Within P t) (hPQ : ∀ id, P id → Q id) : G.Within Q t :=
  ⟨h.ok, fun id hid => hPQ id (h.free id hid)⟩

section

variable {p r : Ty} {ts : List Ty} {fs : List (String × Ty)} {rest : Option TyVar} {name : String}

theorem within_prim (name : String) : G.Within Q (.prim name) :=
  ⟨G.prim name, fun _ h => absurd h Ty.mentions_prim⟩

theorem Within.var (h : G.Within Q (.var v)) : Q v.id ∧ ¬ G.isRow v.id :=
  ⟨h.free _ (Ty.mentions_var.2 rfl), G.kinded h.ok⟩

theorem Within.fn (h : G.Within Q (.fn p r)) : G.Within Q p ∧ G.Within Q r :=
  ⟨⟨(G.fn h.ok).1, fun id hid => h.free id (Ty.mentions_fn.2 (.inl hid))⟩,
    ⟨(G.fn h.ok).2, fun id hid => h.free id (Ty.mentions_fn.2 (.inr hid))⟩⟩

theorem Within.field (h : G.Within Q (.record fs rest)) : ∀ f ∈ fs, G.Within Q f.2 := fun f hf =>
  ⟨G.field h.ok f hf, fun id hid => h.free id (Ty.mentions_record.2 (.inl ⟨f, hf, hid⟩))⟩

theorem Within.rowOf (h : G.Within Q (.record fs (some v))) : Q v.id ∧ G.isRow v.id :=
  ⟨h.free _ (Ty.mentions_record.2 (.inr ⟨v, rfl, rfl⟩)),
    (Ty.kinded_record.1 (G.kinded h.ok)).2 v rfl⟩

theorem within_record (hasc : Table.Ascending fs) (hfs : ∀ f ∈ fs, G.Within Q f.2)
    (hrow : ∀ v, rest = some v → Q v.id ∧ G.isRow v.id) : G.Within Q (.record fs rest) := by
  refine ⟨G.record hasc (fun f hf => (hfs f hf).ok) fun v hv => (hrow v hv).2, fun id hid => ?_⟩
  rcases Ty.mentions_record.1 hid with ⟨f, hf, hid⟩ | ⟨v, hv, rfl⟩
  · exact (hfs f hf).free id hid
  · exact (hrow v hv).1

theorem within_tuple : G.Within Q (.tuple ts) ↔ ∀ t ∈ ts, G.Within Q t := by
  constructor
  · exact fun h t ht => ⟨G.tuple.1 h.ok t ht, fun id hid => h.free id (Ty.mentions_tuple.2 ⟨t, ht, hid⟩)⟩
  · refine fun h => ⟨G.tuple.2 fun t ht => (h t ht).ok, fun id hid => ?_⟩
    obtain ⟨t, ht, hid⟩ := Ty.mentions_tuple.1 hid
    exact (h t ht).free id hid

theorem Within.union (h : G.Within Q (.union ts)) : ∀ t ∈ ts, G.Within Q t := fun t ht =>
  ⟨G.union h.ok t ht, fun id hid => h.free id (Ty.mentions_union.2 ⟨t, ht, hid⟩)⟩

theorem Within.inter (h : G.Within Q (.inter ts)) : ∀ t ∈ ts, G.Within Q t := fun t ht =>
  ⟨G.inter h.ok t ht, fun id hid => h.free id (Ty.mentions_inter.2 ⟨t, ht, hid⟩)⟩

theorem Within.named (h : G.Within Q (.named name ts)) : ∀ t ∈ ts, G.Within Q t := fun t ht =>
  ⟨G.named h.ok t ht, fun id hid => h.free id (Ty.mentions_named.2 ⟨t, ht, hid⟩)⟩

theorem within_unionOf (hne : ts ≠ []) (h : ∀ t ∈ ts, G.Within Q t) :
    G.Within Q (Ty.unionOf ts) := by
  refine ⟨G.unionOf hne fun t ht => (h t ht).ok, fun id hid => ?_⟩
  obtain ⟨t, ht, hid⟩ := Ty.mentions_unionOf hid
  exact (h t ht).free id hid

/-- The binder is not a row, so unfolding replaces it everywhere. -/
theorem Within.unfold (h : G.Within Q (.mu v t)) : G.Within Q (.unfold v t) := by
  obtain ⟨hv, ht⟩ := G.kinded h.ok
  refine ⟨G.unfold h.ok, fun id hid => h.free id ?_⟩
  have hget : ∀ j u, (Subst.single v (.mu v t)).get? j = some u → j = v.id ∧ u = .mu v t := by
    intro j u hu
    rw [Subst.get?_single] at hu
    split at hu
    · next hj => exact ⟨hj, (Subst.held_eq_some hu).1⟩
    · cases hu
  have hrows : (Subst.single v (.mu v t)).ReplacesRows G.isRow := by
    intro j u hrow hu
    obtain ⟨rfl, -⟩ := hget j u hu
    exact absurd hrow hv
  rcases Subst.leaves_of_mentions_apply hrows ht hid with ⟨hid, hfree⟩ | ⟨j, u, -, hu, hid⟩
  · rw [Subst.get?_single, Subst.held_of_ne (by simp)] at hfree
    split at hfree
    · cases hfree
    · next hne => exact Ty.mentions_mu.2 ⟨Ne.symm hne, hid⟩
  · obtain ⟨-, rfl⟩ := hget j u hu
    exact hid

end

/-- The named types keep to the grammar, and bring no unknowns in. -/
def Expands (G : Grammar) (r : Registry) : Prop :=
  ∀ {name args t}, r.expand? name args = some t → G.Ok (.named name args) →
    G.Ok t ∧ ∀ id, t.Mentions id → ∃ u ∈ args, u.Mentions id

/-! ## Substitutions in solved form -/

/-- A substitution to types of the grammar that mentions only numbers that satisfy a predicate, in
solved form. -/
structure Solved (G : Grammar) (Q : Int → Prop) (s : Subst) : Prop where
  ordered : s.Ordered
  ok : ∀ id u, s.get? id = some u → G.Ok u
  rows : s.RowsToRecords G.isRow
  inside : ∀ id, s.Mentions id → Q id
  fixed : ∀ {id u}, s.get? id = some u → ∀ j, u.Mentions j → s.get? j = none

theorem solved_empty : G.Solved Q .empty where
  ordered := Subst.ordered_empty
  ok := by simp
  rows := by simp [Subst.RowsToRecords]
  inside _ h := absurd h Subst.not_mentions_empty
  fixed h := by simp at h

theorem Solved.mono (h : G.Solved P s) (hPQ : ∀ id, P id → Q id) : G.Solved Q s :=
  ⟨h.ordered, h.ok, h.rows, fun id hid => hPQ id (h.inside id hid), h.fixed⟩

/-- What an unknown may be bound to in solved form: a type in which it does not occur. -/
theorem solved_single (hv : Q v.id) (ht : G.Within Q t) (hoccurs : ¬ t.Mentions v.id)
    (hrow : G.isRow v.id → ∃ fs rest, t = .record fs rest) : G.Solved Q (.single v t) := by
  constructor
  · exact Subst.ordered_single v t
  · exact fun id u hu => (Subst.eq_of_get?_single hu).2 ▸ ht.ok
  · intro id u hid hu
    obtain ⟨rfl, rfl⟩ := Subst.eq_of_get?_single hu
    exact hrow hid
  · rintro id (⟨u, hu⟩ | ⟨j, u, hu, hid⟩)
    · exact (Subst.eq_of_get?_single hu).1 ▸ hv
    · exact ht.free id ((Subst.eq_of_get?_single hu).2 ▸ hid)
  · intro id u hu j hj
    obtain ⟨rfl, rfl⟩ := Subst.eq_of_get?_single hu
    rw [Subst.get?_single, if_neg]
    rintro rfl
    exact hoccurs hj

/-- The numbers that are left once a substitution is applied. -/
def Left (Q : Int → Prop) (s : Subst) (id : Int) : Prop := Q id ∧ s.get? id = none

/-- What is bound is gone from a type once the substitution is applied. -/
theorem Within.apply (ht : G.Within Q t) (hs : G.Solved Q s) : G.Within (Left Q s) (s.apply t) := by
  refine ⟨G.apply hs.ok hs.rows ht.ok, fun id hid => ?_⟩
  rcases Subst.leaves_of_mentions_apply hs.rows.replacesRows (G.kinded ht.ok) hid with
    ⟨h, hfree⟩ | ⟨j, u, -, hu, hid⟩
  · exact ⟨ht.free id h, hfree⟩
  · exact ⟨hs.inside id (.inr ⟨j, u, hu, hid⟩), hs.fixed hu id hid⟩

theorem Within.apply' (ht : G.Within Q t) (hs : G.Solved Q s) : G.Within Q (s.apply t) :=
  (ht.apply hs).mono fun _ h => h.1

/-- What a substitution binds is not mentioned by what another one binds anything to. -/
def Clears (next s : Subst) : Prop :=
  ∀ {id u}, next.get? id = some u → ∀ j, u.Mentions j → s.get? j = none

/-- What is found for types to which a substitution was applied mentions nothing that it binds. -/
theorem Solved.apart (hs : G.Solved (Known P n m) s) (hP : ∀ id, P id → id ≤ n) (hnm : n ≤ m)
    (hnext : G.Solved (Known (Left (Known P n m) s) m m') next) : next.Apart s := by
  intro id hid
  rcases hnext.inside id hid with h | ⟨hlt, -⟩
  · exact h.2
  · have holder : ∀ j, Known P n m j → j ≤ m := by
      rintro j (hj | ⟨-, hj⟩)
      · have := hP j hj
        omega
      · exact hj
    cases hget : s.get? id with
    | none => rfl
    | some u =>
        have := holder id (hs.inside id (.inl ⟨u, hget⟩))
        omega

theorem clears_of_apart (h : next.Apart s) : Clears next s :=
  fun hu j hj => h j (.inr ⟨_, _, hu, hj⟩)

/-- A binding found first is carried on, and one found next is added. -/
theorem Solved.get?_after (hs : G.Solved P s) (hn : G.Solved Q next) (hclears : Clears next s)
    (id : Int) : (next.after s).get? id =
      match s.get? id with
      | some t => some (next.apply t)
      | none => next.get? id := by
  rw [Subst.get?_after hn.ordered hs.ordered]
  cases h : s.get? id with
  | none => rfl
  | some t =>
      refine Subst.held_of_ne fun w hw hid => ?_
      -- The unknown itself would have to occur in its own binding, now or before.
      have hmention : (next.apply t).Mentions id := hw ▸ Ty.mentions_var.2 hid
      have hfree : s.get? id = none := by
        rcases Subst.leaves_of_mentions_apply hn.rows.replacesRows (G.kinded (hs.ok id t h))
          hmention with ⟨hm, -⟩ | ⟨j, u, -, hu, hm⟩
        · exact hs.fixed h id hm
        · exact hclears hu id hm
      rw [h] at hfree
      cases hfree

theorem Solved.after (hs : G.Solved Q s) (hn : G.Solved Q next) (hclears : Clears next s) :
    G.Solved Q (next.after s) := by
  have hget := hs.get?_after hn hclears
  have hcases : ∀ {id u}, (next.after s).get? id = some u →
      (∃ t, s.get? id = some t ∧ u = next.apply t) ∨ s.get? id = none ∧ next.get? id = some u := by
    intro id u hu
    rw [hget] at hu
    cases h : s.get? id with
    | none =>
        rw [h] at hu
        exact .inr ⟨rfl, hu⟩
    | some t =>
        rw [h] at hu
        cases hu
        exact .inl ⟨t, rfl, rfl⟩
  have hleaves : ∀ {id t j}, s.get? id = some t → (next.apply t).Mentions j →
      (t.Mentions j ∧ next.get? j = none) ∨ ∃ i u, next.get? i = some u ∧ u.Mentions j := by
    intro id t j h hj
    rcases Subst.leaves_of_mentions_apply hn.rows.replacesRows (G.kinded (hs.ok id t h)) hj with
      h | ⟨i, u, -, hu, hj⟩
    · exact .inl h
    · exact .inr ⟨i, u, hu, hj⟩
  constructor
  · exact hn.ordered.after hs.ordered
  · intro id u hu
    rcases hcases hu with ⟨t, ht, rfl⟩ | ⟨-, hu⟩
    · exact G.apply hn.ok hn.rows (hs.ok id t ht)
    · exact hn.ok id u hu
  · intro id u hrow hu
    rcases hcases hu with ⟨t, ht, rfl⟩ | ⟨-, hu⟩
    · obtain ⟨fs, rest, rfl⟩ := hs.rows id t hrow ht
      exact next.exists_record_eq_apply fs rest
    · exact hn.rows id u hrow hu
  · rintro id (⟨u, hu⟩ | ⟨j, u, hu, hid⟩)
    · rcases hcases hu with ⟨t, ht, -⟩ | ⟨-, hu⟩
      · exact hs.inside id (.inl ⟨t, ht⟩)
      · exact hn.inside id (.inl ⟨u, hu⟩)
    · rcases hcases hu with ⟨t, ht, rfl⟩ | ⟨-, hu⟩
      · rcases hleaves ht hid with ⟨hid, -⟩ | ⟨i, u, hu, hid⟩
        · exact hs.inside id (.inr ⟨j, t, ht, hid⟩)
        · exact hn.inside id (.inr ⟨i, u, hu, hid⟩)
      · exact hn.inside id (.inr ⟨j, u, hu, hid⟩)
  · intro id u hu j hj
    have hfree : s.get? j = none ∧ next.get? j = none := by
      rcases hcases hu with ⟨t, ht, rfl⟩ | ⟨-, hu⟩
      · rcases hleaves ht hj with ⟨hj, hfree⟩ | ⟨i, w, hw, hj⟩
        · exact ⟨hs.fixed ht j hj, hfree⟩
        · exact ⟨hclears hw j hj, hn.fixed hw j hj⟩
      · exact ⟨hclears hu j hj, hn.fixed hu j hj⟩
    rw [hget, hfree.1]
    exact hfree.2

end Grammar

end RowTypes
