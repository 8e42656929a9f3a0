import RowTypes.Coverage.Space
import RowTypes.Proofs.BuiltTypes
import RowTypes.Proofs.Refining

/-!
# What types are formed of, and their heads

`Formed` says what unknowns are free in a type, rows apart, and what is true of the recursive types
inside; it is kept by substitutions that keep the latter.

The head of a type is looked for through unions, intersections and recursive types.  An unknown that
stands there is bare, and how many of them stand below each other is the height of a tower.  What
replaces an unknown comes to the head only if the unknown is bare, and a tower grows only then.
-/

namespace RowTypes

open Ty

/-! ## Heads -/

namespace Ty

variable {id : Int} {k : Compound} {t : Ty} {ts : List Ty}

/-- The unknown of a number stands at the head of a type. -/
inductive Bare (id : Int) : Ty → Prop where
  | var {v : TyVar} : v.id = id → Bare id (.var v)
  | union {t : Ty} {ts : List Ty} : t ∈ ts → Bare id t → Bare id (.union ts)
  | inter {t : Ty} {ts : List Ty} : t ∈ ts → Bare id t → Bare id (.inter ts)
  | mu (v : TyVar) {t : Ty} : Bare id t → Bare id (.mu v t)

theorem bare_of : (k.of ts).Bare id ↔ ∃ t ∈ ts, t.Bare id := by
  constructor
  · intro h
    cases k with
    | union => cases h with | union ht h => exact ⟨_, ht, h⟩
    | inter => cases h with | inter ht h => exact ⟨_, ht, h⟩
  · rintro ⟨t, ht, h⟩
    cases k with
    | union => exact .union ht h
    | inter => exact .inter ht h

mutual

/-- How many unions, intersections and recursive types stand below each other at the head. -/
def tower : Ty → Nat
  | .union ts | .inter ts => towerAll ts + 1
  | .mu _ t => tower t + 1
  | _ => 0

def towerAll : List Ty → Nat
  | [] => 0
  | t :: ts => max (tower t) (towerAll ts)

end

theorem towerAll_le_iff {n : Nat} : towerAll ts ≤ n ↔ ∀ t ∈ ts, t.tower ≤ n := by
  induction ts with
  | nil => simp [towerAll]
  | cons t ts ih => rw [towerAll, Nat.max_le, ih, List.forall_mem_cons]

theorem tower_of (k : Compound) (ts : List Ty) : (k.of ts).tower = towerAll ts + 1 := by
  cases k <;> simp [Compound.of, tower]

theorem tower_lt_of (h : t ∈ ts) : t.tower < (k.of ts).tower := by
  rw [tower_of]
  exact Nat.lt_succ_of_le (towerAll_le_iff.1 (Nat.le_refl _) t h)

end Ty

namespace Compound

variable {k : Compound} {ts : List Ty} {Q : Ty → Prop} {id : Int}

/-- What compounds have exactly if their parts do is passed on to what is built. -/
theorem build_of (hQ : ∀ ts, Q (k.of ts) ↔ ∀ t ∈ ts, Q t) (h : ∀ t ∈ ts, Q t) : Q (k.build ts) :=
  build_induction (fun ts _ hts _ _ => (hQ ts).2 hts) fun t ht _ =>
    of_mem_parts (fun ts => (hQ ts).1) (h t ht)

theorem bare_build (h : (k.build ts).Bare id) : ∃ t ∈ ts, t.Bare id := by
  by_contra hnone
  push Not at hnone
  refine build_of (Q := fun t => ¬ t.Bare id) (fun ts => ?_) hnone h
  rw [bare_of]
  push Not
  rfl

theorem tower_le_of_mem_parts {n : Nat} {a t : Ty} (h : t.tower ≤ n) (ha : a ∈ k.parts t) :
    a.tower ≤ n :=
  of_mem_parts (fun _ h _ hu => Nat.le_of_lt (Nat.lt_of_lt_of_le (tower_lt_of hu) h)) h ha

theorem tower_build_le : (k.build ts).tower ≤ (k.of ts).tower := by
  have hall : ∀ a ∈ distinct (ts.flatMap k.parts), a.tower ≤ towerAll ts := by
    intro a ha
    obtain ⟨t, ht, ha⟩ := List.mem_flatMap.1 (mem_distinct ha)
    exact tower_le_of_mem_parts (towerAll_le_iff.1 (Nat.le_refl _) t ht) ha
  rw [build_eq, tower_of]
  by_cases hlen : (distinct (ts.flatMap k.parts)).length = 1
  · obtain ⟨a, ha⟩ := List.length_eq_one_iff.1 hlen
    rw [ha] at hall ⊢
    exact Nat.le_succ_of_le (hall a (List.mem_singleton.2 rfl))
  · rw [together_of_length_ne hlen, tower_of]
    exact Nat.succ_le_succ (towerAll_le_iff.2 hall)

end Compound

/-! ## What types are formed of -/

namespace Ty

/-- The free unknowns of a type, rows apart, satisfy one predicate, and the recursive types inside
another one. -/
inductive Formed (M : TyVar → Ty → Prop) : (Int → Prop) → Ty → Prop where
  | var {V : Int → Prop} {v : TyVar} : V v.id → Formed M V (.var v)
  | prim {V : Int → Prop} (name : String) : Formed M V (.prim name)
  | lit {V : Int → Prop} (value : String) : Formed M V (.lit value)
  | fn {V : Int → Prop} {p q : Ty} : Formed M V p → Formed M V q → Formed M V (.fn p q)
  | record {V : Int → Prop} {fs : List (String × Ty)} (row : Option TyVar) :
      (∀ f ∈ fs, Formed M V f.2) → Formed M V (.record fs row)
  | tuple {V : Int → Prop} {ts : List Ty} : (∀ t ∈ ts, Formed M V t) → Formed M V (.tuple ts)
  | union {V : Int → Prop} {ts : List Ty} : (∀ t ∈ ts, Formed M V t) → Formed M V (.union ts)
  | inter {V : Int → Prop} {ts : List Ty} : (∀ t ∈ ts, Formed M V t) → Formed M V (.inter ts)
  | named {V : Int → Prop} (name : String) {ts : List Ty} : (∀ t ∈ ts, Formed M V t) →
      Formed M V (.named name ts)
  | mu {V : Int → Prop} {v : TyVar} {t : Ty} : M v t → Formed M (fun id => id = v.id ∨ V id) t →
      Formed M V (.mu v t)

variable {M M' : TyVar → Ty → Prop} {V V' : Int → Prop} {t x : Ty} {ts : List Ty} {k : Compound}
  {v : TyVar} {id : Int} {s : Subst} {fs : List (String × Ty)} {row : Option TyVar}
  {name : String}

theorem formed_var : (Ty.var v).Formed M V ↔ V v.id :=
  ⟨fun h => by cases h; assumption, .var⟩

theorem formed_fn {p q : Ty} : (Ty.fn p q).Formed M V ↔ p.Formed M V ∧ q.Formed M V :=
  ⟨fun h => by cases h with | fn hp hq => exact ⟨hp, hq⟩, fun h => .fn h.1 h.2⟩

theorem formed_record : (Ty.record fs row).Formed M V ↔ ∀ f ∈ fs, f.2.Formed M V :=
  ⟨fun h => by cases h; assumption, .record row⟩

theorem formed_tuple : (Ty.tuple ts).Formed M V ↔ ∀ t ∈ ts, t.Formed M V :=
  ⟨fun h => by cases h; assumption, .tuple⟩

theorem formed_named : (Ty.named name ts).Formed M V ↔ ∀ t ∈ ts, t.Formed M V :=
  ⟨fun h => by cases h; assumption, .named name⟩

theorem formed_mu :
    (Ty.mu v t).Formed M V ↔ M v t ∧ t.Formed M fun id => id = v.id ∨ V id :=
  ⟨fun h => by cases h with | mu hv ht => exact ⟨hv, ht⟩, fun h => .mu h.1 h.2⟩

theorem formed_of : (k.of ts).Formed M V ↔ ∀ t ∈ ts, t.Formed M V := by
  cases k with
  | union => exact ⟨fun h => by cases h; assumption, .union⟩
  | inter => exact ⟨fun h => by cases h; assumption, .inter⟩

theorem formed_build (h : ∀ t ∈ ts, t.Formed M V) : (k.build ts).Formed M V :=
  Compound.build_of (fun _ => formed_of) h

mutual

/-- The binders of a recursive type inside a type are among those of the type. -/
theorem formed_of_binders {B : List Int} : ∀ {t : Ty} {V : Int → Prop}, t.binders.Sublist B →
    (∀ id, V id) → t.Formed (fun v b => (v.id :: b.binders).Sublist B) V
  | .var _, _, _, hV => .var (hV _)
  | .prim name, _, _, _ => .prim name
  | .lit value, _, _, _ => .lit value
  | .fn _ _, _, h, hV =>
      .fn (formed_of_binders ((List.sublist_append_left _ _).trans h) hV)
        (formed_of_binders ((List.sublist_append_right _ _).trans h) hV)
  | .record _ row, _, h, hV => .record row (formed_of_bindersFields h hV)
  | .tuple _, _, h, hV => .tuple (formed_of_bindersAll h hV)
  | .union _, _, h, hV => .union (formed_of_bindersAll h hV)
  | .inter _, _, h, hV => .inter (formed_of_bindersAll h hV)
  | .named name _, _, h, hV => .named name (formed_of_bindersAll h hV)
  | .mu _ _, _, h, hV =>
      .mu h (formed_of_binders ((List.sublist_cons_self _ _).trans h) fun id => .inr (hV id))

theorem formed_of_bindersAll {B : List Int} : ∀ {ts : List Ty} {V : Int → Prop},
    (bindersAll ts).Sublist B → (∀ id, V id) →
      ∀ t ∈ ts, t.Formed (fun v b => (v.id :: b.binders).Sublist B) V
  | [], _, _, _ => List.forall_mem_nil _
  | _ :: _, _, h, hV =>
      List.forall_mem_cons.2
        ⟨formed_of_binders ((List.sublist_append_left _ _).trans h) hV,
          formed_of_bindersAll ((List.sublist_append_right _ _).trans h) hV⟩

theorem formed_of_bindersFields {B : List Int} : ∀ {fs : List (String × Ty)} {V : Int → Prop},
    (bindersFields fs).Sublist B → (∀ id, V id) →
      ∀ f ∈ fs, f.2.Formed (fun v b => (v.id :: b.binders).Sublist B) V
  | [], _, _, _ => List.forall_mem_nil _
  | (_, _) :: _, _, h, hV =>
      List.forall_mem_cons.2
        ⟨formed_of_binders ((List.sublist_append_left _ _).trans h) hV,
          formed_of_bindersFields ((List.sublist_append_right _ _).trans h) hV⟩

end

theorem formed_binders (t : Ty) :
    t.Formed (fun v b => (v.id :: b.binders).Sublist t.binders) fun _ => True :=
  formed_of_binders (List.Sublist.refl _) fun _ => trivial

theorem Formed.mono (h : t.Formed M V) (hM : ∀ v t, M v t → M' v t) (hV : ∀ id, V id → V' id) :
    t.Formed M' V' := by
  induction h generalizing V' with
  | var hv => exact .var (hV _ hv)
  | prim name => exact .prim name
  | lit value => exact .lit value
  | fn _ _ ihp ihq => exact .fn (ihp hV) (ihq hV)
  | record row _ ih => exact .record row fun f hf => ih f hf hV
  | tuple _ ih => exact .tuple fun t ht => ih t ht hV
  | union _ ih => exact .union fun t ht => ih t ht hV
  | inter _ ih => exact .inter fun t ht => ih t ht hV
  | named name _ ih => exact .named name fun t ht => ih t ht hV
  | mu hv _ ih => exact .mu (hM _ _ hv) (ih fun id hid => hid.imp_right (hV id))

/-- Only the unknowns that are free matter. -/
theorem Formed.restrict (h : t.Formed M V) (hV : ∀ id, t.Mentions id → V id → V' id) :
    t.Formed M V' := by
  induction h generalizing V' with
  | var hv => exact .var (hV _ (mentions_var.2 rfl) hv)
  | prim name => exact .prim name
  | lit value => exact .lit value
  | fn _ _ ihp ihq =>
      exact .fn (ihp fun id hid => hV id (mentions_fn.2 (.inl hid)))
        (ihq fun id hid => hV id (mentions_fn.2 (.inr hid)))
  | record row _ ih =>
      exact .record row fun f hf => ih f hf fun id hid =>
        hV id (mentions_record.2 (.inl ⟨f, hf, hid⟩))
  | tuple _ ih =>
      exact .tuple fun t ht => ih t ht fun id hid => hV id (mentions_tuple.2 ⟨t, ht, hid⟩)
  | union _ ih =>
      exact .union fun t ht => ih t ht fun id hid => hV id (mentions_union.2 ⟨t, ht, hid⟩)
  | inter _ ih =>
      exact .inter fun t ht => ih t ht fun id hid => hV id (mentions_inter.2 ⟨t, ht, hid⟩)
  | named name _ ih =>
      exact .named name fun t ht => ih t ht fun id hid => hV id (mentions_named.2 ⟨t, ht, hid⟩)
  | @mu V v t hv _ ih =>
      refine .mu hv (ih fun id hid h => ?_)
      by_cases heq : id = v.id
      · exact .inl heq
      · exact .inr (hV id (mentions_mu.2 ⟨Ne.symm heq, hid⟩) (h.resolve_left heq))

/-- What is spliced in has its fields from one of two sides. -/
theorem formed_splice {row : TyVar} {bound : Option Ty} (hfs : ∀ f ∈ fs, f.2.Formed M V)
    (hbound : ∀ u, bound = some u → u.Formed M V) :
    (RecordTy.splice fs row bound).toTy.Formed M V := by
  refine .record _ fun f hf => ?_
  obtain hf | ⟨more, rest, hb, hf⟩ := RecordTy.mem_fields_splice hf
  · exact hfs f hf
  · exact formed_record.1 (hbound _ hb) f hf

/-- The unknowns of a type, rows apart, have numbers that were given out by a moment. -/
def Given (c : Nat) (t : Ty) : Prop :=
  t.Formed (fun v _ => v.id ≤ (c : Int)) fun id => id ≤ (c : Int)

/-! ## Substitutions -/

/-- A substitution of types that are formed makes a type that is formed, if it keeps what is true of
recursive types. -/
theorem Formed.apply {S : Subst → Prop} (hS : ∀ s v, S s → S (s.erase v))
    (hM : ∀ s v t, S s → M v t → M' v ((s.erase v).apply t)) (h : t.Formed M V) :
    ∀ {s : Subst} {V' : Int → Prop}, S s → (∀ id, V id → s.get? id = none → V' id) →
    (∀ id u, s.get? id = some u → u.Formed M' V') → (s.apply t).Formed M' V' := by
  have hof : ∀ {k : Compound} {ts : List Ty} {s : Subst} {V' : Int → Prop},
      (∀ t ∈ ts, (s.apply t).Formed M' V') → (s.apply (k.of ts)).Formed M' V' := by
    intro k ts s V' hts
    cases hs : s.isEmpty with
    | true =>
        rw [Subst.apply_of_isEmpty hs]
        exact formed_of.2 fun t ht => Subst.apply_of_isEmpty hs t ▸ hts t ht
    | false =>
        rw [Subst.apply_of hs]
        exact formed_build (List.forall_mem_map.2 hts)
  induction h with
  | @var V v hv =>
      intro s V' _ hV hs
      rw [Subst.apply_var]
      cases hu : s.get? v.id with
      | none => exact .var (hV _ hv hu)
      | some u => exact hs _ u hu
  | prim name => intro s V' _ _ _; rw [Subst.apply_prim]; exact .prim name
  | lit value => intro s V' _ _ _; rw [Subst.apply_lit]; exact .lit value
  | fn _ _ ihp ihq =>
      intro s V' hs hV himages
      rw [Subst.apply_fn]
      exact .fn (ihp hs hV himages) (ihq hs hV himages)
  | @record V fs row _ ih =>
      intro s V' hs hV himages
      have hfs : ∀ f ∈ fs.map fun f => (f.1, s.apply f.2), f.2.Formed M' V' :=
        List.forall_mem_map.2 fun f hf => ih f hf hs hV himages
      cases row with
      | none => rw [Subst.apply_closed]; exact .record _ hfs
      | some row => rw [Subst.apply_open]; exact formed_splice hfs (himages row.id)
  | tuple _ ih =>
      intro s V' hs hV himages
      rw [Subst.apply_tuple]
      exact .tuple (List.forall_mem_map.2 fun t ht => ih t ht hs hV himages)
  | union _ ih => exact fun hs hV himages => hof (k := .union) fun t ht => ih t ht hs hV himages
  | inter _ ih => exact fun hs hV himages => hof (k := .inter) fun t ht => ih t ht hs hV himages
  | named name _ ih =>
      intro s V' hs hV himages
      rw [Subst.apply_named]
      exact .named name (List.forall_mem_map.2 fun t ht => ih t ht hs hV himages)
  | @mu V v t hv _ ih =>
      intro s V' hs hV himages
      rw [Subst.apply_mu]
      refine .mu (hM s v t hs hv) (ih (hS s v hs) (fun id hid hnone => ?_) fun id u hu => ?_)
      · by_cases heq : id = v.id
        · exact .inl heq
        · rw [Subst.get?_erase, if_neg heq] at hnone
          exact .inr (hV id (hid.resolve_left heq) hnone)
      · rw [Subst.get?_erase] at hu
        split at hu
        · cases hu
        · exact (himages id u hu).mono (fun _ _ h => h) fun _ => .inr

/-- Refining makes no new binders. -/
theorem inherited_formed {B : TyVar → Prop} :
    Inherited (Formed (fun v _ => B v) fun _ => True) where
  fields h := formed_record.1 h
  elems h := formed_tuple.1 h
  alternatives h := formed_of (k := .union).1 h
  unionOf _ h := formed_build (k := .union) h
  unfold h := (formed_mu.1 h).2.apply (S := fun _ => True) (fun _ _ => id)
    (fun _ _ _ _ => id) trivial (fun _ _ _ => trivial) fun _ _ hu => (Subst.eq_of_get?_single hu).2 ▸ h

/-! ## Heads of what is substituted into -/

/-- What stands at the head after unknowns are replaced stood there before, or stands at the head of
what replaces an unknown there. -/
theorem bare_apply (x : Ty) {s : Subst} (h : (s.apply x).Bare id) :
    x.Bare id ∨ ∃ c u, x.Bare c ∧ s.get? c = some u ∧ u.Bare id := by
  have hof : ∀ {k : Compound} {ts : List Ty} {s : Subst}, (∀ t ∈ ts, ∀ {s : Subst},
      (s.apply t).Bare id → t.Bare id ∨ ∃ c u, t.Bare c ∧ s.get? c = some u ∧ u.Bare id) →
      (s.apply (k.of ts)).Bare id →
      (k.of ts).Bare id ∨ ∃ c u, (k.of ts).Bare c ∧ s.get? c = some u ∧ u.Bare id := by
    intro k ts s ih h
    cases hs : s.isEmpty with
    | true =>
        rw [Subst.apply_of_isEmpty hs] at h
        exact .inl h
    | false =>
        rw [Subst.apply_of hs] at h
        obtain ⟨_, hmem, h⟩ := Compound.bare_build h
        obtain ⟨t, ht, rfl⟩ := List.mem_map.1 hmem
        rcases ih t ht h with h | ⟨c, u, hc, hu, h⟩
        · exact .inl (bare_of.2 ⟨t, ht, h⟩)
        · exact .inr ⟨c, u, bare_of.2 ⟨t, ht, hc⟩, hu, h⟩
  obtain ⟨M, V, hx⟩ : ∃ M V, x.Formed M V := ⟨_, _, formed_binders x⟩
  induction hx generalizing s with
  | @var _ v _ =>
      rw [Subst.apply_var] at h
      cases hu : s.get? v.id with
      | none =>
          rw [hu] at h
          exact .inl h
      | some u =>
          rw [hu] at h
          exact .inr ⟨v.id, u, .var rfl, hu, h⟩
  | prim name => rw [Subst.apply_prim] at h; cases h
  | lit value => rw [Subst.apply_lit] at h; cases h
  | fn _ _ _ _ => rw [Subst.apply_fn] at h; cases h
  | @record _ fs row _ _ =>
      cases row with
      | none => rw [Subst.apply_closed] at h; cases h
      | some row => rw [Subst.apply_open] at h; cases h
  | tuple _ _ => rw [Subst.apply_tuple] at h; cases h
  | union _ ih => exact hof (k := .union) (fun t ht _ => ih t ht) h
  | inter _ ih => exact hof (k := .inter) (fun t ht _ => ih t ht) h
  | named _ _ _ => rw [Subst.apply_named] at h; cases h
  | @mu _ v t _ _ ih =>
      rw [Subst.apply_mu] at h
      cases h with
      | mu _ h =>
          rcases ih h with h | ⟨c, u, hc, hu, h⟩
          · exact .inl (.mu v h)
          · rw [Subst.get?_erase] at hu
            split at hu
            · cases hu
            · exact .inr ⟨c, u, .mu v hc, hu, h⟩

/-- Replacing unknowns that do not stand at the head puts nothing on top of it. -/
theorem tower_apply_le (x : Ty) {s : Subst} (h : ∀ id, x.Bare id → s.get? id = none) :
    (s.apply x).tower ≤ x.tower := by
  have hof : ∀ {k : Compound} {ts : List Ty} {s : Subst}, (∀ t ∈ ts, ∀ {s : Subst},
      (∀ id, t.Bare id → s.get? id = none) → (s.apply t).tower ≤ t.tower) →
      (∀ id, (k.of ts).Bare id → s.get? id = none) →
      (s.apply (k.of ts)).tower ≤ (k.of ts).tower := by
    intro k ts s ih hs
    cases hempty : s.isEmpty with
    | true => rw [Subst.apply_of_isEmpty hempty]
    | false =>
        rw [Subst.apply_of hempty]
        refine Compound.tower_build_le.trans ?_
        rw [tower_of, tower_of]
        refine Nat.succ_le_succ (towerAll_le_iff.2 (List.forall_mem_map.2 fun t ht => ?_))
        exact (ih t ht fun id hid => hs id (bare_of.2 ⟨t, ht, hid⟩)).trans
          (towerAll_le_iff.1 (Nat.le_refl _) t ht)
  obtain ⟨M, V, hx⟩ : ∃ M V, x.Formed M V := ⟨_, _, formed_binders x⟩
  induction hx generalizing s with
  | @var _ v _ =>
      rw [Subst.apply_var, h v.id (.var rfl)]
      exact Nat.le_refl _
  | prim name => rw [Subst.apply_prim]
  | lit value => rw [Subst.apply_lit]
  | fn _ _ _ _ => rw [Subst.apply_fn]; exact Nat.le_refl _
  | @record _ fs row _ _ =>
      cases row with
      | none => rw [Subst.apply_closed]; exact Nat.le_refl _
      | some row => rw [Subst.apply_open]; exact Nat.le_refl _
  | tuple _ _ => rw [Subst.apply_tuple]; exact Nat.le_refl _
  | union _ ih => exact hof (k := .union) (fun t ht _ => ih t ht) h
  | inter _ ih => exact hof (k := .inter) (fun t ht _ => ih t ht) h
  | named _ _ _ => rw [Subst.apply_named]; exact Nat.le_refl _
  | @mu _ v t _ _ ih =>
      rw [Subst.apply_mu, tower, tower]
      refine Nat.succ_le_succ (ih fun id hid => ?_)
      rw [Subst.get?_erase, h id (.mu v hid)]
      split <;> rfl

end Ty

end RowTypes
