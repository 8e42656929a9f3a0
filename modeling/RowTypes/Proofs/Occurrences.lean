import RowTypes.Proofs.Substitutions
import RowTypes.Registry.Basic

/-!
# What types are made of

A number occurs in a type as an unknown, as a row, or as the binder of a recursive type.  Nothing
that is done with types brings numbers in: what comes out of a substitution, an unfolding, an
expansion or the building of a union is made of what went in.

Occurrences that a recursive type binds count.  A row that is sent to a recursive type stays as it
is, so unfolding can set the number of a binder free.
-/

namespace RowTypes

namespace Ty

/-- A number occurs in a type. -/
inductive Uses (id : Int) : Ty → Prop where
  | var {v : TyVar} : v.id = id → Uses id (.var v)
  | param {p r : Ty} : Uses id p → Uses id (.fn p r)
  | result {p r : Ty} : Uses id r → Uses id (.fn p r)
  | field {fs : List (String × Ty)} {row : Option TyVar} {f : String × Ty} :
      f ∈ fs → Uses id f.2 → Uses id (.record fs row)
  | row {fs : List (String × Ty)} {v : TyVar} : v.id = id → Uses id (.record fs (some v))
  | elem {ts : List Ty} {t : Ty} : t ∈ ts → Uses id t → Uses id (.tuple ts)
  | alternative {ts : List Ty} {t : Ty} : t ∈ ts → Uses id t → Uses id (.union ts)
  | member {ts : List Ty} {t : Ty} : t ∈ ts → Uses id t → Uses id (.inter ts)
  | arg {name : String} {ts : List Ty} {t : Ty} : t ∈ ts → Uses id t → Uses id (.named name ts)
  | binder {v : TyVar} {t : Ty} : v.id = id → Uses id (.mu v t)
  | body {v : TyVar} {t : Ty} : Uses id t → Uses id (.mu v t)

/-- The numbers that occur in a type satisfy a predicate. -/
def Over (P : Int → Prop) (t : Ty) : Prop := ∀ id, t.Uses id → P id

section

variable {P Q : Int → Prop} {p r t : Ty} {v : TyVar} {ts : List Ty} {name : String}
  {fs : List (String × Ty)} {row : Option TyVar}

theorem Over.mono (h : t.Over P) (hPQ : ∀ id, P id → Q id) : t.Over Q :=
  fun id hid => hPQ id (h id hid)

@[simp] theorem over_var : (Ty.var v).Over P ↔ P v.id := by
  constructor
  · exact fun h => h v.id (.var rfl)
  · rintro h id ⟨rfl⟩
    exact h

@[simp] theorem over_prim : (Ty.prim name).Over P := by rintro id ⟨⟩

@[simp] theorem over_lit : (Ty.lit name).Over P := by rintro id ⟨⟩

@[simp] theorem over_fn : (Ty.fn p r).Over P ↔ p.Over P ∧ r.Over P := by
  constructor
  · exact fun h => ⟨fun id hid => h id (.param hid), fun id hid => h id (.result hid)⟩
  · rintro ⟨hp, hr⟩ id (_ | hid | hid)
    · exact hp id hid
    · exact hr id hid

@[simp] theorem over_record :
    (Ty.record fs row).Over P ↔ (∀ f ∈ fs, f.2.Over P) ∧ ∀ v, row = some v → P v.id := by
  constructor
  · refine fun h => ⟨fun f hf id hid => h id (.field hf hid), ?_⟩
    rintro v rfl
    exact h v.id (.row rfl)
  · rintro ⟨hfs, hrow⟩ id hid
    cases hid with
    | field hf hid => exact hfs _ hf id hid
    | row hid => exact hid ▸ hrow _ rfl

@[simp] theorem over_tuple : (Ty.tuple ts).Over P ↔ ∀ t ∈ ts, t.Over P := by
  constructor
  · exact fun h t ht id hid => h id (.elem ht hid)
  · intro h id hid
    cases hid with
    | elem ht hid => exact h _ ht id hid

@[simp] theorem over_union : (Ty.union ts).Over P ↔ ∀ t ∈ ts, t.Over P := by
  constructor
  · exact fun h t ht id hid => h id (.alternative ht hid)
  · intro h id hid
    cases hid with
    | alternative ht hid => exact h _ ht id hid

@[simp] theorem over_inter : (Ty.inter ts).Over P ↔ ∀ t ∈ ts, t.Over P := by
  constructor
  · exact fun h t ht id hid => h id (.member ht hid)
  · intro h id hid
    cases hid with
    | member ht hid => exact h _ ht id hid

@[simp] theorem over_named : (Ty.named name ts).Over P ↔ ∀ t ∈ ts, t.Over P := by
  constructor
  · exact fun h t ht id hid => h id (.arg ht hid)
  · intro h id hid
    cases hid with
    | arg ht hid => exact h _ ht id hid

@[simp] theorem over_mu : (Ty.mu v t).Over P ↔ P v.id ∧ t.Over P := by
  constructor
  · exact fun h => ⟨h v.id (.binder rfl), fun id hid => h id (.body hid)⟩
  · rintro ⟨hv, ht⟩ id hid
    cases hid with
    | binder hid => exact hid ▸ hv
    | body hid => exact ht id hid

end

mutual

theorem uses_of_mentions {id : Int} : ∀ {t : Ty}, t.Mentions id → t.Uses id
  | .var v, h => .var (mentions_var.1 h)
  | .prim _, h => absurd h mentions_prim
  | .lit _, h => absurd h mentions_lit
  | .fn p r, h => by
      rcases mentions_fn.1 h with h | h
      · exact .param (uses_of_mentions h)
      · exact .result (uses_of_mentions h)
  | .record fs row, h => by
      rcases mentions_record.1 h with h | ⟨v, rfl, hid⟩
      · obtain ⟨f, hf, h⟩ := exists_uses_fields h
        exact .field hf h
      · exact .row hid
  | .tuple ts, h => by
      obtain ⟨t, ht, h⟩ := exists_uses (mentions_tuple.1 h)
      exact .elem ht h
  | .union ts, h => by
      obtain ⟨t, ht, h⟩ := exists_uses (mentions_union.1 h)
      exact .alternative ht h
  | .inter ts, h => by
      obtain ⟨t, ht, h⟩ := exists_uses (mentions_inter.1 h)
      exact .member ht h
  | .named _ ts, h => by
      obtain ⟨t, ht, h⟩ := exists_uses (mentions_named.1 h)
      exact .arg ht h
  | .mu v t, h => .body (uses_of_mentions (mentions_mu.1 h).2)

theorem exists_uses {id : Int} : ∀ {ts : List Ty}, (∃ t ∈ ts, t.Mentions id) → ∃ t ∈ ts, t.Uses id
  | [], h => by simp at h
  | t :: ts, h => by
      rw [List.exists_mem_cons_iff] at h ⊢
      exact h.imp uses_of_mentions exists_uses

theorem exists_uses_fields {id : Int} : ∀ {fs : List (String × Ty)},
    (∃ f ∈ fs, f.2.Mentions id) → ∃ f ∈ fs, f.2.Uses id
  | [], h => by simp at h
  | (_, t) :: fs, h => by
      rw [List.exists_mem_cons_iff] at h ⊢
      exact h.imp uses_of_mentions exists_uses_fields

end

theorem Over.of_mentions {P : Int → Prop} {t : Ty} {id : Int} (h : t.Over P) (hid : t.Mentions id) :
    P id := h id (uses_of_mentions hid)

/-! ## Unions and intersections -/

section

-- What holds of a union exactly if it holds of the alternatives is kept when alternatives are
-- flattened and repeated ones dropped, and so for intersections.
variable {Q : Ty → Prop}

mutual

theorem of_mem_alternatives (hQ : ∀ ts, Q (.union ts) → ∀ t ∈ ts, Q t) {a : Ty} :
    ∀ {t : Ty}, Q t → a ∈ t.alternatives → Q a
  | .union ts, h, ha => by
      rw [Ty.alternatives] at ha
      exact of_mem_alternativesAll hQ (hQ ts h) ha
  | .var _, h, ha | .prim _, h, ha | .lit _, h, ha | .fn _ _, h, ha | .record _ _, h, ha
  | .tuple _, h, ha | .inter _, h, ha | .named _ _, h, ha | .mu _ _, h, ha => by
      rw [Ty.alternatives, List.mem_singleton] at ha
      · exact ha ▸ h
      · intro ts hts; cases hts

theorem of_mem_alternativesAll (hQ : ∀ ts, Q (.union ts) → ∀ t ∈ ts, Q t) {a : Ty} :
    ∀ {ts : List Ty}, (∀ t ∈ ts, Q t) → a ∈ alternativesAll ts → Q a
  | t :: ts, h, ha => by
      rw [alternativesAll] at ha
      rcases List.mem_append.1 ha with ha | ha
      · exact of_mem_alternatives hQ (h t List.mem_cons_self) ha
      · exact of_mem_alternativesAll hQ (fun t ht => h t (List.mem_cons_of_mem _ ht)) ha

end

mutual

theorem of_mem_membersOf (hQ : ∀ ts, Q (.inter ts) → ∀ t ∈ ts, Q t) {a : Ty} :
    ∀ {t : Ty}, Q t → a ∈ t.membersOf → Q a
  | .inter ts, h, ha => by
      rw [Ty.membersOf] at ha
      exact of_mem_membersOfAll hQ (hQ ts h) ha
  | .var _, h, ha | .prim _, h, ha | .lit _, h, ha | .fn _ _, h, ha | .record _ _, h, ha
  | .tuple _, h, ha | .union _, h, ha | .named _ _, h, ha | .mu _ _, h, ha => by
      rw [Ty.membersOf, List.mem_singleton] at ha
      · exact ha ▸ h
      · intro ts hts; cases hts

theorem of_mem_membersOfAll (hQ : ∀ ts, Q (.inter ts) → ∀ t ∈ ts, Q t) {a : Ty} :
    ∀ {ts : List Ty}, (∀ t ∈ ts, Q t) → a ∈ membersOfAll ts → Q a
  | t :: ts, h, ha => by
      rw [membersOfAll] at ha
      rcases List.mem_append.1 ha with ha | ha
      · exact of_mem_membersOf hQ (h t List.mem_cons_self) ha
      · exact of_mem_membersOfAll hQ (fun t ht => h t (List.mem_cons_of_mem _ ht)) ha

end

variable {ts : List Ty}

theorem of_unionOf? (hQ : ∀ ts, Q (.union ts) ↔ ∀ t ∈ ts, Q t) {u : Ty} (h : ∀ t ∈ ts, Q t)
    (hu : unionOf? ts = some u) : Q u := by
  have hall : ∀ a ∈ distinct (alternativesAll ts), Q a := fun a ha =>
    of_mem_alternativesAll (fun ts => (hQ ts).1) h (mem_distinct ha)
  unfold unionOf? at hu
  split at hu
  · cases hu
  · next a ha =>
      cases hu
      exact hall u (by rw [ha]; exact List.mem_singleton.2 rfl)
  · cases hu
    exact (hQ _).2 hall

theorem of_unionOf (hQ : ∀ ts, Q (.union ts) ↔ ∀ t ∈ ts, Q t) (h : ∀ t ∈ ts, Q t) :
    Q (unionOf ts) := by
  unfold unionOf
  cases hu : unionOf? ts with
  | none => exact (hQ []).2 (by simp)
  | some u => exact of_unionOf? hQ h hu

theorem of_interOf (hQ : ∀ ts, Q (.inter ts) ↔ ∀ t ∈ ts, Q t) (h : ∀ t ∈ ts, Q t) :
    Q (interOf ts) := by
  have hall : ∀ a ∈ distinct (membersOfAll ts), Q a := fun a ha =>
    of_mem_membersOfAll (fun ts => (hQ ts).1) h (mem_distinct ha)
  unfold interOf interOf?
  split
  · exact (hQ []).2 (by simp)
  · next a ha => exact hall a (by rw [ha]; exact List.mem_singleton.2 rfl)
  · exact (hQ _).2 hall

theorem over_unionOf {P : Int → Prop} (h : ∀ t ∈ ts, t.Over P) : (unionOf ts).Over P :=
  of_unionOf (fun _ => over_union) h

theorem over_interOf {P : Int → Prop} (h : ∀ t ∈ ts, t.Over P) : (interOf ts).Over P :=
  of_interOf (fun _ => over_inter) h

end

end Ty

/-! ## Substitutions -/

theorem RecordTy.over_splice {P : Int → Prop} {fs : List (String × Ty)} {row : TyVar}
    {bound : Option Ty} (h : (Ty.record fs (some row)).Over P)
    (hbound : ∀ u, bound = some u → u.Over P) : (splice fs row bound).toTy.Over P := by
  obtain ⟨hfs, -⟩ := Ty.over_record.1 h
  unfold splice
  split
  · exact h
  · next v =>
      refine Ty.over_record.2 ⟨hfs, ?_⟩
      rintro w ⟨⟩
      exact Ty.over_var.1 (hbound _ rfl)
  · next more rest =>
      obtain ⟨hmore, hrest⟩ := Ty.over_record.1 (hbound _ rfl)
      exact Ty.over_record.2
        ⟨fun f hf => (Table.mem_underlay hf).elim (hfs f) (hmore f), hrest⟩
  · exact h

namespace Subst

/-- The numbers that occur in the types that unknowns are bound to satisfy a predicate. -/
def Over (P : Int → Prop) (s : Subst) : Prop := ∀ entry ∈ s.bindings, entry.2.ty.Over P

variable {P Q : Int → Prop} {s next : Subst} {v : TyVar} {t : Ty}

theorem Over.mono (h : s.Over P) (hPQ : ∀ id, P id → Q id) : s.Over Q :=
  fun entry hentry => (h entry hentry).mono hPQ

theorem Over.get? (h : s.Over P) {id : Int} (ht : s.get? id = some t) : t.Over P := by
  obtain ⟨b, hb, rfl⟩ := Option.map_eq_some_iff.1 ht
  exact h _ (Table.mem_of_get? hb)

theorem over_empty : empty.Over P := by intro entry hentry; cases hentry

theorem Over.erase (h : s.Over P) (v : TyVar) : (s.erase v).Over P :=
  fun entry hentry => h entry (List.mem_filter.1 hentry).1

/-- What is true of the types that unknowns are bound to, and of one more, is true when that one is
bound. -/
theorem forall_bind {R : Ty → Prop} (h : ∀ entry ∈ s.bindings, R entry.2.ty) (v : TyVar)
    (ht : R t) : ∀ entry ∈ (s.bind v t).bindings, R entry.2.ty := by
  have hinsert : ∀ entry ∈ Table.insert v.id ⟨v, t⟩ s.bindings, R entry.2.ty := by
    intro entry hentry
    rcases Table.mem_insert hentry with rfl | hentry
    · exact ht
    · exact h entry hentry
  unfold Subst.bind
  split
  · split
    · exact fun entry hentry => h entry (List.mem_filter.1 hentry).1
    · exact hinsert
  · exact hinsert

theorem Over.bind (h : s.Over P) (v : TyVar) (ht : t.Over P) : (s.bind v t).Over P :=
  forall_bind (R := Ty.Over P) h v ht

theorem over_single (v : TyVar) (ht : t.Over P) : (single v t).Over P := over_empty.bind v ht

theorem over_ofList {bindings : List (TyVar × Ty)} (h : ∀ b ∈ bindings, b.2.Over P) :
    (ofList bindings).Over P :=
  ofList_induction over_empty fun b hb _ hs => hs.bind b.1 (h b hb)

mutual

/-- What comes out of a type under a substitution is made of the type and of what its unknowns are
bound to. -/
theorem over_apply : ∀ {s : Subst} {t : Ty}, t.Over P →
    (∀ j u, t.Uses j → s.get? j = some u → u.Over P) → (s.apply t).Over P
  | s, .var v, ht, hs => by
      rw [apply_var]
      cases hv : s.get? v.id with
      | none => exact ht
      | some u => exact hs v.id u (.var rfl) hv
  | s, .prim name, ht, _ => by
      rw [apply_prim]
      exact ht
  | s, .lit value, ht, _ => by
      rw [Subst.apply.eq_def]
      split <;> exact ht
  | s, .fn p r, ht, hs => by
      obtain ⟨hp, hr⟩ := Ty.over_fn.1 ht
      rw [apply_fn]
      exact Ty.over_fn.2 ⟨over_apply hp fun j u hj => hs j u (.param hj),
        over_apply hr fun j u hj => hs j u (.result hj)⟩
  | s, .record fs none, ht, hs => by
      rw [apply_closed, ← applyFields_eq_map]
      exact Ty.over_record.2 ⟨over_applyFields (Ty.over_record.1 ht).1
        fun f hf j u hj => hs j u (.field hf hj), by rintro v ⟨⟩⟩
  | s, .record fs (some row), ht, hs => by
      obtain ⟨hfs, hrow⟩ := Ty.over_record.1 ht
      rw [apply_open, ← applyFields_eq_map]
      exact RecordTy.over_splice (Ty.over_record.2 ⟨over_applyFields hfs
        fun f hf j u hj => hs j u (.field hf hj), hrow⟩) fun u hu => hs row.id u (.row rfl) hu
  | s, .tuple ts, ht, hs => by
      rw [apply_tuple, ← applyAll_eq_map]
      exact Ty.over_tuple.2 (over_applyAll (Ty.over_tuple.1 ht)
        fun t ht j u hj => hs j u (.elem ht hj))
  | s, .union ts, ht, hs => by
      rw [Subst.apply]
      split
      · exact ht
      · exact Ty.over_unionOf (over_applyAll (Ty.over_union.1 ht)
          fun t ht j u hj => hs j u (.alternative ht hj))
  | s, .inter ts, ht, hs => by
      rw [Subst.apply]
      split
      · exact ht
      · exact Ty.over_interOf (over_applyAll (Ty.over_inter.1 ht)
          fun t ht j u hj => hs j u (.member ht hj))
  | s, .named name ts, ht, hs => by
      rw [apply_named, ← applyAll_eq_map]
      exact Ty.over_named.2 (over_applyAll (Ty.over_named.1 ht)
        fun t ht j u hj => hs j u (.arg ht hj))
  | s, .mu v t, ht, hs => by
      obtain ⟨hv, ht'⟩ := Ty.over_mu.1 ht
      rw [Subst.apply]
      split
      · exact ht
      · refine Ty.over_mu.2 ⟨hv, over_apply ht' fun j u hj hu => ?_⟩
        rw [get?_erase] at hu
        split at hu
        · cases hu
        · exact hs j u (.body hj) hu

theorem over_applyAll : ∀ {s : Subst} {ts : List Ty}, (∀ t ∈ ts, t.Over P) →
    (∀ t ∈ ts, ∀ j u, t.Uses j → s.get? j = some u → u.Over P) → ∀ t ∈ s.applyAll ts, t.Over P
  | s, [], _, _ => by simp [Subst.applyAll]
  | s, t :: ts, hts, hs => by
      rw [List.forall_mem_cons] at hts hs
      rw [Subst.applyAll, List.forall_mem_cons]
      exact ⟨over_apply hts.1 hs.1, over_applyAll hts.2 hs.2⟩

theorem over_applyFields : ∀ {s : Subst} {fs : List (String × Ty)}, (∀ f ∈ fs, f.2.Over P) →
    (∀ f ∈ fs, ∀ j u, f.2.Uses j → s.get? j = some u → u.Over P) →
    ∀ f ∈ s.applyFields fs, f.2.Over P
  | s, [], _, _ => by simp [Subst.applyFields]
  | s, (name, t) :: fs, hfs, hs => by
      rw [List.forall_mem_cons] at hfs hs
      rw [Subst.applyFields, List.forall_mem_cons]
      exact ⟨over_apply hfs.1 hs.1, over_applyFields hfs.2 hs.2⟩

end

theorem Over.apply (hs : s.Over P) (ht : t.Over P) : (s.apply t).Over P :=
  over_apply ht fun _ _ _ hu => hs.get? hu

theorem Over.applyAll {ts : List Ty} (hs : s.Over P) (hts : ∀ t ∈ ts, t.Over P) :
    ∀ t ∈ s.applyAll ts, t.Over P := over_applyAll hts fun _ _ _ _ _ hu => hs.get? hu

/-- What is true of the types of one substitution under the next, and of those of the next, is true
of the types of both. -/
theorem forall_after {R : Ty → Prop} (hnext : ∀ entry ∈ next.bindings, R entry.2.ty)
    (hs : ∀ entry ∈ s.bindings, R (next.apply entry.2.ty)) :
    ∀ entry ∈ (next.after s).bindings, R entry.2.ty := by
  refine after_induction (C := fun s => ∀ entry ∈ s.bindings, R entry.2.ty) nofun
    (fun entry hentry acc hacc => ?_) fun entry hentry acc hacc => ?_
  · exact forall_bind hacc _ (hs entry hentry)
  · exact forall_bind hacc _ (hnext entry hentry)

theorem Over.after (hnext : next.Over P) (hs : s.Over P) : (next.after s).Over P :=
  forall_after (R := Ty.Over P) hnext fun entry hentry => hnext.apply (hs entry hentry)

end Subst

theorem Ty.over_unfold {P : Int → Prop} {v : TyVar} {t : Ty} (h : (Ty.mu v t).Over P) :
    (Ty.unfold v t).Over P := (Subst.over_single v h).apply (Ty.over_mu.1 h).2

/-! ## Named types -/

theorem Definition.over_expand? {P : Int → Prop} {d : Definition} {args : List Ty} {t : Ty}
    (hd : d.body.Over P) (hargs : ∀ u ∈ args, u.Over P) (ht : d.expand? args = some t) :
    t.Over P := by
  unfold Definition.expand? at ht
  split at ht
  · cases ht
    exact (Subst.over_ofList fun b hb => hargs b.2 (List.of_mem_zip hb).2).apply hd
  · cases ht

namespace Registry

/-- A number occurs in a definition or in a remembered normal form. -/
def Uses (r : Registry) (id : Int) : Prop :=
  (∃ entry ∈ r.definitions, entry.2.body.Uses id) ∨ ∃ entry ∈ r.memo, entry.2.Uses id

/-- The numbers that occur in definitions and in remembered normal forms satisfy a predicate. -/
structure Over (P : Int → Prop) (r : Registry) : Prop where
  definitions : ∀ entry ∈ r.definitions, entry.2.body.Over P
  memo : ∀ entry ∈ r.memo, entry.2.Over P

variable {P Q : Int → Prop} {r : Registry}

theorem Over.mono (h : r.Over P) (hPQ : ∀ id, P id → Q id) : r.Over Q :=
  ⟨fun entry hentry => (h.definitions entry hentry).mono hPQ,
    fun entry hentry => (h.memo entry hentry).mono hPQ⟩

theorem over_uses (r : Registry) : r.Over r.Uses :=
  ⟨fun entry hentry _ hid => .inl ⟨entry, hentry, hid⟩,
    fun entry hentry _ hid => .inr ⟨entry, hentry, hid⟩⟩

theorem Over.lookup? (h : r.Over P) {name : String} {d : Definition}
    (hd : r.lookup? name = some d) : d.body.Over P := h.definitions _ (Table.mem_of_get? hd)

end Registry

/-! ## Kinds -/

namespace Ty

mutual

/-- The rows of a type satisfy one predicate, and its other unknowns, binders included, satisfy
another. -/
def Kinded (plain row : Int → Prop) : Ty → Prop
  | .var v => plain v.id
  | .prim _ | .lit _ => True
  | .fn p r => p.Kinded plain row ∧ r.Kinded plain row
  | .record fs v => KindedFields plain row fs ∧ ∀ w, v = some w → row w.id
  | .tuple ts | .union ts | .inter ts | .named _ ts => KindedAll plain row ts
  | .mu v t => plain v.id ∧ t.Kinded plain row

def KindedAll (plain row : Int → Prop) : List Ty → Prop
  | [] => True
  | t :: ts => t.Kinded plain row ∧ KindedAll plain row ts

def KindedFields (plain row : Int → Prop) : List (String × Ty) → Prop
  | [] => True
  | (_, t) :: fs => t.Kinded plain row ∧ KindedFields plain row fs

end

variable {plain row : Int → Prop}

theorem kindedAll_iff {ts : List Ty} : KindedAll plain row ts ↔ ∀ t ∈ ts, t.Kinded plain row := by
  induction ts with
  | nil => simp [KindedAll]
  | cons t ts ih => rw [KindedAll, ih, List.forall_mem_cons]

theorem kindedFields_iff {fs : List (String × Ty)} :
    KindedFields plain row fs ↔ ∀ f ∈ fs, f.2.Kinded plain row := by
  induction fs with
  | nil => simp [KindedFields]
  | cons f fs ih => rw [KindedFields, ih, List.forall_mem_cons]

theorem kinded_tuple {ts : List Ty} :
    (Ty.tuple ts).Kinded plain row ↔ ∀ t ∈ ts, t.Kinded plain row :=
  kindedAll_iff

theorem kinded_union {ts : List Ty} :
    (Ty.union ts).Kinded plain row ↔ ∀ t ∈ ts, t.Kinded plain row :=
  kindedAll_iff

theorem kinded_inter {ts : List Ty} :
    (Ty.inter ts).Kinded plain row ↔ ∀ t ∈ ts, t.Kinded plain row :=
  kindedAll_iff

theorem kinded_named {name : String} {ts : List Ty} :
    (Ty.named name ts).Kinded plain row ↔ ∀ t ∈ ts, t.Kinded plain row :=
  kindedAll_iff

theorem kinded_record {fs : List (String × Ty)} {v : Option TyVar} :
    (Ty.record fs v).Kinded plain row ↔
      (∀ f ∈ fs, f.2.Kinded plain row) ∧ ∀ w, v = some w → row w.id :=
  and_congr_left' kindedFields_iff

mutual

theorem Kinded.mono {plain' row' : Int → Prop} (hplain : ∀ id, plain id → plain' id)
    (hrow : ∀ id, row id → row' id) : ∀ {t : Ty}, t.Kinded plain row → t.Kinded plain' row'
  | .var v, h => hplain v.id h
  | .prim _, _ | .lit _, _ => trivial
  | .fn _ _, h => ⟨h.1.mono hplain hrow, h.2.mono hplain hrow⟩
  | .record _ _, h => ⟨KindedFields.mono hplain hrow h.1, fun w hw => hrow w.id (h.2 w hw)⟩
  | .tuple _, h | .union _, h | .inter _, h | .named _ _, h => KindedAll.mono hplain hrow h
  | .mu v _, h => ⟨hplain v.id h.1, h.2.mono hplain hrow⟩

theorem KindedAll.mono {plain' row' : Int → Prop} (hplain : ∀ id, plain id → plain' id)
    (hrow : ∀ id, row id → row' id) : ∀ {ts : List Ty}, KindedAll plain row ts →
    KindedAll plain' row' ts
  | [], _ => trivial
  | _ :: _, h => ⟨h.1.mono hplain hrow, KindedAll.mono hplain hrow h.2⟩

theorem KindedFields.mono {plain' row' : Int → Prop} (hplain : ∀ id, plain id → plain' id)
    (hrow : ∀ id, row id → row' id) : ∀ {fs : List (String × Ty)}, KindedFields plain row fs →
    KindedFields plain' row' fs
  | [], _ => trivial
  | (_, _) :: _, h => ⟨h.1.mono hplain hrow, KindedFields.mono hplain hrow h.2⟩

end

end Ty

end RowTypes
