import RowTypes.Proofs.Tables
import RowTypes.Ty.Subst

/-!
# Substitutions as maps

A substitution is a list of bindings, and what it does to a type depends on nothing but what it
binds each number to.  The list is read through `get?` here: what binding, erasing and composing
do to it, and what applying does to each constructor.  Composition folds over both lists of
bindings, once from the right and once from the left, so its law needs the keys to be in order and
each binding to stand under the number of its unknown.

An unknown that occurs after a substitution occurred before it or comes from a binding of one that
did.  This holds of every type, unions and recursive types included: building a union anew only
drops alternatives, and erasing a binder only drops a binding.
-/

namespace RowTypes

namespace Subst

/-- The bindings are in order, each under the number of its unknown, and none binds an unknown to
itself. -/
structure Ordered (s : Subst) : Prop where
  keyed : ∀ entry ∈ s.bindings, entry.2.var.id = entry.1
  ascending : s.bindings.Ascending
  proper : ∀ {id : Int} {w : TyVar}, s.get? id = some (.var w) → w.id ≠ id

/-- What an unknown of a number is bound to after it was bound to a type: an unknown is never
bound to itself. -/
def held (id : Int) (t : Ty) : Option Ty :=
  match t with
  | .var w => if w.id = id then none else some t
  | t => some t

theorem held_eq_some {id : Int} {t u : Ty} (h : held id t = some u) :
    u = t ∧ ∀ w : TyVar, t = .var w → w.id ≠ id := by
  unfold held at h
  split at h
  · next w =>
      split at h
      · cases h
      · next hw =>
          cases h
          refine ⟨rfl, fun w' hw' => ?_⟩
          cases hw'
          exact hw
  · next hne =>
      cases h
      exact ⟨rfl, fun w hw => absurd hw (hne w)⟩

theorem held_of_ne {id : Int} {t : Ty} (h : ∀ w : TyVar, t = .var w → w.id ≠ id) :
    held id t = some t := by
  unfold held
  split
  · next w => rw [if_neg (h w rfl)]
  · rfl

/-! ## Lookup -/

@[simp] theorem get?_empty (id : Int) : empty.get? id = none := rfl

theorem get?_of_isEmpty {s : Subst} (h : s.isEmpty = true) (id : Int) : s.get? id = none := by
  unfold get?
  rw [List.isEmpty_iff.1 h]
  rfl

theorem get?_erase (s : Subst) (v : TyVar) (id : Int) :
    (s.erase v).get? id = if id = v.id then none else s.get? id := by
  unfold erase get?
  split
  · next h => rw [h, Table.get?_erase_self]; rfl
  · next h => rw [Table.get?_erase_of_ne h]

theorem get?_insert (s : Subst) (v : TyVar) (t : Ty) (id : Int) :
    get? ⟨Table.insert v.id ⟨v, t⟩ s.bindings⟩ id = if id = v.id then some t else s.get? id := by
  unfold get?
  split
  · next h => rw [h, Table.get?_insert_self]; rfl
  · next h => rw [Table.get?_insert_of_ne h]

theorem get?_bind (s : Subst) (v : TyVar) (t : Ty) (id : Int) :
    (s.bind v t).get? id = if id = v.id then held v.id t else s.get? id := by
  unfold bind
  split
  · next w =>
      split
      · next hw => rw [get?_erase]; simp only [held, if_pos hw]
      · next hw => rw [get?_insert]; simp only [held, if_neg hw]
  · next hne =>
      rw [get?_insert, held_of_ne fun w hw => absurd hw (hne w)]

theorem get?_single (v : TyVar) (t : Ty) (id : Int) :
    (single v t).get? id = if id = v.id then held v.id t else none := by
  rw [single, get?_bind, get?_empty]

theorem eq_of_get?_single {v : TyVar} {t u : Ty} {id : Int} (h : (single v t).get? id = some u) :
    id = v.id ∧ u = t := by
  rw [get?_single] at h
  split at h
  · next hid => exact ⟨hid, (held_eq_some h).1⟩
  · cases h

theorem ordered_empty : empty.Ordered where
  keyed := by intro entry h; cases h
  ascending := List.Pairwise.nil
  proper := by intro id w h; cases h

theorem Ordered.bind {s : Subst} (h : s.Ordered) (v : TyVar) (t : Ty) : (s.bind v t).Ordered where
  keyed := by
    have inserted : ∀ entry ∈ Table.insert v.id ⟨v, t⟩ s.bindings, entry.2.var.id = entry.1 := by
      intro entry hentry
      rcases Table.mem_insert hentry with rfl | hentry
      · rfl
      · exact h.keyed entry hentry
    unfold Subst.bind
    split
    · split
      · exact fun entry hentry => h.keyed entry (List.mem_filter.1 hentry).1
      · exact inserted
    · exact inserted
  ascending := by
    unfold Subst.bind
    split
    · split
      · exact h.ascending.erase v.id
      · exact h.ascending.insert v.id _
    · exact h.ascending.insert v.id _
  proper := by
    intro id w hw
    rw [get?_bind] at hw
    split at hw
    · next hid =>
        obtain ⟨hheld, hne⟩ := held_eq_some hw
        rw [hid]
        exact hne w hheld.symm
    · exact h.proper hw

theorem ordered_single (v : TyVar) (t : Ty) : (single v t).Ordered := ordered_empty.bind v t

/-! ## Binding after binding

What binding keeps is true of everything that is made by binding, one type after the other. -/

theorem ofList_induction {C : Subst → Prop} {bindings : List (TyVar × Ty)} (hempty : C empty)
    (hbind : ∀ b ∈ bindings, ∀ s, C s → C (s.bind b.1 b.2)) : C (ofList bindings) :=
  List.foldlRecOn bindings _ hempty fun s hs b hb => hbind b hb s hs

theorem after_induction {C : Subst → Prop} {s next : Subst} (hempty : C empty)
    (hfirst : ∀ entry ∈ s.bindings, ∀ acc, C acc → C (acc.bind entry.2.var (next.apply entry.2.ty)))
    (hrest : ∀ entry ∈ next.bindings, ∀ acc, C acc → C (acc.bind entry.2.var entry.2.ty)) :
    C (next.after s) := by
  have happlied : C (s.bindings.foldr (fun entry acc =>
      acc.bind entry.2.var (next.apply entry.2.ty)) empty) :=
    List.foldrRecOn s.bindings _ hempty fun acc hacc entry hentry => hfirst entry hentry acc hacc
  refine List.foldlRecOn next.bindings _ happlied fun acc hacc entry hentry => ?_
  split
  · exact hacc
  · exact hrest entry hentry acc hacc

/-- Two lists of parameters that correspond, bound to types that correspond. -/
theorem related_ofList {V : TyVar → TyVar → Prop} {R : Ty → Ty → Prop}
    {C : Subst → Subst → Prop} {vs ws : List TyVar} {as bs : List Ty} (hempty : C empty empty)
    (hbind : ∀ v w a b s s', V v w → R a b → C s s' → C (s.bind v a) (s'.bind w b))
    (hvs : List.Forall₂ V vs ws) (h : List.Forall₂ R as bs) :
    C (ofList (vs.zip as)) (ofList (ws.zip bs)) := by
  have hzip : List.Forall₂ (fun b b' => V b.1 b'.1 ∧ R b.2 b'.2) (vs.zip as) (ws.zip bs) := by
    clear hempty hbind
    induction hvs generalizing as bs with
    | nil => exact .nil
    | cons hv _ ih =>
        cases h with
        | nil => exact .nil
        | cons hab h => exact .cons ⟨hv, hab⟩ (ih h)
  exact List.rel_foldl (fun s s' hs b b' hb => hbind b.1 b'.1 b.2 b'.2 s s' hb.1 hb.2 hs) hempty hzip

/-! ## Composition -/

theorem foldr_bind (s : Subst) {bindings : Table Int Binding}
    (hkeyed : ∀ entry ∈ bindings, entry.2.var.id = entry.1) :
    let applied := bindings.foldr (fun entry acc =>
      acc.bind entry.2.var (s.apply entry.2.ty)) empty
    applied.Ordered ∧ ∀ id, applied.get? id =
      (Table.get? id bindings).bind fun b => held id (s.apply b.ty) := by
  induction bindings with
  | nil => exact ⟨ordered_empty, fun id => rfl⟩
  | cons entry bindings ih =>
      obtain ⟨key, b⟩ := entry
      obtain ⟨hhead, htail⟩ := List.forall_mem_cons.1 hkeyed
      obtain ⟨hord, hget⟩ := ih htail
      refine ⟨hord.bind _ _, fun id => ?_⟩
      rw [List.foldr_cons, get?_bind, hhead, Table.get?_cons]
      split
      · next h => rw [h]; rfl
      · exact hget id

theorem foldl_bind (first : Table Int Binding) {bindings : Table Int Binding} :
    ∀ {acc : Subst}, acc.Ordered → (∀ entry ∈ bindings, entry.2.var.id = entry.1) →
    bindings.Ascending → (∀ {id : Int} {b : Binding} {w : TyVar},
      Table.get? id bindings = some b → b.ty = .var w → w.id ≠ id) →
    let composed := bindings.foldl (fun acc entry =>
      if Table.has entry.1 first then acc else acc.bind entry.2.var entry.2.ty) acc
    composed.Ordered ∧ ∀ id, composed.get? id =
      if Table.has id first then acc.get? id
      else ((Table.get? id bindings).map (·.ty)).or (acc.get? id) := by
  induction bindings with
  | nil =>
      intro acc hacc _ _ _
      refine ⟨hacc, fun id => ?_⟩
      simp
  | cons entry bindings ih =>
      obtain ⟨key, b⟩ := entry
      intro acc hacc hkeyed hasc hproper
      obtain ⟨hhead, htail⟩ := List.forall_mem_cons.1 hkeyed
      obtain ⟨hlt, hasc'⟩ := List.pairwise_cons.1 hasc
      -- The key of the first entry has no other entry, so later ones do not overwrite it.
      have hfresh : Table.get? key bindings = none := by
        cases hg : Table.get? key bindings with
        | none => rfl
        | some b' => exact absurd (hlt _ (Table.mem_of_get? hg)) (Int.lt_irrefl key)
      have hproper' : ∀ {id : Int} {b' : Binding} {w : TyVar},
          Table.get? id bindings = some b' → b'.ty = .var w → w.id ≠ id := by
        intro id b' w hg hw
        have hne : id ≠ key := by
          rintro rfl
          rw [hfresh] at hg
          cases hg
        exact hproper (by rw [Table.get?_cons, if_neg hne]; exact hg) hw
      rw [List.foldl_cons]
      by_cases hhas : Table.has key first = true
      · rw [if_pos hhas]
        obtain ⟨hord, hget⟩ := ih hacc htail hasc' hproper'
        refine ⟨hord, fun id => ?_⟩
        rw [hget, Table.get?_cons]
        by_cases hid : id = key
        · rw [if_pos (hid ▸ hhas), if_pos (hid ▸ hhas)]
        · rw [if_neg hid]
      · rw [if_neg hhas]
        obtain ⟨hord, hget⟩ := ih (hacc.bind b.var b.ty) htail hasc' hproper'
        refine ⟨hord, fun id => ?_⟩
        have hown : held key b.ty = some b.ty :=
          held_of_ne fun w hw => hproper (by rw [Table.get?_cons, if_pos rfl]) hw
        rw [hget, get?_bind, hhead, Table.get?_cons]
        by_cases hid : id = key
        · subst hid
          rw [if_neg hhas, if_neg hhas, if_pos rfl, if_pos rfl, hfresh, hown]
          rfl
        · rw [if_neg hid, if_neg hid]

theorem after_spec {s first : Subst} (hs : s.Ordered) (hf : first.Ordered) :
    (s.after first).Ordered ∧ ∀ id, (s.after first).get? id =
      match first.get? id with
      | some t => held id (s.apply t)
      | none => s.get? id := by
  obtain ⟨hord, hget⟩ := foldr_bind s hf.keyed
  have hproper : ∀ {id : Int} {b : Binding} {w : TyVar},
      Table.get? id s.bindings = some b → b.ty = .var w → w.id ≠ id := by
    intro id b w hb hw
    exact hs.proper (by rw [get?, hb, Option.map_some, hw])
  obtain ⟨hord', hget'⟩ := foldl_bind first.bindings hord hs.keyed hs.ascending hproper
  refine ⟨hord', fun id => ?_⟩
  rw [after, hget', hget]
  unfold get? Table.has
  cases hb : Table.get? id first.bindings with
  | some b => simp
  | none => simp

theorem Ordered.after {s first : Subst} (hs : s.Ordered) (hf : first.Ordered) :
    (s.after first).Ordered := (after_spec hs hf).1

theorem get?_after {s first : Subst} (hs : s.Ordered) (hf : first.Ordered) (id : Int) :
    (s.after first).get? id =
      match first.get? id with
      | some t => held id (s.apply t)
      | none => s.get? id := (after_spec hs hf).2 id

/-! ## Application, constructor by constructor -/

-- The equations of application are worked out here, before many proofs ask for them at once.
attribute [grind =] apply applyAll applyFields

theorem apply_of_isEmpty {s : Subst} (h : s.isEmpty = true) (t : Ty) : s.apply t = t := by
  rw [apply.eq_def, if_pos h]

theorem apply_empty (t : Ty) : empty.apply t = t := apply_of_isEmpty rfl t

theorem applyAll_eq_map (s : Subst) (ts : List Ty) : s.applyAll ts = ts.map s.apply := by
  induction ts with
  | nil => rfl
  | cons t ts ih => rw [applyAll, ih, List.map_cons]

theorem applyFields_eq_map (s : Subst) (fs : List (String × Ty)) :
    s.applyFields fs = fs.map fun f => (f.1, s.apply f.2) := by
  induction fs with
  | nil => rfl
  | cons f fs ih => rw [applyFields, ih, List.map_cons]

theorem map_apply_of_isEmpty {s : Subst} (h : s.isEmpty = true) (ts : List Ty) :
    ts.map s.apply = ts := by
  rw [funext (apply_of_isEmpty h)]
  exact List.map_id ts

theorem mapFields_apply_of_isEmpty {s : Subst} (h : s.isEmpty = true) (fs : List (String × Ty)) :
    (fs.map fun f => (f.1, s.apply f.2)) = fs := by
  simp only [apply_of_isEmpty h]
  exact List.map_id fs

theorem apply_var (s : Subst) (v : TyVar) : s.apply (.var v) = (s.get? v.id).getD (.var v) := by
  by_cases h : s.isEmpty = true
  · rw [apply_of_isEmpty h, get?_of_isEmpty h]; rfl
  · rw [apply, if_neg h]; rfl

theorem apply_prim (s : Subst) (name : String) : s.apply (.prim name) = .prim name := by
  rw [apply]
  split <;> rfl

theorem apply_lit (s : Subst) (value : String) : s.apply (.lit value) = .lit value := by
  rw [apply]
  split <;> rfl

theorem apply_fn (s : Subst) (p r : Ty) : s.apply (.fn p r) = .fn (s.apply p) (s.apply r) := by
  by_cases h : s.isEmpty = true
  · rw [apply_of_isEmpty h, apply_of_isEmpty h, apply_of_isEmpty h]
  · rw [apply, if_neg h]

theorem apply_tuple (s : Subst) (ts : List Ty) :
    s.apply (.tuple ts) = .tuple (ts.map s.apply) := by
  by_cases h : s.isEmpty = true
  · rw [apply_of_isEmpty h, map_apply_of_isEmpty h]
  · rw [apply, if_neg h, ← applyAll_eq_map]

theorem apply_named (s : Subst) (name : String) (ts : List Ty) :
    s.apply (.named name ts) = .named name (ts.map s.apply) := by
  by_cases h : s.isEmpty = true
  · rw [apply_of_isEmpty h, map_apply_of_isEmpty h]
  · rw [apply, if_neg h, ← applyAll_eq_map]

theorem apply_union {s : Subst} (h : s.isEmpty = false) (ts : List Ty) :
    s.apply (.union ts) = Ty.unionOf (ts.map s.apply) := by
  rw [apply, if_neg (by simp [h]), applyAll_eq_map]

theorem apply_inter {s : Subst} (h : s.isEmpty = false) (ts : List Ty) :
    s.apply (.inter ts) = Ty.interOf (ts.map s.apply) := by
  rw [apply, if_neg (by simp [h]), applyAll_eq_map]

theorem apply_closed (s : Subst) (fs : List (String × Ty)) :
    s.apply (.record fs none) = .record (fs.map fun f => (f.1, s.apply f.2)) none := by
  by_cases h : s.isEmpty = true
  · rw [apply_of_isEmpty h, mapFields_apply_of_isEmpty h]
  · rw [apply, if_neg h, ← applyFields_eq_map]

theorem apply_open (s : Subst) (fs : List (String × Ty)) (row : TyVar) :
    s.apply (.record fs (some row)) =
      (RecordTy.splice (fs.map fun f => (f.1, s.apply f.2)) row (s.get? row.id)).toTy := by
  by_cases h : s.isEmpty = true
  · rw [apply_of_isEmpty h, mapFields_apply_of_isEmpty h, get?_of_isEmpty h]; rfl
  · rw [apply, if_neg h, ← applyFields_eq_map]; rfl

/-- Substituting keeps a record a record. -/
theorem exists_record_eq_apply (s : Subst) (fs : List (String × Ty)) (row : Option TyVar) :
    ∃ gs rest, s.apply (.record fs row) = .record gs rest := by
  cases row with
  | none => exact ⟨_, _, apply_closed s fs⟩
  | some v => exact ⟨_, _, apply_open s fs v⟩

theorem isEmpty_erase {s : Subst} (h : s.isEmpty = true) (v : TyVar) :
    (s.erase v).isEmpty = true := by
  have hnil : s.bindings = [] := List.isEmpty_iff.1 h
  simp [isEmpty, erase, Table.erase, hnil]

theorem apply_mu (s : Subst) (v : TyVar) (t : Ty) :
    s.apply (.mu v t) = .mu v ((s.erase v).apply t) := by
  by_cases h : s.isEmpty = true
  · rw [apply_of_isEmpty h, apply_of_isEmpty (isEmpty_erase h v)]
  · rw [apply, if_neg h]

end Subst

/-! ## The unknowns of a type -/

namespace Ty

-- The equations of occurrence are worked out here, before many proofs ask for them at once.
attribute [grind =] occurs occursAny occursFields

/-- The unknown of a number occurs free in a type. -/
def Mentions (id : Int) (t : Ty) : Prop := t.occurs ⟨id, 0⟩ = true

theorem occursAny_iff {v : TyVar} {ts : List Ty} :
    occursAny v ts = true ↔ ∃ t ∈ ts, t.occurs v = true := by
  induction ts with
  | nil => simp [occursAny]
  | cons t ts ih => rw [occursAny, Bool.or_eq_true, ih, List.exists_mem_cons_iff]

theorem occursFields_iff {v : TyVar} {fs : List (String × Ty)} :
    occursFields v fs = true ↔ ∃ f ∈ fs, f.2.occurs v = true := by
  induction fs with
  | nil => simp [occursFields]
  | cons f fs ih => rw [occursFields, Bool.or_eq_true, ih, List.exists_mem_cons_iff]

@[simp] theorem mentions_var {id : Int} {v : TyVar} : (Ty.var v).Mentions id ↔ v.id = id := by
  simp [Mentions, occurs]

@[simp] theorem mentions_prim {id : Int} {name : String} : ¬ (Ty.prim name).Mentions id := by
  simp [Mentions, occurs]

@[simp] theorem mentions_lit {id : Int} {value : String} : ¬ (Ty.lit value).Mentions id := by
  simp [Mentions, occurs]

@[simp] theorem mentions_fn {id : Int} {p r : Ty} :
    (Ty.fn p r).Mentions id ↔ p.Mentions id ∨ r.Mentions id := by
  simp [Mentions, occurs]

@[simp] theorem mentions_tuple {id : Int} {ts : List Ty} :
    (Ty.tuple ts).Mentions id ↔ ∃ t ∈ ts, t.Mentions id := by
  simp [Mentions, occurs, occursAny_iff]

@[simp] theorem mentions_union {id : Int} {ts : List Ty} :
    (Ty.union ts).Mentions id ↔ ∃ t ∈ ts, t.Mentions id := by
  simp [Mentions, occurs, occursAny_iff]

@[simp] theorem mentions_inter {id : Int} {ts : List Ty} :
    (Ty.inter ts).Mentions id ↔ ∃ t ∈ ts, t.Mentions id := by
  simp [Mentions, occurs, occursAny_iff]

@[simp] theorem mentions_named {id : Int} {name : String} {ts : List Ty} :
    (Ty.named name ts).Mentions id ↔ ∃ t ∈ ts, t.Mentions id := by
  simp [Mentions, occurs, occursAny_iff]

@[simp] theorem mentions_mu {id : Int} {v : TyVar} {t : Ty} :
    (Ty.mu v t).Mentions id ↔ v.id ≠ id ∧ t.Mentions id := by
  simp [Mentions, occurs]

@[simp] theorem mentions_record {id : Int} {fs : List (String × Ty)} {row : Option TyVar} :
    (Ty.record fs row).Mentions id ↔
      (∃ f ∈ fs, f.2.Mentions id) ∨ ∃ v, row = some v ∧ v.id = id := by
  simp only [Mentions, occurs, Bool.or_eq_true, occursFields_iff]
  refine or_congr Iff.rfl ?_
  cases row <;> simp

mutual

theorem occurs_congr {v w : TyVar} (h : v.id = w.id) : ∀ t : Ty, t.occurs v = t.occurs w
  | .var x => by rw [occurs, occurs, h]
  | .prim _ | .lit _ => rfl
  | .fn p r => by rw [occurs, occurs, occurs_congr h p, occurs_congr h r]
  | .record fs row => by rw [occurs, occurs, occursFields_congr h fs, h]
  | .tuple ts | .union ts | .inter ts | .named _ ts => by
      rw [occurs, occurs, occursAny_congr h ts]
  | .mu x t => by rw [occurs, occurs, occurs_congr h t, h]

theorem occursAny_congr {v w : TyVar} (h : v.id = w.id) :
    ∀ ts : List Ty, occursAny v ts = occursAny w ts
  | [] => rfl
  | t :: ts => by rw [occursAny, occursAny, occurs_congr h t, occursAny_congr h ts]

theorem occursFields_congr {v w : TyVar} (h : v.id = w.id) :
    ∀ fs : List (String × Ty), occursFields v fs = occursFields w fs
  | [] => rfl
  | (_, t) :: fs => by
      rw [occursFields, occursFields, occurs_congr h t, occursFields_congr h fs]

end

theorem occurs_iff_mentions {v : TyVar} {t : Ty} : t.occurs v = true ↔ t.Mentions v.id := by
  rw [Mentions, occurs_congr (v := v) (w := ⟨v.id, 0⟩) rfl t]

mutual

/-- The set of free unknowns holds those that occur free. -/
theorem has_freeInto {w : TyVar} : ∀ (t : Ty) (bound : List Int) (s : VarSet),
    (freeInto bound t s).has w = true ↔ s.has w = true ∨ (w.id ∉ bound ∧ t.Mentions w.id)
  | .var v, bound, s => by
      rw [freeInto, mentions_var]
      split
      · next hmem =>
          refine ⟨.inl, fun h => h.elim id fun ⟨hnot, hid⟩ => absurd (hid ▸ hmem) hnot⟩
      · next hmem =>
          rw [VarSet.has_insert, Bool.or_eq_true, beq_iff_eq, or_comm]
          refine or_congr Iff.rfl ⟨fun hid => ⟨hid ▸ hmem, hid⟩, fun h => h.2⟩
  | .prim _, bound, s => by simp [freeInto]
  | .lit _, bound, s => by simp [freeInto]
  | .fn p r, bound, s => by
      rw [freeInto, has_freeInto r, has_freeInto p, mentions_fn, or_assoc, and_or_left]
  | .record fs none, bound, s => by
      rw [freeInto]
      simp only [has_freeFields fs, mentions_record]
      simp
  | .record fs (some v), bound, s => by
      rw [freeInto]
      simp only [mentions_record, Option.some.injEq, exists_eq_left']
      split
      · next hmem =>
          rw [has_freeFields fs]
          refine or_congr Iff.rfl (and_congr_right fun hnot => ⟨.inl, fun h => h.elim id ?_⟩)
          rintro hid
          exact absurd (hid ▸ hmem) hnot
      · next hmem =>
          rw [VarSet.has_insert, Bool.or_eq_true, beq_iff_eq, has_freeFields fs, or_left_comm,
            and_or_left]
          refine or_congr Iff.rfl ?_
          rw [or_comm]
          exact or_congr Iff.rfl ⟨fun hid => ⟨hid ▸ hmem, hid⟩, fun h => h.2⟩
  | .tuple ts, bound, s => by rw [freeInto, has_freeAll ts, mentions_tuple]
  | .union ts, bound, s => by rw [freeInto, has_freeAll ts, mentions_union]
  | .inter ts, bound, s => by rw [freeInto, has_freeAll ts, mentions_inter]
  | .named _ ts, bound, s => by rw [freeInto, has_freeAll ts, mentions_named]
  | .mu v t, bound, s => by
      rw [freeInto, has_freeInto t, mentions_mu, List.mem_cons, not_or, and_assoc]
      refine or_congr Iff.rfl ?_
      rw [and_left_comm, ne_comm]

theorem has_freeAll {w : TyVar} : ∀ (ts : List Ty) (bound : List Int) (s : VarSet),
    (freeAll bound ts s).has w = true ↔
      s.has w = true ∨ (w.id ∉ bound ∧ ∃ t ∈ ts, t.Mentions w.id)
  | [], bound, s => by simp [freeAll]
  | t :: ts, bound, s => by
      rw [freeAll, has_freeAll ts, has_freeInto t, List.exists_mem_cons_iff, or_assoc, and_or_left]

theorem has_freeFields {w : TyVar} : ∀ (fs : List (String × Ty)) (bound : List Int) (s : VarSet),
    (freeFields bound fs s).has w = true ↔
      s.has w = true ∨ (w.id ∉ bound ∧ ∃ f ∈ fs, f.2.Mentions w.id)
  | [], bound, s => by simp [freeFields]
  | (_, t) :: fs, bound, s => by
      rw [freeFields, has_freeFields fs, has_freeInto t, List.exists_mem_cons_iff, or_assoc,
        and_or_left]

end

theorem has_free {w : TyVar} {t : Ty} : t.free.has w = true ↔ t.Mentions w.id := by
  rw [free, has_freeInto]
  simp [VarSet.has]

theorem mentions_of_mem_free {v : TyVar} {t : Ty} (hv : v ∈ t.free) : t.Mentions v.id :=
  has_free.1 (List.any_eq_true.2 ⟨v, hv, beq_self_eq_true _⟩)

theorem exists_mem_free {id : Int} {t : Ty} (h : t.Mentions id) : ∃ v ∈ t.free, v.id = id := by
  obtain ⟨v, hv, hid⟩ := List.any_eq_true.1 (has_free (w := ⟨id, 0⟩) |>.2 h)
  exact ⟨v, hv, beq_iff_eq.1 hid⟩

theorem has_frees {w : TyVar} {ts : List Ty} :
    (frees ts).has w = true ↔ ∃ t ∈ ts, t.Mentions w.id := by
  rw [frees, has_freeAll]
  simp [VarSet.has]

theorem mem_distinct {t : Ty} {ts : List Ty} (h : t ∈ distinct ts) : t ∈ ts := by
  have general : ∀ (ts seen : List Ty), t ∈ ts.foldl addDistinct seen → t ∈ seen ∨ t ∈ ts := by
    intro ts
    induction ts with
    | nil => intro seen h; exact .inl h
    | cons u ts ih =>
        intro seen h
        rcases ih _ h with h | h
        · unfold addDistinct at h
          split at h
          · exact .inl h
          · rcases List.mem_append.1 h with h | h
            · exact .inl h
            · rw [List.mem_singleton.1 h]
              exact .inr List.mem_cons_self
        · exact .inr (List.mem_cons_of_mem _ h)
  rcases general ts [] h with h | h
  · cases h
  · exact h

mutual

theorem mentions_of_mem_alternatives {id : Int} {a : Ty} :
    ∀ {t : Ty}, a ∈ alternatives t → a.Mentions id → t.Mentions id
  | .union ts, h, ha => by
      rw [alternatives] at h
      exact mentions_union.2 (mentions_of_mem_alternativesAll h ha)
  | .var _, h, ha | .prim _, h, ha | .lit _, h, ha | .fn _ _, h, ha | .record _ _, h, ha
  | .tuple _, h, ha | .inter _, h, ha | .named _ _, h, ha | .mu _ _, h, ha => by
      rw [alternatives, List.mem_singleton] at h
      · exact h ▸ ha
      · intro ts hts; cases hts

theorem mentions_of_mem_alternativesAll {id : Int} {a : Ty} :
    ∀ {ts : List Ty}, a ∈ alternativesAll ts → a.Mentions id → ∃ t ∈ ts, t.Mentions id
  | t :: ts, h, ha => by
      rw [alternativesAll] at h
      rcases List.mem_append.1 h with h | h
      · exact ⟨t, List.mem_cons_self, mentions_of_mem_alternatives h ha⟩
      · obtain ⟨u, hu, hid⟩ := mentions_of_mem_alternativesAll h ha
        exact ⟨u, List.mem_cons_of_mem _ hu, hid⟩

end

mutual

theorem mentions_of_mem_membersOf {id : Int} {a : Ty} :
    ∀ {t : Ty}, a ∈ membersOf t → a.Mentions id → t.Mentions id
  | .inter ts, h, ha => by
      rw [membersOf] at h
      exact mentions_inter.2 (mentions_of_mem_membersOfAll h ha)
  | .var _, h, ha | .prim _, h, ha | .lit _, h, ha | .fn _ _, h, ha | .record _ _, h, ha
  | .tuple _, h, ha | .union _, h, ha | .named _ _, h, ha | .mu _ _, h, ha => by
      rw [membersOf, List.mem_singleton] at h
      · exact h ▸ ha
      · intro ts hts; cases hts

theorem mentions_of_mem_membersOfAll {id : Int} {a : Ty} :
    ∀ {ts : List Ty}, a ∈ membersOfAll ts → a.Mentions id → ∃ t ∈ ts, t.Mentions id
  | t :: ts, h, ha => by
      rw [membersOfAll] at h
      rcases List.mem_append.1 h with h | h
      · exact ⟨t, List.mem_cons_self, mentions_of_mem_membersOf h ha⟩
      · obtain ⟨u, hu, hid⟩ := mentions_of_mem_membersOfAll h ha
        exact ⟨u, List.mem_cons_of_mem _ hu, hid⟩

end

theorem mentions_unionOf? {id : Int} {ts : List Ty} {u : Ty} (hu : unionOf? ts = some u)
    (h : u.Mentions id) : ∃ t ∈ ts, t.Mentions id := by
  have hmem : ∃ a ∈ distinct (alternativesAll ts), a.Mentions id := by
    unfold unionOf? at hu
    split at hu
    · cases hu
    · next a ha => cases hu; exact ⟨u, by rw [ha]; exact List.mem_singleton.2 rfl, h⟩
    · cases hu; exact mentions_union.1 h
  obtain ⟨a, ha, hid⟩ := hmem
  exact mentions_of_mem_alternativesAll (mem_distinct ha) hid

theorem mentions_unionOf {id : Int} {ts : List Ty} (h : (unionOf ts).Mentions id) :
    ∃ t ∈ ts, t.Mentions id := by
  unfold unionOf at h
  cases hu : unionOf? ts with
  | none => rw [hu] at h; simp at h
  | some u => rw [hu] at h; exact mentions_unionOf? hu h

theorem mentions_interOf {id : Int} {ts : List Ty} (h : (interOf ts).Mentions id) :
    ∃ t ∈ ts, t.Mentions id := by
  have hmem : ∃ a ∈ distinct (membersOfAll ts), a.Mentions id := by
    unfold interOf interOf? at h
    split at h
    · simp at h
    · next a ha => exact ⟨a, by rw [ha]; exact List.mem_singleton.2 rfl, h⟩
    · exact mentions_inter.1 h
  obtain ⟨a, ha, hid⟩ := hmem
  exact mentions_of_mem_membersOfAll (mem_distinct ha) hid

end Ty

/-! ## Splicing -/

namespace RecordTy

variable {fs : List (String × Ty)} {row : TyVar} {bound : Option Ty}

/-- What is spliced has the fields that were there, and those of the record that is put in. -/
theorem mem_fields_splice {f : String × Ty} (h : f ∈ (splice fs row bound).fields) :
    f ∈ fs ∨ ∃ more rest, bound = some (.record more rest) ∧ f ∈ more := by
  unfold splice at h
  split at h
  · exact .inl h
  · exact .inl h
  · next more rest => exact (Table.mem_underlay h).imp_right fun h => ⟨more, rest, rfl, h⟩
  · exact .inl h

theorem ascending_splice (h : Table.Ascending fs) :
    Table.Ascending (splice fs row bound).fields := by
  unfold splice
  split
  · exact h
  · exact h
  · exact h.underlay
  · exact h

end RecordTy

/-! ## The unknowns after a substitution -/

theorem RecordTy.mentions_splice {id : Int} {fs : List (String × Ty)} {row : TyVar}
    {bound : Option Ty} (h : (splice fs row bound).toTy.Mentions id) :
    (Ty.record fs (some row)).Mentions id ∨ ∃ u, bound = some u ∧ u.Mentions id := by
  unfold splice at h
  split at h
  · exact .inl h
  · next v =>
      rcases Ty.mentions_record.1 h with h | ⟨w, hw, hid⟩
      · exact .inl (Ty.mentions_record.2 (.inl h))
      · cases hw
        exact .inr ⟨_, rfl, Ty.mentions_var.2 hid⟩
  · next more rest =>
      rcases Ty.mentions_record.1 h with ⟨f, hf, hid⟩ | h
      · rcases Table.mem_underlay hf with hf | hf
        · exact .inl (Ty.mentions_record.2 (.inl ⟨f, hf, hid⟩))
        · exact .inr ⟨_, rfl, Ty.mentions_record.2 (.inl ⟨f, hf, hid⟩)⟩
      · exact .inr ⟨_, rfl, Ty.mentions_record.2 (.inr h)⟩
  · exact .inl h

namespace Subst

/-- A number comes out of a type under a substitution: it occurs in the type, or in what one of
the type's unknowns is bound to. -/
def Yields (s : Subst) (t : Ty) (id : Int) : Prop :=
  t.Mentions id ∨ ∃ j u, t.Mentions j ∧ s.get? j = some u ∧ u.Mentions id

theorem Yields.mono {s : Subst} {t t' : Ty} {id : Int} (h : s.Yields t id)
    (hsub : ∀ j, t.Mentions j → t'.Mentions j) : s.Yields t' id := by
  rcases h with h | ⟨j, u, hj, hu, hid⟩
  · exact .inl (hsub id h)
  · exact .inr ⟨j, u, hsub j hj, hu, hid⟩

mutual

theorem yields_of_mentions_apply {id : Int} : ∀ (s : Subst) (t : Ty),
    (s.apply t).Mentions id → s.Yields t id
  | s, .var v, h => by
      rw [apply_var] at h
      cases hv : s.get? v.id with
      | none => rw [hv] at h; exact .inl h
      | some u => rw [hv] at h; exact .inr ⟨v.id, u, Ty.mentions_var.2 rfl, hv, h⟩
  | s, .prim name, h => by
      rw [apply_prim] at h
      exact .inl h
  | s, .lit value, h => by
      rw [apply.eq_def] at h
      split at h <;> exact .inl h
  | s, .fn p r, h => by
      rw [apply_fn] at h
      rcases Ty.mentions_fn.1 h with h | h
      · exact (yields_of_mentions_apply s p h).mono fun j hj => Ty.mentions_fn.2 (.inl hj)
      · exact (yields_of_mentions_apply s r h).mono fun j hj => Ty.mentions_fn.2 (.inr hj)
  | s, .record fs none, h => by
      rw [apply_closed, ← applyFields_eq_map] at h
      rcases Ty.mentions_record.1 h with h | ⟨v, hv, -⟩
      · exact yields_of_mentions_fields s fs none h
      · cases hv
  | s, .record fs (some row), h => by
      rw [apply_open, ← applyFields_eq_map] at h
      rcases RecordTy.mentions_splice h with h | ⟨u, hu, hid⟩
      · rcases Ty.mentions_record.1 h with h | h
        · exact yields_of_mentions_fields s fs (some row) h
        · exact .inl (Ty.mentions_record.2 (.inr h))
      · exact .inr ⟨row.id, u, Ty.mentions_record.2 (.inr ⟨row, rfl, rfl⟩), hu, hid⟩
  | s, .tuple ts, h => by
      rw [apply_tuple, ← applyAll_eq_map] at h
      obtain ⟨t, ht, hy⟩ := yields_of_mentions_all s ts (Ty.mentions_tuple.1 h)
      exact hy.mono fun j hj => Ty.mentions_tuple.2 ⟨t, ht, hj⟩
  | s, .union ts, h => by
      rw [apply] at h
      split at h
      · exact .inl h
      · obtain ⟨t, ht, hy⟩ := yields_of_mentions_all s ts (Ty.mentions_unionOf h)
        exact hy.mono fun j hj => Ty.mentions_union.2 ⟨t, ht, hj⟩
  | s, .inter ts, h => by
      rw [apply] at h
      split at h
      · exact .inl h
      · obtain ⟨t, ht, hy⟩ := yields_of_mentions_all s ts (Ty.mentions_interOf h)
        exact hy.mono fun j hj => Ty.mentions_inter.2 ⟨t, ht, hj⟩
  | s, .named name ts, h => by
      rw [apply_named, ← applyAll_eq_map] at h
      obtain ⟨t, ht, hy⟩ := yields_of_mentions_all s ts (Ty.mentions_named.1 h)
      exact hy.mono fun j hj => Ty.mentions_named.2 ⟨t, ht, hj⟩
  | s, .mu v t, h => by
      rw [apply] at h
      split at h
      · exact .inl h
      · obtain ⟨hne, h⟩ := Ty.mentions_mu.1 h
        -- `v` has no binding in `s.erase v`, so an image that is found here is not that of `v`.
        rcases yields_of_mentions_apply (s.erase v) t h with h | ⟨j, u, hj, hu, hid⟩
        · exact .inl (Ty.mentions_mu.2 ⟨hne, h⟩)
        · rw [get?_erase] at hu
          split at hu
          · cases hu
          · next hjv => exact .inr ⟨j, u, Ty.mentions_mu.2 ⟨Ne.symm hjv, hj⟩, hu, hid⟩

theorem yields_of_mentions_all {id : Int} : ∀ (s : Subst) (ts : List Ty),
    (∃ t ∈ s.applyAll ts, t.Mentions id) → ∃ t ∈ ts, s.Yields t id
  | s, [], h => by simp [applyAll] at h
  | s, t :: ts, h => by
      rw [applyAll, List.exists_mem_cons_iff] at h
      rcases h with h | h
      · exact ⟨t, List.mem_cons_self, yields_of_mentions_apply s t h⟩
      · obtain ⟨u, hu, hy⟩ := yields_of_mentions_all s ts h
        exact ⟨u, List.mem_cons_of_mem _ hu, hy⟩

theorem yields_of_mentions_fields {id : Int} : ∀ (s : Subst) (fs : List (String × Ty))
    (row : Option TyVar), (∃ f ∈ s.applyFields fs, f.2.Mentions id) →
    s.Yields (.record fs row) id
  | s, [], row, h => by simp [applyFields] at h
  | s, (name, t) :: fs, row, h => by
      rw [applyFields, List.exists_mem_cons_iff] at h
      rcases h with h | h
      · exact (yields_of_mentions_apply s t h).mono fun j hj =>
          Ty.mentions_record.2 (.inl ⟨(name, t), List.mem_cons_self, hj⟩)
      · refine (yields_of_mentions_fields s fs row h).mono fun j hj => ?_
        rcases Ty.mentions_record.1 hj with ⟨f, hf, hj⟩ | hj
        · exact Ty.mentions_record.2 (.inl ⟨f, List.mem_cons_of_mem _ hf, hj⟩)
        · exact Ty.mentions_record.2 (.inr hj)

end

end Subst

end RowTypes
