import RowTypes.Proofs.Occurrences
import RowTypes.Proofs.Refining
import RowTypes.Registry.Normalize

/-!
# Binders stay bound

Normalising makes unknowns of its own, the binders of the references that it expands, and none of
them gets free: a reference that comes back to one that is being expanded stands for its binder,
and what is remembered or handed out mentions no binder of an expansion that is going on.

Unfolding a recursive type keeps it so, although a row that is sent to a recursive type stays as it
is: the binders that normalising makes never stand in the place of a row.  `Ty.Rooted` says both,
that free unknowns come from where they may, and that rows do, bound or not.
-/

namespace RowTypes

namespace Ty

/-- The free unknowns of a type satisfy the second predicate, and its rows the first one, also
those that a recursive type binds. -/
inductive Rooted (P : Int → Prop) : (Int → Prop) → Ty → Prop where
  | var {V : Int → Prop} {v : TyVar} : V v.id → Rooted P V (.var v)
  | prim {V : Int → Prop} (name : String) : Rooted P V (.prim name)
  | lit {V : Int → Prop} (value : String) : Rooted P V (.lit value)
  | fn {V : Int → Prop} {p r : Ty} : Rooted P V p → Rooted P V r → Rooted P V (.fn p r)
  | record {V : Int → Prop} {fs : List (String × Ty)} {row : Option TyVar} :
      (∀ f ∈ fs, Rooted P V f.2) → (∀ v, row = some v → P v.id) → Rooted P V (.record fs row)
  | tuple {V : Int → Prop} {ts : List Ty} : (∀ t ∈ ts, Rooted P V t) → Rooted P V (.tuple ts)
  | union {V : Int → Prop} {ts : List Ty} : (∀ t ∈ ts, Rooted P V t) → Rooted P V (.union ts)
  | inter {V : Int → Prop} {ts : List Ty} : (∀ t ∈ ts, Rooted P V t) → Rooted P V (.inter ts)
  | named {V : Int → Prop} {name : String} {ts : List Ty} :
      (∀ t ∈ ts, Rooted P V t) → Rooted P V (.named name ts)
  | mu {V : Int → Prop} {v : TyVar} {t : Ty} :
      Rooted P (fun id => id = v.id ∨ V id) t → Rooted P V (.mu v t)

variable {P V V' : Int → Prop} {t : Ty} {ts : List Ty} {fs : List (String × Ty)}
  {row : Option TyVar} {v : TyVar}

theorem rooted_record : (Ty.record fs row).Rooted P V ↔
    (∀ f ∈ fs, f.2.Rooted P V) ∧ ∀ v, row = some v → P v.id :=
  ⟨by rintro (_ | _ | _ | _ | ⟨hfs, hrow⟩); exact ⟨hfs, hrow⟩, fun h => .record h.1 h.2⟩

theorem rooted_tuple : (Ty.tuple ts).Rooted P V ↔ ∀ t ∈ ts, t.Rooted P V :=
  ⟨by rintro ⟨⟩; assumption, .tuple⟩

theorem rooted_union : (Ty.union ts).Rooted P V ↔ ∀ t ∈ ts, t.Rooted P V :=
  ⟨by rintro ⟨⟩; assumption, .union⟩

theorem rooted_inter : (Ty.inter ts).Rooted P V ↔ ∀ t ∈ ts, t.Rooted P V :=
  ⟨by rintro ⟨⟩; assumption, .inter⟩

mutual

theorem Over.rooted : ∀ {V : Int → Prop} {t : Ty}, t.Over P → (∀ id, P id → V id) → t.Rooted P V
  | _, .var _, ht, hV => .var (hV _ (over_var.1 ht))
  | _, .prim name, _, _ => .prim name
  | _, .lit value, _, _ => .lit value
  | _, .fn _ _, ht, hV => .fn ((over_fn.1 ht).1.rooted hV) ((over_fn.1 ht).2.rooted hV)
  | _, .record _ _, ht, hV =>
      .record (rooted_of_over_fields (over_record.1 ht).1 hV) (over_record.1 ht).2
  | _, .tuple _, ht, hV => .tuple (rooted_of_over_all (over_tuple.1 ht) hV)
  | _, .union _, ht, hV => .union (rooted_of_over_all (over_union.1 ht) hV)
  | _, .inter _, ht, hV => .inter (rooted_of_over_all (over_inter.1 ht) hV)
  | _, .named _ _, ht, hV => .named (rooted_of_over_all (over_named.1 ht) hV)
  | _, .mu _ _, ht, hV => .mu ((over_mu.1 ht).2.rooted fun id hid => .inr (hV id hid))

theorem rooted_of_over_all : ∀ {V : Int → Prop} {ts : List Ty}, (∀ t ∈ ts, t.Over P) →
    (∀ id, P id → V id) → ∀ t ∈ ts, t.Rooted P V
  | _, [], _, _ => by simp
  | _, t :: ts, hts, hV => by
      rw [List.forall_mem_cons] at hts ⊢
      exact ⟨hts.1.rooted hV, rooted_of_over_all hts.2 hV⟩

theorem rooted_of_over_fields : ∀ {V : Int → Prop} {fs : List (String × Ty)},
    (∀ f ∈ fs, f.2.Over P) → (∀ id, P id → V id) → ∀ f ∈ fs, f.2.Rooted P V
  | _, [], _, _ => by simp
  | _, (_, t) :: fs, hfs, hV => by
      rw [List.forall_mem_cons] at hfs ⊢
      exact ⟨hfs.1.rooted hV, rooted_of_over_fields hfs.2 hV⟩

end

theorem Rooted.of_mentions (h : t.Rooted P V) {id : Int} (hid : t.Mentions id) :
    V id ∨ P id := by
  induction h with
  | var hv => exact .inl (mentions_var.1 hid ▸ hv)
  | prim name => exact absurd hid mentions_prim
  | lit value => exact absurd hid mentions_lit
  | fn _ _ ihp ihr => exact (mentions_fn.1 hid).elim ihp ihr
  | record _ hrow ih =>
      rcases mentions_record.1 hid with ⟨f, hf, hid⟩ | ⟨v, hv, rfl⟩
      · exact ih f hf hid
      · exact .inr (hrow v hv)
  | tuple _ ih =>
      obtain ⟨t, ht, hid⟩ := mentions_tuple.1 hid
      exact ih t ht hid
  | union _ ih =>
      obtain ⟨t, ht, hid⟩ := mentions_union.1 hid
      exact ih t ht hid
  | inter _ ih =>
      obtain ⟨t, ht, hid⟩ := mentions_inter.1 hid
      exact ih t ht hid
  | named _ ih =>
      obtain ⟨t, ht, hid⟩ := mentions_named.1 hid
      exact ih t ht hid
  | mu _ ih =>
      obtain ⟨hne, hid⟩ := mentions_mu.1 hid
      exact (ih hid).imp_left fun h => h.resolve_left (Ne.symm hne)

/-- Only the unknowns that are free matter. -/
theorem Rooted.restrict (h : t.Rooted P V) (hV' : ∀ id, t.Mentions id → V' id) :
    t.Rooted P V' := by
  induction h generalizing V' with
  | var _ => exact .var (hV' _ (mentions_var.2 rfl))
  | prim name => exact .prim name
  | lit value => exact .lit value
  | fn _ _ ihp ihr =>
      exact .fn (ihp fun id hid => hV' id (mentions_fn.2 (.inl hid)))
        (ihr fun id hid => hV' id (mentions_fn.2 (.inr hid)))
  | record _ hrow ih =>
      exact .record (fun f hf => ih f hf fun id hid =>
        hV' id (mentions_record.2 (.inl ⟨f, hf, hid⟩))) hrow
  | tuple _ ih =>
      exact .tuple fun t ht => ih t ht fun id hid => hV' id (mentions_tuple.2 ⟨t, ht, hid⟩)
  | union _ ih =>
      exact .union fun t ht => ih t ht fun id hid => hV' id (mentions_union.2 ⟨t, ht, hid⟩)
  | inter _ ih =>
      exact .inter fun t ht => ih t ht fun id hid => hV' id (mentions_inter.2 ⟨t, ht, hid⟩)
  | named _ ih =>
      exact .named fun t ht => ih t ht fun id hid => hV' id (mentions_named.2 ⟨t, ht, hid⟩)
  | @mu V v t _ ih =>
      refine .mu (ih fun id hid => ?_)
      by_cases heq : id = v.id
      · exact .inl heq
      · exact .inr (hV' id (mentions_mu.2 ⟨Ne.symm heq, hid⟩))

theorem Rooted.mono (h : t.Rooted P V) (hV : ∀ id, V id → V' id) (hP : ∀ id, P id → V' id) :
    t.Rooted P V' := h.restrict fun id hid => (h.of_mentions hid).elim (hV id) (hP id)

/-! ## Unfolding -/

/-- Sending rows to recursive types leaves them as they are. -/
theorem Rooted.apply {s : Subst} (h : t.Rooted P V)
    (hV : ∀ id, V id → s.get? id = none → V' id) (hP : ∀ id, P id → V' id)
    (hs : ∀ id u, s.get? id = some u → u.Rooted P V' ∧ (P id → ∃ w body, u = .mu w body)) :
    (s.apply t).Rooted P V' := by
  have hempty : ∀ {t : Ty} {V V' : Int → Prop} {s : Subst}, t.Rooted P V → s.isEmpty = true →
      (∀ id, V id → s.get? id = none → V' id) → (∀ id, P id → V' id) → t.Rooted P V' :=
    fun h hs hV hP => h.mono (fun id hid => hV id hid (Subst.get?_of_isEmpty hs id)) hP
  induction h generalizing s V' with
  | @var V v hv =>
      rw [Subst.apply_var]
      cases hget : s.get? v.id with
      | none => exact .var (hV _ hv hget)
      | some u => exact (hs _ u hget).1
  | prim name =>
      rw [Subst.apply_prim]
      exact .prim name
  | lit value =>
      rw [Subst.apply.eq_def]
      split <;> exact .lit value
  | fn _ _ ihp ihr =>
      rw [Subst.apply_fn]
      exact .fn (ihp hV hP hs) (ihr hV hP hs)
  | @record V fs row hfs hrow ih =>
      have hfields : ∀ f ∈ s.applyFields fs, f.2.Rooted P V' := by
        rw [Subst.applyFields_eq_map]
        exact List.forall_mem_map.2 fun f hf => ih f hf hV hP hs
      cases row with
      | none =>
          rw [Subst.apply_closed, ← Subst.applyFields_eq_map]
          exact .record hfields hrow
      | some row =>
          rw [Subst.apply_open, ← Subst.applyFields_eq_map]
          cases hget : s.get? row.id with
          | none => exact .record hfields hrow
          | some u =>
              -- A row that is bound to a recursive type stays: only a record is spliced in.
              obtain ⟨w, body, rfl⟩ := (hs _ u hget).2 (hrow row rfl)
              exact .record hfields hrow
  | tuple _ ih =>
      rw [Subst.apply_tuple]
      exact .tuple (List.forall_mem_map.2 fun t ht => ih t ht hV hP hs)
  | named _ ih =>
      rw [Subst.apply_named]
      exact .named (List.forall_mem_map.2 fun t ht => ih t ht hV hP hs)
  | union hts ih =>
      rw [Subst.apply]
      split
      · next hse => exact hempty (.union hts) hse hV hP
      · rw [Subst.applyAll_eq_map]
        exact of_unionOf (fun _ => rooted_union)
          (List.forall_mem_map.2 fun t ht => ih t ht hV hP hs)
  | inter hts ih =>
      rw [Subst.apply]
      split
      · next hse => exact hempty (.inter hts) hse hV hP
      · rw [Subst.applyAll_eq_map]
        exact of_interOf (fun _ => rooted_inter)
          (List.forall_mem_map.2 fun t ht => ih t ht hV hP hs)
  | @mu V v t ht ih =>
      rw [Subst.apply]
      split
      · next hse => exact hempty (.mu ht) hse hV hP
      -- Below the binder it is not replaced, and images come to stand below one more binder.
      · refine .mu (ih (fun id hid hget => ?_) (fun id hid => .inr (hP id hid)) fun id u hu => ?_)
        · by_cases heq : id = v.id
          · exact .inl heq
          · rw [Subst.get?_erase, if_neg heq] at hget
            exact .inr (hV id (hid.resolve_left heq) hget)
        · rw [Subst.get?_erase] at hu
          split at hu
          · cases hu
          · obtain ⟨hu, hrow⟩ := hs id u hu
            exact ⟨hu.mono (fun _ => .inr) fun id hid => .inr (hP id hid), hrow⟩

theorem Rooted.unfold (h : (Ty.mu v t).Rooted P V) (hP : ∀ id, P id → V id) :
    (Ty.unfold v t).Rooted P V := by
  have hget : ∀ id, (Subst.single v (.mu v t)).get? id =
      if id = v.id then some (.mu v t) else none := fun id => by
    rw [Subst.get?_single, Subst.held_of_ne]
    rintro w ⟨⟩
  have hbody : t.Rooted P fun id => id = v.id ∨ V id := by cases h; assumption
  refine hbody.apply (fun id hid hnone => ?_) hP fun id u hu => ?_
  · refine hid.resolve_left fun heq => ?_
    rw [hget, if_pos heq] at hnone
    cases hnone
  · rw [hget] at hu
    split at hu
    · cases hu
      exact ⟨h, fun _ => ⟨v, t, rfl⟩⟩
    · cases hu

/-- What refining comes to is made of what the type is made of. -/
theorem inherited_rooted : Inherited (Rooted P P) where
  fields h := (rooted_record.1 h).1
  elems h := rooted_tuple.1 h
  alternatives h := rooted_union.1 h
  unionOf _ h := of_unionOf (fun _ => rooted_union) h
  unfold h := h.unfold fun _ hid => hid

end Ty

/-! ## Normal forms -/

namespace Registry

/-- Definitions are made of numbers that satisfy a predicate, and remembered normal forms are
rooted in them. -/
structure Rooted (P : Int → Prop) (r : Registry) : Prop where
  definitions : ∀ entry ∈ r.definitions, entry.2.body.Over P
  memo : ∀ entry ∈ r.memo, entry.2.Rooted P P

/-- A step keeps the registry rooted, and its result satisfies a predicate. -/
def Keeping {α : Type} (P : Int → Prop) (Q : α → Prop) (m : StateM Session α) : Prop :=
  ∀ σ : Session, σ.registry.Rooted P → (m.run σ).2.registry.Rooted P ∧ Q (m.run σ).1

section

variable {α β : Type} {P : Int → Prop} {Q : α → Prop} {Q' : β → Prop}

theorem keeping_pure {a : α} (h : Q a) : Keeping P Q (pure a) := fun _ hσ => ⟨hσ, h⟩

theorem Keeping.bind {m : StateM Session α} {f : α → StateM Session β} (h : Keeping P Q m)
    (hf : ∀ a, Q a → Keeping P Q' (f a)) : Keeping P Q' (m >>= f) := by
  intro σ hσ
  obtain ⟨hτ, ha⟩ := h σ hσ
  exact hf _ ha _ hτ

theorem keeping_get {f : Session → StateM Session β}
    (h : ∀ σ : Session, σ.registry.Rooted P → Keeping P Q' (f σ)) : Keeping P Q' (get >>= f) :=
  fun σ hσ => h σ hσ σ hσ

end

variable {P V : Int → Prop} {onRef : String → List Ty → StateM Session (Option Ty)}

/-- What becomes of references is rooted. -/
def KeepingRefs (P V : Int → Prop) (onRef : String → List Ty → StateM Session (Option Ty)) : Prop :=
  ∀ (name : String) (args : List Ty), (∀ t ∈ args, t.Over P) →
    Keeping P (fun o => ∀ t, o = some t → t.Rooted P V) (onRef name args)

mutual

theorem keeping_normalizeWith (hrefs : KeepingRefs P V onRef) (hV : ∀ id, P id → V id) :
    ∀ {t : Ty}, t.Over P → Keeping P (Ty.Rooted P V) (normalizeWith onRef t)
  | .var _, ht | .prim _, ht | .lit _, ht => by
      rw [normalizeWith]
      exact keeping_pure (ht.rooted hV)
  | .fn p r, ht => by
      obtain ⟨hp, hr⟩ := Ty.over_fn.1 ht
      rw [normalizeWith]
      refine (keeping_normalizeWith hrefs hV hp).bind fun p' hp' => ?_
      exact (keeping_normalizeWith hrefs hV hr).bind fun r' hr' => keeping_pure (.fn hp' hr')
  | .record fs row, ht => by
      obtain ⟨hfs, hrow⟩ := Ty.over_record.1 ht
      rw [normalizeWith]
      exact (keeping_normalizeFields hrefs hV hfs).bind fun fs' hfs' =>
        keeping_pure (.record hfs' hrow)
  | .tuple ts, ht => by
      rw [normalizeWith]
      exact (keeping_normalizeAll hrefs hV (Ty.over_tuple.1 ht)).bind fun _ hts =>
        keeping_pure (.tuple hts)
  | .union ts, ht => by
      rw [normalizeWith]
      exact (keeping_normalizeAll hrefs hV (Ty.over_union.1 ht)).bind fun _ hts =>
        keeping_pure (Ty.of_unionOf (fun _ => Ty.rooted_union) hts)
  | .inter ts, ht => by
      rw [normalizeWith]
      exact (keeping_normalizeAll hrefs hV (Ty.over_inter.1 ht)).bind fun _ hts =>
        keeping_pure (Ty.of_interOf (fun _ => Ty.rooted_inter) hts)
  | .named name args, ht => by
      have hargs := Ty.over_named.1 ht
      rw [normalizeWith]
      refine (hrefs name args hargs).bind fun o ho => ?_
      cases o with
      | some t => exact keeping_pure (ho t rfl)
      | none =>
          exact (keeping_normalizeAll hrefs hV hargs).bind fun _ hts => keeping_pure (.named hts)
  | .mu v t, ht => by
      rw [normalizeWith]
      refine (keeping_normalizeWith hrefs hV (Ty.over_mu.1 ht).2).bind fun t' ht' => ?_
      exact keeping_pure (.mu (ht'.mono (fun _ => .inr) fun id hid => .inr (hV id hid)))

theorem keeping_normalizeAll (hrefs : KeepingRefs P V onRef) (hV : ∀ id, P id → V id) :
    ∀ {ts : List Ty}, (∀ t ∈ ts, t.Over P) →
      Keeping P (fun ts => ∀ t ∈ ts, Ty.Rooted P V t) (normalizeAll onRef ts)
  | [], _ => by
      rw [normalizeAll]
      exact keeping_pure (by simp)
  | t :: ts, hts => by
      rw [List.forall_mem_cons] at hts
      rw [normalizeAll]
      refine (keeping_normalizeWith hrefs hV hts.1).bind fun t' ht' => ?_
      refine (keeping_normalizeAll hrefs hV hts.2).bind fun ts' hts' => ?_
      exact keeping_pure (List.forall_mem_cons.2 ⟨ht', hts'⟩)

theorem keeping_normalizeFields (hrefs : KeepingRefs P V onRef) (hV : ∀ id, P id → V id) :
    ∀ {fs : List (String × Ty)}, (∀ f ∈ fs, f.2.Over P) →
      Keeping P (fun fs => ∀ f ∈ fs, Ty.Rooted P V f.2) (normalizeFields onRef fs)
  | [], _ => by
      rw [normalizeFields]
      exact keeping_pure (by simp)
  | (name, t) :: fs, hfs => by
      rw [List.forall_mem_cons] at hfs
      rw [normalizeFields]
      refine (keeping_normalizeWith hrefs hV hfs.1).bind fun t' ht' => ?_
      refine (keeping_normalizeFields hrefs hV hfs.2).bind fun fs' hfs' => ?_
      exact keeping_pure (List.forall_mem_cons.2 ⟨ht', hfs'⟩)

end

/-- The numbers that may be free while expansions are going on: their binders too. -/
def Open (P : Int → Prop) (expanding : Expanding) (id : Int) : Prop :=
  P id ∨ ∃ entry ∈ expanding, entry.2.id = id

theorem not_mentions_of_mentionsBinder {expanding : Expanding} {t : Ty}
    (h : mentionsBinder expanding t = false) {entry : Digest × TyVar} (hentry : entry ∈ expanding) :
    ¬ t.Mentions entry.2.id := by
  intro hid
  obtain ⟨v, hv, hvid⟩ := Ty.exists_mem_free hid
  have hbinder : (entry.2.id == v.id) = true := beq_iff_eq.2 hvid.symm
  have hany : mentionsBinder expanding t = true :=
    List.any_eq_true.2 ⟨v, hv, List.any_eq_true.2 ⟨entry, hentry, hbinder⟩⟩
  rw [h] at hany
  cases hany

theorem keeping_remember (key : Digest) {t : Ty} (ht : t.Rooted P P) :
    Keeping P (fun _ => True) (remember key t) := by
  refine fun σ hσ => ⟨⟨hσ.definitions, fun entry hentry => ?_⟩, trivial⟩
  rcases Table.mem_insert hentry with rfl | hentry
  · exact ht
  · exact hσ.memo entry hentry

theorem keeping_closeExpansion (expanding : Expanding) (key : Digest) {binder : TyVar} {body : Ty}
    (hbody : body.Rooted P (Open P ((key, binder) :: expanding))) :
    Keeping P (Ty.Rooted P (Open P expanding)) (closeExpansion expanding key binder body) := by
  have hopen : ∀ id, Open P ((key, binder) :: expanding) id →
      id = binder.id ∨ Open P expanding id := by
    rintro id (hid | ⟨entry, hentry, rfl⟩)
    · exact .inr (.inl hid)
    · rcases List.mem_cons.1 hentry with rfl | hentry
      · exact .inl rfl
      · exact .inr (.inr ⟨entry, hentry, rfl⟩)
  have hresult : (if body.occurs binder then Ty.mu binder body else body).Rooted P
      (Open P expanding) := by
    split
    · exact .mu (hbody.mono hopen fun id hid => .inr (.inl hid))
    · next hocc =>
        refine hbody.restrict fun id hid => ?_
        have hne : id ≠ binder.id := by
          rintro rfl
          exact hocc (Ty.occurs_iff_mentions.2 hid)
        exact ((hbody.of_mentions hid).imp_left (hopen id)).elim (·.resolve_left hne) .inl
  unfold closeExpansion
  dsimp only
  generalize (if body.occurs binder then Ty.mu binder body else body) = result at hresult ⊢
  split
  · next hnone =>
      -- Only a form without binders of pending expansions is remembered, so no memo has any.
      have hremembered : result.Rooted P P := by
        refine hresult.restrict fun id hid => ?_
        rcases hresult.of_mentions hid with (h | ⟨entry, hentry, rfl⟩) | h
        · exact h
        · exact absurd hid (not_mentions_of_mentionsBinder (by simpa using hnone) hentry)
        · exact h
      exact (keeping_remember key hremembered).bind fun _ _ => keeping_pure hresult
  · exact keeping_pure hresult

theorem keeping_normalizeRefStep
    {below : Option (Expanding → String → List Ty → StateM Session (Option Ty))}
    (hbelow : ∀ b, below = some b → ∀ expanding, KeepingRefs P (Open P expanding) (b expanding))
    (expanding : Expanding) :
    KeepingRefs P (Open P expanding) (normalizeRefStep below expanding) := by
  intro name args hargs
  have hkept : ∀ t, some (Ty.named name args) = some t → t.Rooted P (Open P expanding) := by
    rintro t ⟨⟩
    exact (Ty.over_named.2 hargs).rooted fun _ => .inl
  unfold normalizeRefStep
  dsimp only
  split
  · next binder hbinder =>
      refine keeping_pure ?_
      rintro t ⟨⟩
      obtain ⟨before, later, rfl, -⟩ := List.lookup_eq_some_iff.1 hbinder
      -- The reference is being expanded further up, and its binder stands for it.
      exact .var (.inr ⟨_, List.mem_append_cons_self, rfl⟩)
  · refine keeping_get fun σ hσ => ?_
    split
    · next t ht =>
        refine keeping_pure ?_
        rintro u ⟨⟩
        exact (hσ.memo _ (Table.mem_of_get? ht)).mono (fun _ => .inl) fun _ => .inl
    · split
      · exact keeping_pure (by rintro t ⟨⟩)
      · exact keeping_pure hkept
      · next definition b hdefinition =>
          split
          · exact keeping_pure hkept
          · next expanded hexpanded =>
              have hover := Definition.over_expand?
                (hσ.definitions _ (Table.mem_of_get? hdefinition)) hargs hexpanded
              have hfresh : Keeping P (fun _ => True) (freshVar 0) := fun _ hτ => ⟨hτ, trivial⟩
              refine hfresh.bind fun binder _ => ?_
              refine (keeping_normalizeWith (hbelow b rfl _) (fun _ => .inl) hover).bind
                fun body hbody => ?_
              rw [← bind_pure_comp]
              refine (keeping_closeExpansion expanding _ hbody).bind fun t ht => keeping_pure ?_
              rintro u ⟨⟩
              exact ht

theorem keeping_normalizeRef : ∀ (allowed : Nat) (expanding : Expanding),
    KeepingRefs P (Open P expanding) (normalizeRef allowed expanding)
  | 0, expanding => by
      rw [normalizeRef]
      exact keeping_normalizeRefStep (by rintro b ⟨⟩) expanding
  | allowed + 1, expanding => by
      rw [normalizeRef]
      refine keeping_normalizeRefStep ?_ expanding
      rintro b ⟨⟩
      exact keeping_normalizeRef allowed

/-- Normalising roots what it makes, and what it remembers, in the numbers of the types that there
were at its start. -/
theorem keeping_normalize {t : Ty} (ht : t.Over P) : Keeping P (Ty.Rooted P P) (normalize t) := by
  intro σ hσ
  obtain ⟨hkept, hrooted⟩ := keeping_normalizeWith (keeping_normalizeRef expansionLimit [])
    (fun _ => .inl) ht σ hσ
  exact ⟨hkept, hrooted.mono
    (by rintro id (hid | ⟨entry, hentry, -⟩); exacts [hid, nomatch hentry]) fun _ hid => hid⟩

theorem Over.rooted {r : Registry} (h : r.Over P) : r.Rooted P :=
  ⟨h.definitions, fun entry hentry => (h.memo entry hentry).rooted fun _ hid => hid⟩

/-- The free unknowns and the rows of a normal form are those of the type and of named types. -/
theorem rooted_normalize {t : Ty} {σ : Session} (ht : t.Over P) (hσ : σ.registry.Over P) :
    ((normalize t).run σ).1.Rooted P P := (keeping_normalize ht σ hσ.rooted).2

end Registry

end RowTypes
