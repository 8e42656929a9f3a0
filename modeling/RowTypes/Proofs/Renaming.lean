import RowTypes.Proofs.Substitutions
import RowTypes.Ty.Equiv

/-!
# Equivalence below binders

Equivalence walks into two types and keeps, for the binders around the place, which one of the
right type stands for which one of the left.  It only looks from the left: a bound unknown of the
left type must meet the number of the binder that stands for its own, and nothing is asked about
what that number means on the right.  There it may be that of another binder further in, or the
left type may have a free unknown of that number.  So `μa.(a → b)` is equivalent to `μb.(b → b)`,
and `μa.μb.(a → b)` to `μc.μc.(c → c)`, and neither the other way round.

Where no binder of the right type has the number of a binder around it or of a free unknown of the
left type, the renaming can be read backwards, and composed with a renaming to a third type.
-/

namespace RowTypes

namespace Ty

-- The equations of these definitions are worked out here, before many proofs ask for them at once.
attribute [grind =] equivUnder equivAll equivFields allAmong someLike

variable {R S T : Ty → Ty → Prop} {as bs cs : List Ty} {m : Renaming}

/-! ## What the list forms of equivalence say -/

theorem equivAll_iff : ∀ {as bs : List Ty},
    equivAll m as bs = true ↔ List.Forall₂ (fun a b => equivUnder m a b = true) as bs
  | [], [] => by simp [equivAll]
  | [], b :: bs => by simp [equivAll]
  | a :: as, [] => by simp [equivAll]
  | a :: as, b :: bs => by
      rw [equivAll, Bool.and_eq_true, List.forall₂_cons, equivAll_iff]

theorem equivFields_iff {fs gs : List (String × Ty)} :
    equivFields m fs gs = true ↔
      ∀ f ∈ fs, ∃ b, Table.get? f.1 gs = some b ∧ equivUnder m f.2 b = true := by
  induction fs with
  | nil => simp [equivFields]
  | cons f fs ih =>
      obtain ⟨name, a⟩ := f
      rw [equivFields, Bool.and_eq_true, ih, List.forall_mem_cons]
      refine and_congr_left fun _ => ?_
      cases Table.get? name gs <;> simp

theorem allAmong_iff : allAmong m as bs = true ↔ ∀ a ∈ as, ∃ b ∈ bs, equivUnder m a b = true := by
  induction as with
  | nil => simp [allAmong]
  | cons a as ih => rw [allAmong, Bool.and_eq_true, ih, List.forall_mem_cons, List.any_eq_true]

theorem someLike_iff {b : Ty} :
    someLike m as b = true ↔ ∃ a ∈ as, equivUnder m a b = true := by
  induction as with
  | nil => simp [someLike]
  | cons a as ih => rw [someLike, Bool.or_eq_true, ih, List.exists_mem_cons_iff]

theorem rel_map {R R' : Ty → Ty → Prop} {x y : Option Ty} {f g : Ty → Ty} (h : Option.Rel R x y)
    (hR : ∀ a b, x = some a → y = some b → R a b → R' (f a) (g b)) :
    Option.Rel R' (x.map f) (y.map g) := by
  cases h with
  | none => exact .none
  | some hab => exact .some (hR _ _ rfl rfl hab)

theorem rel_imp {R R' : Ty → Ty → Prop} {x y : Option Ty} (h : Option.Rel R x y)
    (hR : ∀ a b, x = some a → y = some b → R a b → R' a b) : Option.Rel R' x y := by
  cases h with
  | none => exact .none
  | some hab => exact .some (hR _ _ rfl rfl hab)

theorem map_eq_map_of_rel {α : Type*} {f g : Ty → α} {x y : Option Ty} (h : Option.Rel R x y)
    (hR : ∀ a b, x = some a → y = some b → R a b → f a = g b) : x.map f = y.map g := by
  cases h with
  | none => rfl
  | some hab => exact congrArg some (hR _ _ rfl rfl hab)

theorem forall₂_imp {R R' : Ty → Ty → Prop} {as bs : List Ty} (h : List.Forall₂ R as bs)
    (hR : ∀ a ∈ as, ∀ b ∈ bs, R a b → R' a b) : List.Forall₂ R' as bs := by
  rw [List.forall₂_iff_zip] at h ⊢
  refine ⟨h.1, fun hmem => ?_⟩
  exact hR _ (List.of_mem_zip hmem).1 _ (List.of_mem_zip hmem).2 (h.2 hmem)

theorem map_eq_map_of_forall₂ {α : Type*} {f g : Ty → α} {as bs : List Ty}
    (h : List.Forall₂ R as bs) (hR : ∀ a ∈ as, ∀ b ∈ bs, R a b → f a = g b) :
    as.map f = bs.map g := by
  rw [← List.forall₂_eq_eq_eq, List.forall₂_map_left_iff, List.forall₂_map_right_iff]
  exact forall₂_imp h hR

/-- Two collections of one size, where each member has a related one on the other side. -/
def Matched (R : Ty → Ty → Prop) (as bs : List Ty) : Prop :=
  as.length = bs.length ∧ (∀ a ∈ as, ∃ b ∈ bs, R a b) ∧ ∀ b ∈ bs, ∃ a ∈ as, R a b

theorem matched_self {R : Ty → Ty → Prop} (h : ∀ a ∈ as, R a a) : Matched R as as :=
  ⟨rfl, fun a ha => ⟨a, ha, h a ha⟩, fun a ha => ⟨a, ha, h a ha⟩⟩

/-! ## What equivalence says about each constructor -/

theorem equivUnder_fn {p r p' r' : Ty} :
    equivUnder m (.fn p r) (.fn p' r') = true ↔
      equivUnder m p p' = true ∧ equivUnder m r r' = true := by
  rw [equivUnder, Bool.and_eq_true]

theorem equivUnder_tuple :
    equivUnder m (.tuple as) (.tuple bs) = true ↔
      List.Forall₂ (fun a b => equivUnder m a b = true) as bs := by
  rw [equivUnder, equivAll_iff]

theorem equivUnder_named {name name' : String} :
    equivUnder m (.named name as) (.named name' bs) = true ↔
      name = name' ∧ List.Forall₂ (fun a b => equivUnder m a b = true) as bs := by
  rw [equivUnder, Bool.and_eq_true, equivAll_iff, beq_iff_eq]

theorem equivUnder_union :
    equivUnder m (.union as) (.union bs) = true ↔
      Matched (fun a b => equivUnder m a b = true) as bs := by
  simp only [equivUnder, Bool.and_eq_true, beq_iff_eq, allAmong_iff, List.all_eq_true,
    someLike_iff, Matched, and_assoc]

theorem equivUnder_inter :
    equivUnder m (.inter as) (.inter bs) = true ↔
      Matched (fun a b => equivUnder m a b = true) as bs := by
  simp only [equivUnder, Bool.and_eq_true, beq_iff_eq, allAmong_iff, List.all_eq_true,
    someLike_iff, Matched, and_assoc]

/-- Records are equivalent if they have the same row, and for each name both have equivalent
fields or none has one. -/
theorem equivUnder_record {fs gs : List (String × Ty)} {r r' : Option TyVar}
    (hfs : Table.Ascending fs) (hgs : Table.Ascending gs) :
    equivUnder m (.record fs r) (.record gs r') = true ↔
      sameRow m r r' = true ∧ ∀ name, Option.Rel (fun a b => equivUnder m a b = true)
        (Table.get? name fs) (Table.get? name gs) := by
  simp only [equivUnder, Bool.and_eq_true, beq_iff_eq, equivFields_iff]
  constructor
  · rintro ⟨⟨hlen, hrow⟩, hall⟩
    refine ⟨hrow, fun name => ?_⟩
    cases hf : Table.get? name fs with
    | some a =>
        obtain ⟨b, hb, hab⟩ := hall _ (Table.mem_of_get? hf)
        rw [hb]
        exact .some hab
    | none =>
        cases hg : Table.get? name gs with
        | none => exact .none
        | some b =>
            have hkeys : ∀ k ∈ Table.keys fs, k ∈ Table.keys gs := by
              intro k hk
              obtain ⟨f, hf, rfl⟩ := List.mem_map.1 hk
              obtain ⟨b, hb, -⟩ := hall f hf
              exact Table.get?_isSome.1 (by rw [hb]; rfl)
            have hname : name ∈ Table.keys gs := Table.get?_isSome.1 (by rw [hg]; rfl)
            have := Table.get?_isSome.2 (Table.keys_eq_of_subset hfs hlen hkeys name hname)
            rw [hf] at this
            cases this
  · rintro ⟨hrow, hall⟩
    refine ⟨⟨?_, hrow⟩, fun f hf => ?_⟩
    · have hkeys : (Table.keys fs).Perm (Table.keys gs) := by
        refine (List.perm_ext_iff_of_nodup hfs.nodup_keys hgs.nodup_keys).2 fun k => ?_
        rw [← Table.get?_isSome, ← Table.get?_isSome]
        have h := hall k
        generalize Table.get? k fs = x, Table.get? k gs = y at h
        cases h <;> simp
      simpa [Table.keys] using hkeys.length_eq
    · have h := hall f.1
      rw [Table.get?_of_mem hfs hf] at h
      generalize Table.get? f.1 gs = y at h
      cases h with
      | some hab => exact ⟨_, rfl, hab⟩

/-! ## What is equivalent to a type with a given constructor -/

theorem exists_var_of_equivUnder {v : TyVar} {u : Ty} (h : equivUnder m (.var v) u = true) :
    ∃ w, u = .var w ∧ v.sameUnder m w = true := by
  cases u with
  | var w => exact ⟨w, rfl, by rwa [equivUnder] at h⟩
  | _ => simp [equivUnder] at h

theorem eq_prim_of_equivUnder {name : String} {u : Ty} (h : equivUnder m (.prim name) u = true) :
    u = .prim name := by
  cases u with
  | prim name' => rw [equivUnder, beq_iff_eq] at h; rw [h]
  | _ => simp [equivUnder] at h

theorem eq_lit_of_equivUnder {value : String} {u : Ty} (h : equivUnder m (.lit value) u = true) :
    u = .lit value := by
  cases u with
  | lit value' => rw [equivUnder, beq_iff_eq] at h; rw [h]
  | _ => simp [equivUnder] at h

theorem exists_fn_of_equivUnder {p r u : Ty} (h : equivUnder m (.fn p r) u = true) :
    ∃ p' r', u = .fn p' r' ∧ equivUnder m p p' = true ∧ equivUnder m r r' = true := by
  cases u with
  | fn p' r' => exact ⟨p', r', rfl, equivUnder_fn.1 h⟩
  | _ => simp [equivUnder] at h

theorem exists_record_of_equivUnder {fs : List (String × Ty)} {row : Option TyVar} {u : Ty}
    (h : equivUnder m (.record fs row) u = true) : ∃ gs row', u = .record gs row' := by
  cases u with
  | record gs row' => exact ⟨gs, row', rfl⟩
  | _ => simp [equivUnder] at h

theorem exists_tuple_of_equivUnder {u : Ty} (h : equivUnder m (.tuple as) u = true) :
    ∃ bs, u = .tuple bs ∧ List.Forall₂ (fun a b => equivUnder m a b = true) as bs := by
  cases u with
  | tuple bs => exact ⟨bs, rfl, equivUnder_tuple.1 h⟩
  | _ => simp [equivUnder] at h

theorem exists_union_of_equivUnder {u : Ty} (h : equivUnder m (.union as) u = true) :
    ∃ bs, u = .union bs ∧ Matched (fun a b => equivUnder m a b = true) as bs := by
  cases u with
  | union bs => exact ⟨bs, rfl, equivUnder_union.1 h⟩
  | _ => simp [equivUnder] at h

theorem exists_inter_of_equivUnder {u : Ty} (h : equivUnder m (.inter as) u = true) :
    ∃ bs, u = .inter bs ∧ Matched (fun a b => equivUnder m a b = true) as bs := by
  cases u with
  | inter bs => exact ⟨bs, rfl, equivUnder_inter.1 h⟩
  | _ => simp [equivUnder] at h

theorem exists_named_of_equivUnder {name : String} {u : Ty}
    (h : equivUnder m (.named name as) u = true) :
    ∃ bs, u = .named name bs ∧ List.Forall₂ (fun a b => equivUnder m a b = true) as bs := by
  cases u with
  | named name' bs =>
      obtain ⟨rfl, hargs⟩ := equivUnder_named.1 h
      exact ⟨bs, rfl, hargs⟩
  | _ => simp [equivUnder] at h

theorem exists_mu_of_equivUnder {v : TyVar} {t u : Ty} (h : equivUnder m (.mu v t) u = true) :
    ∃ w t', u = .mu w t' ∧ equivUnder ((v.id, w.id) :: m) t t' = true := by
  cases u with
  | mu w t' => exact ⟨w, t', rfl, by rwa [equivUnder] at h⟩
  | _ => simp [equivUnder] at h

/-! ## Types with their fields in order -/

/-- The fields of every record in the type are in order of their names. -/
inductive Sorted : Ty → Prop where
  | var (v : TyVar) : Sorted (.var v)
  | prim (name : String) : Sorted (.prim name)
  | lit (value : String) : Sorted (.lit value)
  | fn {p r : Ty} : Sorted p → Sorted r → Sorted (.fn p r)
  | record {fs : List (String × Ty)} (row : Option TyVar) :
      Table.Ascending fs → (∀ f ∈ fs, Sorted f.2) → Sorted (.record fs row)
  | tuple {ts : List Ty} : (∀ t ∈ ts, Sorted t) → Sorted (.tuple ts)
  | union {ts : List Ty} : (∀ t ∈ ts, Sorted t) → Sorted (.union ts)
  | inter {ts : List Ty} : (∀ t ∈ ts, Sorted t) → Sorted (.inter ts)
  | named (name : String) {ts : List Ty} : (∀ t ∈ ts, Sorted t) → Sorted (.named name ts)
  | mu (v : TyVar) {t : Ty} : Sorted t → Sorted (.mu v t)

theorem sorted_record {fs : List (String × Ty)} {row : Option TyVar} :
    (Ty.record fs row).Sorted ↔ Table.Ascending fs ∧ ∀ f ∈ fs, f.2.Sorted :=
  ⟨by rintro ⟨⟩; constructor <;> assumption, fun h => .record row h.1 h.2⟩

/-- A type is equivalent to itself, also below binders. -/
theorem Sorted.equivUnder_self {t : Ty} (h : t.Sorted) : ∀ {m : Renaming},
    (∀ id id', m.lookup id = some id' → id' = id) → equivUnder m t t = true := by
  have hvar : ∀ {m : Renaming} (v : TyVar), (∀ id id', m.lookup id = some id' → id' = id) →
      v.sameUnder m v = true := by
    intro m v hm
    unfold TyVar.sameUnder
    split
    · next id hid => simp [hm _ _ hid]
    · simp
  induction h with
  | var v => exact fun hm => by rw [equivUnder]; exact hvar v hm
  | prim name => exact fun _ => by simp [equivUnder]
  | lit value => exact fun _ => by simp [equivUnder]
  | fn _ _ ihp ihr => exact fun hm => equivUnder_fn.2 ⟨ihp hm, ihr hm⟩
  | record row hasc _ ih =>
      intro m hm
      have hrow : sameRow m row row = true := by
        cases row with
        | none => rfl
        | some v => exact hvar v hm
      refine (equivUnder_record hasc hasc).2 ⟨hrow, fun name => ?_⟩
      cases hf : Table.get? name _ with
      | none => exact .none
      | some t => exact .some (ih _ (Table.mem_of_get? hf) hm)
  | tuple _ ih =>
      exact fun hm => equivUnder_tuple.2 (List.forall₂_same.2 fun t ht => ih t ht hm)
  | union _ ih => exact fun hm => equivUnder_union.2 (matched_self fun t ht => ih t ht hm)
  | inter _ ih => exact fun hm => equivUnder_inter.2 (matched_self fun t ht => ih t ht hm)
  | named name _ ih =>
      exact fun hm => equivUnder_named.2 ⟨rfl, List.forall₂_same.2 fun t ht => ih t ht hm⟩
  | mu v _ ih =>
      intro m hm
      rw [equivUnder]
      refine ih fun id id' h => ?_
      rw [List.lookup_cons] at h
      split at h
      · next heq => cases h; exact (beq_iff_eq.1 heq).symm
      · exact hm _ _ h

theorem Sorted.equiv_self {t : Ty} (h : t.Sorted) : t.equiv t = true :=
  h.equivUnder_self nofun

/-! ## Turning relations around and composing them

Members are related to members, so it is enough to turn around what relates members. -/

theorem rel_flip {x y : Option Ty} (h : Option.Rel R x y)
    (hRS : ∀ a b, x = some a → y = some b → R a b → S b a) : Option.Rel S y x := by
  cases h with
  | none => exact .none
  | some hab => exact .some (hRS _ _ rfl rfl hab)

theorem rel_comp {x y z : Option Ty} (h : Option.Rel R x y) (h' : Option.Rel S y z)
    (hT : ∀ a b c, x = some a → y = some b → z = some c → R a b → S b c → T a c) :
    Option.Rel T x z := by
  cases h with
  | none => cases h'; exact .none
  | some hab =>
      cases h' with
      | some hbc => exact .some (hT _ _ _ rfl rfl rfl hab hbc)

theorem forall₂_flip (h : List.Forall₂ R as bs) (hRS : ∀ a ∈ as, ∀ b ∈ bs, R a b → S b a) :
    List.Forall₂ S bs as := by
  induction h with
  | nil => exact .nil
  | cons hab _ ih =>
      refine .cons (hRS _ List.mem_cons_self _ List.mem_cons_self hab) (ih fun a ha b hb => ?_)
      exact hRS a (List.mem_cons_of_mem _ ha) b (List.mem_cons_of_mem _ hb)

theorem forall₂_comp (h : List.Forall₂ R as bs) (h' : List.Forall₂ S bs cs)
    (hT : ∀ a ∈ as, ∀ b ∈ bs, ∀ c ∈ cs, R a b → S b c → T a c) : List.Forall₂ T as cs := by
  induction h generalizing cs with
  | nil => cases h'; exact .nil
  | cons hab _ ih =>
      cases h' with
      | cons hbc htail =>
          refine .cons (hT _ List.mem_cons_self _ List.mem_cons_self _ List.mem_cons_self hab hbc)
            (ih htail fun a ha b hb c hc => ?_)
          exact hT a (List.mem_cons_of_mem _ ha) b (List.mem_cons_of_mem _ hb) c
            (List.mem_cons_of_mem _ hc)

theorem Matched.mono (h : Matched R as bs) (hRS : ∀ a ∈ as, ∀ b ∈ bs, R a b → S a b) :
    Matched S as bs :=
  ⟨h.1, fun a ha => (h.2.1 a ha).imp fun b hb => ⟨hb.1, hRS a ha b hb.1 hb.2⟩,
    fun b hb => (h.2.2 b hb).imp fun a ha => ⟨ha.1, hRS a ha.1 b hb ha.2⟩⟩

theorem Matched.map {f g : Ty → Ty} (h : Matched (fun a b => R (f a) (g b)) as bs) :
    Matched R (as.map f) (bs.map g) := by
  obtain ⟨hlen, hab, hba⟩ := h
  refine ⟨by rw [List.length_map, List.length_map, hlen], List.forall_mem_map.2 fun a ha => ?_,
    List.forall_mem_map.2 fun b hb => ?_⟩
  · obtain ⟨b, hb, h⟩ := hab a ha
    exact ⟨g b, List.mem_map_of_mem hb, h⟩
  · obtain ⟨a, ha, h⟩ := hba b hb
    exact ⟨f a, List.mem_map_of_mem ha, h⟩

/-- What members hand on to the members that they match is found on both sides or on none. -/
theorem Matched.exists_iff {p q : Ty → Prop} (h : Matched (fun a b => p a ↔ q b) as bs) :
    (∃ a ∈ as, p a) ↔ ∃ b ∈ bs, q b := by
  constructor
  · rintro ⟨a, ha, hp⟩
    obtain ⟨b, hb, hpq⟩ := h.2.1 a ha
    exact ⟨b, hb, hpq.1 hp⟩
  · rintro ⟨b, hb, hq⟩
    obtain ⟨a, ha, hpq⟩ := h.2.2 b hb
    exact ⟨a, ha, hpq.2 hq⟩

theorem Matched.flip (h : Matched R as bs) (hRS : ∀ a ∈ as, ∀ b ∈ bs, R a b → S b a) :
    Matched S bs as := by
  obtain ⟨hlen, hab, hba⟩ := h
  refine ⟨hlen.symm, fun b hb => ?_, fun a ha => ?_⟩
  · obtain ⟨a, ha, h⟩ := hba b hb
    exact ⟨a, ha, hRS a ha b hb h⟩
  · obtain ⟨b, hb, h⟩ := hab a ha
    exact ⟨b, hb, hRS a ha b hb h⟩

theorem Matched.comp (h : Matched R as bs) (h' : Matched S bs cs)
    (hT : ∀ a ∈ as, ∀ b ∈ bs, ∀ c ∈ cs, R a b → S b c → T a c) : Matched T as cs := by
  obtain ⟨hlen, hab, hba⟩ := h
  obtain ⟨hlen', hbc, hcb⟩ := h'
  refine ⟨hlen.trans hlen', fun a ha => ?_, fun c hc => ?_⟩
  · obtain ⟨b, hb, h⟩ := hab a ha
    obtain ⟨c, hc, h'⟩ := hbc b hb
    exact ⟨c, hc, hT a ha b hb c hc h h'⟩
  · obtain ⟨b, hb, h'⟩ := hcb c hc
    obtain ⟨a, ha, h⟩ := hba b hb
    exact ⟨a, ha, hT a ha b hb c hc h h'⟩

/-! ## Renamings that agree -/

variable {m' : Renaming}

theorem sameRow_of_lookup {row row' : Option TyVar}
    (hm : ∀ v, row = some v → m.lookup v.id = m'.lookup v.id) (h : sameRow m row row' = true) :
    sameRow m' row row' = true := by
  cases row with
  | none =>
      cases row' with
      | none => rfl
      | some w => cases h
  | some v =>
      cases row' with
      | none => cases h
      | some w =>
          rw [sameRow, TyVar.sameUnder, ← hm v rfl]
          exact h

/-- Equivalence looks up the free unknowns of the left type, and no others. -/
theorem Sorted.equivUnder_of_lookup {t : Ty} (h : t.Sorted) : ∀ {m m' : Renaming} {u : Ty},
    (∀ id, t.Mentions id → m.lookup id = m'.lookup id) → equivUnder m t u = true →
    equivUnder m' t u = true := by
  induction h with
  | var v =>
      intro m m' u hm heq
      obtain ⟨w, rfl, hsame⟩ := exists_var_of_equivUnder heq
      rw [equivUnder, TyVar.sameUnder, ← hm _ (mentions_var.2 rfl)]
      exact hsame
  | prim name =>
      intro m m' u _ heq
      rw [eq_prim_of_equivUnder heq, equivUnder, beq_self_eq_true]
  | lit value =>
      intro m m' u _ heq
      rw [eq_lit_of_equivUnder heq, equivUnder, beq_self_eq_true]
  | fn _ _ ihp ihr =>
      intro m m' u hm heq
      obtain ⟨p', r', rfl, hp, hr⟩ := exists_fn_of_equivUnder heq
      exact equivUnder_fn.2 ⟨ihp (fun id hid => hm id (mentions_fn.2 (.inl hid))) hp,
        ihr (fun id hid => hm id (mentions_fn.2 (.inr hid))) hr⟩
  | record row _ _ ih =>
      intro m m' u hm heq
      obtain ⟨gs, row', rfl⟩ := exists_record_of_equivUnder heq
      simp only [equivUnder, Bool.and_eq_true, equivFields_iff] at heq ⊢
      obtain ⟨⟨hlen, hrow⟩, hall⟩ := heq
      refine ⟨⟨hlen, sameRow_of_lookup (fun v hv => ?_) hrow⟩, fun f hf => ?_⟩
      · exact hm _ (mentions_record.2 (.inr ⟨v, hv, rfl⟩))
      · obtain ⟨b, hb, hfb⟩ := hall f hf
        exact ⟨b, hb, ih f hf (fun id hid => hm id (mentions_record.2 (.inl ⟨f, hf, hid⟩))) hfb⟩
  | tuple _ ih =>
      intro m m' u hm heq
      obtain ⟨us, rfl, helems⟩ := exists_tuple_of_equivUnder heq
      exact equivUnder_tuple.2 (forall₂_imp helems fun t ht u _ h =>
        ih t ht (fun id hid => hm id (mentions_tuple.2 ⟨t, ht, hid⟩)) h)
  | union _ ih =>
      intro m m' u hm heq
      obtain ⟨us, rfl, hmatch⟩ := exists_union_of_equivUnder heq
      exact equivUnder_union.2 (hmatch.mono fun t ht u _ h =>
        ih t ht (fun id hid => hm id (mentions_union.2 ⟨t, ht, hid⟩)) h)
  | inter _ ih =>
      intro m m' u hm heq
      obtain ⟨us, rfl, hmatch⟩ := exists_inter_of_equivUnder heq
      exact equivUnder_inter.2 (hmatch.mono fun t ht u _ h =>
        ih t ht (fun id hid => hm id (mentions_inter.2 ⟨t, ht, hid⟩)) h)
  | named name _ ih =>
      intro m m' u hm heq
      obtain ⟨us, rfl, hargs⟩ := exists_named_of_equivUnder heq
      exact equivUnder_named.2 ⟨rfl, forall₂_imp hargs fun t ht u _ h =>
        ih t ht (fun id hid => hm id (mentions_named.2 ⟨t, ht, hid⟩)) h⟩
  | mu v _ ih =>
      intro m m' u hm heq
      obtain ⟨w, u, rfl, hbody⟩ := exists_mu_of_equivUnder heq
      rw [equivUnder]
      refine ih (fun id hid => ?_) hbody
      rw [List.lookup_cons, List.lookup_cons]
      -- The binder is looked up in the same entry; any other unknown is free in the whole type.
      cases hv : id == v.id with
      | true => rfl
      | false => exact hm id (mentions_mu.2 ⟨fun h => beq_eq_false_iff_ne.1 hv h.symm, hid⟩)

end Ty

/-! ## Renamings that can be read backwards -/

namespace Renaming

variable {m m' : Renaming} {x y : Int}

/-- The renaming from right to left. -/
def backwards (m : Renaming) : Renaming := m.map Prod.swap

/-- The first renaming and then the second one, binder by binder. -/
def comp (m m' : Renaming) : Renaming := List.zipWith (fun e e' => (e.1, e'.2)) m m'

/-- The binders of the left type, the innermost first. -/
def lefts (m : Renaming) : List Int := m.map Prod.fst

/-- The binders of the right type, the innermost first. -/
def rights (m : Renaming) : List Int := m.map Prod.snd

theorem lookup_eq_none_iff : m.lookup x = none ↔ x ∉ lefts m := by
  simp only [List.lookup_eq_none_iff, lefts, List.mem_map, bne_iff_ne]
  grind

theorem mem_rights_of_lookup (h : m.lookup x = some y) : y ∈ rights m := by
  obtain ⟨l, l', rfl, -⟩ := List.lookup_eq_some_iff.1 h
  simp [rights]

/-- A binder of the right type is found again from its number, if no other has that number. -/
theorem lookup_backwards : ∀ {m : Renaming}, (rights m).Nodup → m.lookup x = some y →
    (backwards m).lookup y = some x
  | (l, r) :: m, hnodup, h => by
      obtain ⟨hr, hnodup⟩ := List.nodup_cons.1 hnodup
      show List.lookup y ((r, l) :: backwards m) = some x
      rw [List.lookup_cons] at h ⊢
      split at h
      · next hx => cases h; simp [beq_iff_eq.1 hx]
      · have hne : (y == r) = false :=
          beq_eq_false_iff_ne.2 (ne_of_mem_of_not_mem (mem_rights_of_lookup h) hr)
        rw [hne]
        exact lookup_backwards hnodup h

theorem lefts_backwards (m : Renaming) : lefts (backwards m) = rights m := by
  simp [lefts, rights, backwards]

theorem lookup_comp_of_none : ∀ {m m' : Renaming}, m.lookup x = none → (comp m m').lookup x = none
  | [], _, _ => rfl
  | _ :: _, [], _ => rfl
  | (l, r) :: m, (l', r') :: m', h => by
      show List.lookup x ((l, r') :: comp m m') = none
      rw [List.lookup_cons] at h ⊢
      split at h
      · cases h
      · exact lookup_comp_of_none h

theorem lookup_comp_of_some : ∀ {m m' : Renaming}, (rights m).Nodup → rights m = lefts m' →
    m.lookup x = some y → (comp m m').lookup x = m'.lookup y
  | (l, r) :: m, [], _, heq, _ => by cases heq
  | (l, r) :: m, (l', r') :: m', hnodup, heq, h => by
      obtain ⟨hr, hnodup⟩ := List.nodup_cons.1 hnodup
      obtain ⟨hhead, htail⟩ := List.cons.inj heq
      dsimp only at hhead
      subst hhead
      show List.lookup x ((l, r') :: comp m m') = _
      rw [List.lookup_cons] at h ⊢
      rw [List.lookup_cons]
      split at h
      · cases h; simp
      · have hne : (y == r) = false :=
          beq_eq_false_iff_ne.2 (ne_of_mem_of_not_mem (mem_rights_of_lookup h) hr)
        rw [hne]
        exact lookup_comp_of_some hnodup htail h

end Renaming

namespace Ty

open Renaming

variable {m m' : Renaming} {P : Int → Prop} {a b c : Ty} {v w x : TyVar}

/-- No binder has one of the given numbers or that of a binder around it. -/
inductive WellNamed : (Int → Prop) → Ty → Prop where
  | var {P : Int → Prop} (v : TyVar) : WellNamed P (.var v)
  | prim {P : Int → Prop} (name : String) : WellNamed P (.prim name)
  | lit {P : Int → Prop} (value : String) : WellNamed P (.lit value)
  | fn {P : Int → Prop} {p r : Ty} : WellNamed P p → WellNamed P r → WellNamed P (.fn p r)
  | record {P : Int → Prop} {fs : List (String × Ty)} (row : Option TyVar) :
      (∀ f ∈ fs, WellNamed P f.2) → WellNamed P (.record fs row)
  | tuple {P : Int → Prop} {ts : List Ty} : (∀ t ∈ ts, WellNamed P t) → WellNamed P (.tuple ts)
  | union {P : Int → Prop} {ts : List Ty} : (∀ t ∈ ts, WellNamed P t) → WellNamed P (.union ts)
  | inter {P : Int → Prop} {ts : List Ty} : (∀ t ∈ ts, WellNamed P t) → WellNamed P (.inter ts)
  | named {P : Int → Prop} (name : String) {ts : List Ty} : (∀ t ∈ ts, WellNamed P t) →
      WellNamed P (.named name ts)
  | mu {P : Int → Prop} {v : TyVar} {t : Ty} : ¬ P v.id →
      WellNamed (fun id => id = v.id ∨ P id) t → WellNamed P (.mu v t)

/-- The renaming can be read backwards from a place: its binders of the right type differ and are
in use, as are the unknowns that are free in the left type, which are none of these binders. -/
structure Reversible (P : Int → Prop) (m : Renaming) (a : Ty) : Prop where
  nodup : (rights m).Nodup
  used : ∀ id ∈ rights m, P id
  free : ∀ id, a.Mentions id → id ∉ lefts m → P id ∧ id ∉ rights m

theorem reversible_nil : Reversible a.Mentions [] a where
  nodup := .nil
  used := List.forall_mem_nil _
  free := fun _ hid _ => ⟨hid, List.not_mem_nil⟩

theorem Reversible.part (h : Reversible P m a) (hb : ∀ id, b.Mentions id → a.Mentions id) :
    Reversible P m b where
  nodup := h.nodup
  used := h.used
  free := fun id hid => h.free id (hb id hid)

theorem Reversible.below (h : Reversible P m (.mu v a)) (hw : ¬ P w.id) :
    Reversible (fun id => id = w.id ∨ P id) ((v.id, w.id) :: m) a where
  nodup := List.nodup_cons.2 ⟨fun hmem => hw (h.used _ hmem), h.nodup⟩
  used := List.forall_mem_cons.2 ⟨.inl rfl, fun id hid => .inr (h.used id hid)⟩
  free := by
    intro id hid hleft
    obtain ⟨hv, hleft⟩ := not_or.1 (mt List.mem_cons.2 hleft)
    obtain ⟨hP, hright⟩ := h.free id (mentions_mu.2 ⟨Ne.symm hv, hid⟩) hleft
    refine ⟨.inr hP, fun hmem => ?_⟩
    rcases List.mem_cons.1 hmem with rfl | hmem
    · exact hw hP
    · exact hright hmem

theorem Reversible.sameUnder_backwards (h : Reversible P m a) (hv : a.Mentions v.id)
    (hvw : v.sameUnder m w = true) : w.sameUnder (backwards m) v = true := by
  unfold TyVar.sameUnder at hvw ⊢
  split at hvw
  · next id hid =>
      obtain rfl := beq_iff_eq.1 hvw
      rw [lookup_backwards h.nodup hid]
      exact beq_self_eq_true _
  · next hnone =>
      have hright := (h.free _ hv (lookup_eq_none_iff.1 hnone)).2
      rw [beq_iff_eq.1 hvw, ← lefts_backwards] at hright
      rw [lookup_eq_none_iff.2 hright]
      exact beq_iff_eq.2 (beq_iff_eq.1 hvw).symm

theorem Reversible.sameUnder_comp (h : Reversible P m a) (hv : a.Mentions v.id)
    (hm : rights m = lefts m') (hvw : v.sameUnder m w = true) (hwx : w.sameUnder m' x = true) :
    v.sameUnder (comp m m') x = true := by
  unfold TyVar.sameUnder at hvw ⊢
  split at hvw
  · next id hid =>
      obtain rfl := beq_iff_eq.1 hvw
      have hw : w.id ∈ lefts m' := hm ▸ mem_rights_of_lookup hid
      rw [lookup_comp_of_some h.nodup hm hid]
      unfold TyVar.sameUnder at hwx
      split at hwx
      · exact hwx
      · next hnone => exact absurd hw (lookup_eq_none_iff.1 hnone)
  · next hnone =>
      have hright := (h.free _ hv (lookup_eq_none_iff.1 hnone)).2
      rw [beq_iff_eq.1 hvw, hm] at hright
      rw [lookup_comp_of_none hnone]
      unfold TyVar.sameUnder at hwx
      rw [lookup_eq_none_iff.2 hright] at hwx
      exact beq_iff_eq.2 ((beq_iff_eq.1 hvw).trans (beq_iff_eq.1 hwx))

theorem Reversible.sameRow_backwards {fs : List (String × Ty)} {r r' : Option TyVar}
    (h : Reversible P m (.record fs r)) (hrow : sameRow m r r' = true) :
    sameRow (backwards m) r' r = true := by
  cases r with
  | none => cases r' with | none => rfl | some w => cases hrow
  | some v =>
      cases r' with
      | none => cases hrow
      | some w => exact h.sameUnder_backwards (mentions_record.2 (.inr ⟨v, rfl, rfl⟩)) hrow

theorem Reversible.sameRow_comp {fs : List (String × Ty)} {r r' r'' : Option TyVar}
    (h : Reversible P m (.record fs r)) (hm : rights m = lefts m') (hrow : sameRow m r r' = true)
    (hrow' : sameRow m' r' r'' = true) : sameRow (comp m m') r r'' = true := by
  cases r with
  | none =>
      cases r' with
      | none => cases r'' with | none => rfl | some w => cases hrow'
      | some w => cases hrow
  | some v =>
      cases r' with
      | none => cases hrow
      | some w =>
          cases r'' with
          | none => cases hrow'
          | some x => exact h.sameUnder_comp (mentions_record.2 (.inr ⟨v, rfl, rfl⟩)) hm hrow hrow'

/-! ## An equivalence relation on well named types -/

/-- Equivalence can be read backwards. -/
theorem equivUnder_backwards (ha : a.Sorted) : ∀ {b : Ty} {m : Renaming} {P : Int → Prop},
    b.Sorted → b.WellNamed P → Reversible P m a → equivUnder m a b = true →
    equivUnder (backwards m) b a = true := by
  induction ha with
  | var v =>
      intro b m P _ _ hm h
      obtain ⟨w, rfl, hsame⟩ := exists_var_of_equivUnder h
      rw [equivUnder]
      exact hm.sameUnder_backwards (mentions_var.2 rfl) hsame
  | prim name =>
      intro b m P _ _ _ h
      obtain rfl := eq_prim_of_equivUnder h
      rw [equivUnder, beq_iff_eq]
  | lit value =>
      intro b m P _ _ _ h
      obtain rfl := eq_lit_of_equivUnder h
      rw [equivUnder, beq_iff_eq]
  | fn _ _ ihp ihr =>
      intro b m P hb hw hm h
      obtain ⟨p', r', rfl, h₁, h₂⟩ := exists_fn_of_equivUnder h
      cases hb with
      | fn hp hr =>
          cases hw with
          | fn hwp hwr =>
              exact equivUnder_fn.2
                ⟨ihp hp hwp (hm.part fun id hid => mentions_fn.2 (.inl hid)) h₁,
                  ihr hr hwr (hm.part fun id hid => mentions_fn.2 (.inr hid)) h₂⟩
  | record row hasc _ ih =>
      intro b m P hb hw hm h
      obtain ⟨gs, row', rfl⟩ := exists_record_of_equivUnder h
      cases hb with
      | record row' hasc' hgs =>
          cases hw with
          | record _ hw =>
              obtain ⟨hrow, hall⟩ := (equivUnder_record hasc hasc').1 h
              refine (equivUnder_record hasc' hasc).2 ⟨hm.sameRow_backwards hrow, fun name => ?_⟩
              refine rel_flip (hall name) fun t u ht hu h => ?_
              have ht := Table.mem_of_get? ht
              have hu := Table.mem_of_get? hu
              exact ih _ ht (hgs _ hu) (hw _ hu)
                (hm.part fun id hid => mentions_record.2 (.inl ⟨_, ht, hid⟩)) h
  | tuple _ ih =>
      intro b m P hb hw hm h
      obtain ⟨bs, rfl, helems⟩ := exists_tuple_of_equivUnder h
      cases hb with
      | tuple hbs =>
          cases hw with
          | tuple hw =>
              refine equivUnder_tuple.2 (forall₂_flip helems fun t ht u hu => ?_)
              exact ih t ht (hbs u hu) (hw u hu)
                (hm.part fun id hid => mentions_tuple.2 ⟨t, ht, hid⟩)
  | union _ ih =>
      intro b m P hb hw hm h
      obtain ⟨bs, rfl, hmatch⟩ := exists_union_of_equivUnder h
      cases hb with
      | union hbs =>
          cases hw with
          | union hw =>
              refine equivUnder_union.2 (hmatch.flip fun t ht u hu => ?_)
              exact ih t ht (hbs u hu) (hw u hu)
                (hm.part fun id hid => mentions_union.2 ⟨t, ht, hid⟩)
  | inter _ ih =>
      intro b m P hb hw hm h
      obtain ⟨bs, rfl, hmatch⟩ := exists_inter_of_equivUnder h
      cases hb with
      | inter hbs =>
          cases hw with
          | inter hw =>
              refine equivUnder_inter.2 (hmatch.flip fun t ht u hu => ?_)
              exact ih t ht (hbs u hu) (hw u hu)
                (hm.part fun id hid => mentions_inter.2 ⟨t, ht, hid⟩)
  | named name _ ih =>
      intro b m P hb hw hm h
      obtain ⟨bs, rfl, hargs⟩ := exists_named_of_equivUnder h
      cases hb with
      | named _ hbs =>
          cases hw with
          | named _ hw =>
              refine equivUnder_named.2 ⟨rfl, forall₂_flip hargs fun t ht u hu => ?_⟩
              exact ih t ht (hbs u hu) (hw u hu)
                (hm.part fun id hid => mentions_named.2 ⟨t, ht, hid⟩)
  | mu v _ ih =>
      intro b m P hb hw hm h
      obtain ⟨w, u, rfl, hbody⟩ := exists_mu_of_equivUnder h
      cases hb with
      | mu _ hu =>
          cases hw with
          | mu hnew hwu =>
              rw [equivUnder]
              exact ih hu hwu (hm.below hnew) hbody

/-- Equivalences can be composed. -/
theorem equivUnder_comp (ha : a.Sorted) : ∀ {b c : Ty} {m m' : Renaming} {P : Int → Prop},
    b.Sorted → c.Sorted → b.WellNamed P → Reversible P m a → rights m = lefts m' →
    equivUnder m a b = true → equivUnder m' b c = true → equivUnder (comp m m') a c = true := by
  induction ha with
  | var v =>
      intro b c m m' P _ _ _ hm heq h h'
      obtain ⟨w, rfl, hsame⟩ := exists_var_of_equivUnder h
      obtain ⟨x, rfl, hsame'⟩ := exists_var_of_equivUnder h'
      rw [equivUnder]
      exact hm.sameUnder_comp (mentions_var.2 rfl) heq hsame hsame'
  | prim name =>
      intro b c m m' P _ _ _ _ _ h h'
      obtain rfl := eq_prim_of_equivUnder h
      obtain rfl := eq_prim_of_equivUnder h'
      rw [equivUnder, beq_iff_eq]
  | lit value =>
      intro b c m m' P _ _ _ _ _ h h'
      obtain rfl := eq_lit_of_equivUnder h
      obtain rfl := eq_lit_of_equivUnder h'
      rw [equivUnder, beq_iff_eq]
  | fn _ _ ihp ihr =>
      intro b c m m' P hb hc hw hm heq h h'
      obtain ⟨p', r', rfl, h₁, h₂⟩ := exists_fn_of_equivUnder h
      obtain ⟨p'', r'', rfl, h₁', h₂'⟩ := exists_fn_of_equivUnder h'
      cases hb with
      | fn hp hr =>
          cases hc with
          | fn hp' hr' =>
              cases hw with
              | fn hwp hwr =>
                  have hmp := hm.part fun id hid => mentions_fn.2 (.inl hid)
                  have hmr := hm.part fun id hid => mentions_fn.2 (.inr hid)
                  exact equivUnder_fn.2
                    ⟨ihp hp hp' hwp hmp heq h₁ h₁', ihr hr hr' hwr hmr heq h₂ h₂'⟩
  | record row hasc _ ih =>
      intro b c m m' P hb hc hw hm heq h h'
      obtain ⟨gs, row', rfl⟩ := exists_record_of_equivUnder h
      obtain ⟨hs, row'', rfl⟩ := exists_record_of_equivUnder h'
      cases hb with
      | record _ hasc' hgs =>
          cases hc with
          | record _ hasc'' hhs =>
              cases hw with
              | record _ hw =>
                  obtain ⟨hrow, hall⟩ := (equivUnder_record hasc hasc').1 h
                  obtain ⟨hrow', hall'⟩ := (equivUnder_record hasc' hasc'').1 h'
                  refine (equivUnder_record hasc hasc'').2
                    ⟨hm.sameRow_comp heq hrow hrow', fun name => ?_⟩
                  refine rel_comp (hall name) (hall' name) fun t u s ht hu hs h h' => ?_
                  have ht := Table.mem_of_get? ht
                  have hu := Table.mem_of_get? hu
                  have hs := Table.mem_of_get? hs
                  exact ih _ ht (hgs _ hu) (hhs _ hs) (hw _ hu)
                    (hm.part fun id hid => mentions_record.2 (.inl ⟨_, ht, hid⟩)) heq h h'
  | tuple _ ih =>
      intro b c m m' P hb hc hw hm heq h h'
      obtain ⟨bs, rfl, helems⟩ := exists_tuple_of_equivUnder h
      obtain ⟨cs, rfl, helems'⟩ := exists_tuple_of_equivUnder h'
      cases hb with
      | tuple hbs =>
          cases hc with
          | tuple hcs =>
              cases hw with
              | tuple hw =>
                  refine equivUnder_tuple.2 (forall₂_comp helems helems' fun t ht u hu s hs => ?_)
                  exact ih t ht (hbs u hu) (hcs s hs) (hw u hu)
                    (hm.part fun id hid => mentions_tuple.2 ⟨t, ht, hid⟩) heq
  | union _ ih =>
      intro b c m m' P hb hc hw hm heq h h'
      obtain ⟨bs, rfl, hmatch⟩ := exists_union_of_equivUnder h
      obtain ⟨cs, rfl, hmatch'⟩ := exists_union_of_equivUnder h'
      cases hb with
      | union hbs =>
          cases hc with
          | union hcs =>
              cases hw with
              | union hw =>
                  refine equivUnder_union.2 (hmatch.comp hmatch' fun t ht u hu s hs => ?_)
                  exact ih t ht (hbs u hu) (hcs s hs) (hw u hu)
                    (hm.part fun id hid => mentions_union.2 ⟨t, ht, hid⟩) heq
  | inter _ ih =>
      intro b c m m' P hb hc hw hm heq h h'
      obtain ⟨bs, rfl, hmatch⟩ := exists_inter_of_equivUnder h
      obtain ⟨cs, rfl, hmatch'⟩ := exists_inter_of_equivUnder h'
      cases hb with
      | inter hbs =>
          cases hc with
          | inter hcs =>
              cases hw with
              | inter hw =>
                  refine equivUnder_inter.2 (hmatch.comp hmatch' fun t ht u hu s hs => ?_)
                  exact ih t ht (hbs u hu) (hcs s hs) (hw u hu)
                    (hm.part fun id hid => mentions_inter.2 ⟨t, ht, hid⟩) heq
  | named name _ ih =>
      intro b c m m' P hb hc hw hm heq h h'
      obtain ⟨bs, rfl, hargs⟩ := exists_named_of_equivUnder h
      obtain ⟨cs, rfl, hargs'⟩ := exists_named_of_equivUnder h'
      cases hb with
      | named _ hbs =>
          cases hc with
          | named _ hcs =>
              cases hw with
              | named _ hw =>
                  refine equivUnder_named.2 ⟨rfl, forall₂_comp hargs hargs' fun t ht u hu s hs => ?_⟩
                  exact ih t ht (hbs u hu) (hcs s hs) (hw u hu)
                    (hm.part fun id hid => mentions_named.2 ⟨t, ht, hid⟩) heq
  | mu v _ ih =>
      intro b c m m' P hb hc hw hm heq h h'
      obtain ⟨w, u, rfl, hbody⟩ := exists_mu_of_equivUnder h
      obtain ⟨x, s, rfl, hbody'⟩ := exists_mu_of_equivUnder h'
      cases hb with
      | mu _ hu =>
          cases hc with
          | mu _ hs =>
              cases hw with
              | mu hnew hwu =>
                  rw [equivUnder]
                  have heq' : rights ((v.id, w.id) :: m) = lefts ((w.id, x.id) :: m') :=
                    congrArg (w.id :: ·) heq
                  exact ih hu hs hwu (hm.below hnew) heq' hbody hbody'

/-- Equivalence is reflexive.  It can be turned around and composed with a further equivalence if
the type in question is well named: none of its binders has the number of a binder around it, or of
an unknown that is free in the type to the left. -/
theorem equivalence_of_wellNamed {a b c : Ty} (ha : a.Sorted) (hb : b.Sorted) (hc : c.Sorted) :
    a.equiv a = true ∧
    (b.WellNamed a.Mentions → a.equiv b = true → b.equiv a = true) ∧
    (b.WellNamed a.Mentions → a.equiv b = true → b.equiv c = true → a.equiv c = true) :=
  ⟨ha.equiv_self, fun hw h => equivUnder_backwards ha hb hw reversible_nil h,
    fun hw h h' => equivUnder_comp ha hb hc hw reversible_nil rfl h h'⟩

/-- The binders of three types around a common unknown may all have other numbers, and the last
type may use one number twice. -/
theorem equivalence_of_nested :
    let nested (i j : Int) := Ty.mu ⟨i, 0⟩ (.fn (.var ⟨i, 0⟩) (.mu ⟨j, 0⟩ (.fn (.var ⟨j, 0⟩)
      (.var ⟨9, 0⟩))))
    (nested 1 2).equiv (nested 1 2) = true ∧ (nested 3 4).equiv (nested 1 2) = true ∧
      (nested 1 2).equiv (nested 5 5) = true := by
  intro nested
  have hsorted (i j : Int) : (nested i j).Sorted :=
    .mu _ (.fn (.var _) (.mu _ (.fn (.var _) (.var _))))
  have hnamed : (nested 3 4).WellNamed (nested 1 2).Mentions :=
    .mu (by simp [nested]) (.fn (.var _) (.mu (by simp [nested]) (.fn (.var _) (.var _))))
  obtain ⟨hself, hback, hcomp⟩ :=
    equivalence_of_wellNamed (hsorted 1 2) (hsorted 3 4) (hsorted 5 5)
  exact ⟨hself, hback hnamed (by decide +kernel),
    hcomp hnamed (by decide +kernel) (by decide +kernel)⟩

end Ty

end RowTypes
