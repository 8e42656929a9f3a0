import RowTypes.Proofs.Levels

/-!
# Composing substitutions

Doing one substitution after another is itself a substitution, and it does to a type what the two
do in turn.  Three things stand in the way of the usual induction on the type.

A substitution builds unions anew, so a union is built twice on the one side and once on the other.
What is left out the first time is equivalent to something kept before it, and stays so under a
substitution; so leaving it out early or late makes no difference, not even in the order of what
is kept.  This is the law of `apply_build`, which holds of intersections as well.

A row that is bound to a record is spliced, explicit fields first, and a row that is bound to
another row is renamed.  Splicing twice lays three layers of fields over each other, grouped
differently; and if rows could be bound to other types, the first substitution would keep a row open
that the composition closes or renames.

And what the composition would bind to itself it does not bind at all.  The unknown stays as it
stands in the type, while the two substitutions put the same unknown in its place, with the level
that it has there.  So the law is one of types up to levels.
-/

namespace RowTypes

namespace Ty

variable {a b t : Ty} {as bs ts us vs : List Ty} {M : Prop} {k : Compound} {f g : Ty → List Ty}

/-! ## Leaving out repetitions, early and late -/

/-- What is equivalent to something further to the left is left out. -/
theorem distinct_append_of_covered (has : ∀ a ∈ as, a.Tame) (hbs : ∀ b ∈ bs, b.Tame)
    (h : ∀ b ∈ bs, ∃ a ∈ as, equiv a b = true) : distinct (as ++ bs) = distinct as := by
  induction bs using List.reverseRecOn with
  | nil => rw [List.append_nil]
  | append_singleton bs b ih =>
      rw [List.forall_mem_append] at hbs h
      rw [← List.append_assoc, distinct_append_singleton, ih hbs.1 h.1, addDistinct, if_pos]
      obtain ⟨a, ha, hab⟩ := h.2 b (List.mem_singleton.2 rfl)
      obtain ⟨c, hc, rfl | hca⟩ := exists_mem_distinct ha
      · exact List.any_eq_true.2 ⟨c, hc, hab⟩
      · have hb := hbs.2 b (List.mem_singleton.2 rfl)
        exact List.any_eq_true.2
          ⟨c, hc, equiv_trans (has c (mem_distinct hc)) (has a ha) hb hca hab⟩

theorem distinct_append (as bs : List Ty) : distinct (as ++ bs) = bs.foldl addDistinct (distinct as) :=
  List.foldl_append

/-- Repetitions may be left out before each type is taken to several others, if equivalent types
are taken to equivalent ones. -/
theorem distinct_append_flatMap_distinct (hus : ∀ u ∈ us, u.Tame)
    (hts : ∀ t ∈ ts, t.Tame ∧ ∀ a ∈ f t, a.Tame)
    (hf : ∀ a ∈ ts, ∀ b ∈ ts, equiv a b = true → ∀ y ∈ f b, ∃ x ∈ f a, equiv x y = true) :
    distinct (us ++ (distinct ts).flatMap f) = distinct (us ++ ts.flatMap f) := by
  induction ts using List.reverseRecOn with
  | nil => rfl
  | append_singleton ts t ih =>
      have hmem : ∀ a ∈ distinct ts, a ∈ ts ++ [t] := fun a ha =>
        List.mem_append_left _ (mem_distinct ha)
      have ht : t ∈ ts ++ [t] := List.mem_append_right _ (List.mem_singleton.2 rfl)
      have ih := ih (fun a ha => hts a (List.mem_append_left _ ha)) fun a ha b hb =>
        hf a (List.mem_append_left _ ha) b (List.mem_append_left _ hb)
      have hright : distinct (us ++ (ts ++ [t]).flatMap f) =
          distinct ((us ++ (distinct ts).flatMap f) ++ f t) := by
        rw [List.flatMap_append, List.flatMap_singleton, ← List.append_assoc, distinct_append, ← ih,
          ← distinct_append]
      rw [hright, distinct_append_singleton, addDistinct]
      split
      · next hseen =>
          -- Whatever the type left out is taken to stands there already.
          obtain ⟨a, ha, hat⟩ := List.any_eq_true.1 hseen
          refine (distinct_append_of_covered ?_ (hts t ht).2 fun y hy => ?_).symm
          · refine List.forall_mem_append.2 ⟨hus, fun x hx => ?_⟩
            obtain ⟨b, hb, hx⟩ := List.mem_flatMap.1 hx
            exact (hts b (hmem b hb)).2 x hx
          · obtain ⟨x, hx, hxy⟩ := hf a (hmem a ha) t ht hat y hy
            exact ⟨x, List.mem_append_right _ (List.mem_flatMap.2 ⟨a, ha, hx⟩), hxy⟩
      · rw [List.flatMap_append, List.flatMap_singleton, List.append_assoc]

theorem distinct_flatMap_distinct (hts : ∀ t ∈ ts, t.Tame ∧ ∀ a ∈ f t, a.Tame)
    (hf : ∀ a ∈ ts, ∀ b ∈ ts, equiv a b = true → ∀ y ∈ f b, ∃ x ∈ f a, equiv x y = true) :
    distinct ((distinct ts).flatMap f) = distinct (ts.flatMap f) :=
  have hnil : ∀ u ∈ ([] : List Ty), u.Tame := nofun
  distinct_append_flatMap_distinct hnil hts hf

/-- Repetitions may be left out of parts of a list beforehand. -/
theorem distinct_flatMap_of_distinct (hg : ∀ t ∈ ts, ∀ a ∈ g t, a.Tame) :
    distinct (ts.flatMap fun t => distinct (g t)) = distinct (ts.flatMap g) := by
  have general : ∀ {ts us : List Ty}, (∀ t ∈ ts, ∀ a ∈ g t, a.Tame) → (∀ u ∈ us, u.Tame) →
      distinct (us ++ ts.flatMap fun t => distinct (g t)) = distinct (us ++ ts.flatMap g) := by
    intro ts
    induction ts with
    | nil => exact fun _ _ => rfl
    | cons t ts ih =>
        intro us hg hus
        rw [List.forall_mem_cons] at hg
        have hleft : distinct (us ++ distinct (g t)) = distinct (us ++ g t) := by
          have h := distinct_append_flatMap_distinct (f := fun a => [a]) hus
            (fun a ha => ⟨hg.1 a ha, List.forall_mem_singleton.2 (hg.1 a ha)⟩)
            fun a _ b _ hab y hy => ⟨a, List.mem_singleton.2 rfl, List.mem_singleton.1 hy ▸ hab⟩
          rwa [List.flatMap_singleton', List.flatMap_singleton'] at h
        have hus' : ∀ u ∈ us ++ distinct (g t), u.Tame := List.forall_mem_append.2
          ⟨hus, fun a ha => hg.1 a (mem_distinct ha)⟩
        rw [List.flatMap_cons, List.flatMap_cons, ← List.append_assoc, ← List.append_assoc,
          ih hg.2 hus', distinct_append, hleft, ← distinct_append]
  have hnil : ∀ u ∈ ([] : List Ty), u.Tame := nofun
  exact general hg hnil

end Ty

/-! ## Building before a substitution -/

section Building

open Ty Compound

variable {k : Compound} {a b t : Ty} {ts us : List Ty} {s : Subst} {M : Prop}

namespace Compound

theorem parts_build (k : Compound) (ts : List Ty) :
    k.parts (k.build ts) = distinct (ts.flatMap k.parts) := by
  have hflat : ∀ t ∈ distinct (ts.flatMap k.parts), ∀ us, t ≠ k.of us := fun t ht us =>
    have ⟨_, _, ht⟩ := List.mem_flatMap.1 (mem_distinct ht)
    ne_of_mem_parts us ht
  rw [build_eq]
  generalize distinct (ts.flatMap k.parts) = ds at hflat ⊢
  by_cases hlen : ds.length = 1
  · obtain ⟨d, rfl⟩ := List.length_eq_one_iff.1 hlen
    exact parts_of_ne (hflat d (List.mem_singleton.2 rfl))
  · rw [together_of_length_ne hlen, parts_of, flatMap_parts_eq_self hflat]

end Compound

theorem Ty.Built.distinct_parts (h : t.Built M) : distinct (k.parts t) = k.parts t := by
  by_cases hk : ∃ us, t = k.of us
  · obtain ⟨us, rfl⟩ := hk
    obtain ⟨-, -, hflat, hdistinct⟩ := built_of_iff.1 h
    rw [parts_of, flatMap_parts_eq_self hflat, distinct_eq_self hdistinct]
  · rw [parts_of_ne fun us h => hk ⟨us, h⟩]
    rfl

/-- A compound of one type that is as it is built is that type. -/
theorem Ty.Built.build_singleton (h : t.Built M) : k.build [t] = t := by
  rw [Compound.build_eq, List.flatMap_singleton, h.distinct_parts]
  by_cases hk : ∃ us, t = k.of us
  · obtain ⟨us, rfl⟩ := hk
    obtain ⟨hlen, -, hflat, -⟩ := built_of_iff.1 h
    rw [parts_of, flatMap_parts_eq_self hflat, together_of_length_ne hlen]
  · rw [parts_of_ne fun us h => hk ⟨us, h⟩]
    rfl

theorem Ty.Built.of_mem_parts (h : t.Built M) (ha : a ∈ k.parts t) : a.Built M :=
  Compound.of_mem_parts (fun _ h => (built_of_iff.1 h).2.1) h ha

namespace Subst

/-- The parts of a type under a substitution are what becomes of its parts. -/
theorem parts_apply (ht : t.Plain) (hs : ∀ id u, s.get? id = some u → u.Plain) :
    k.parts (s.apply t) = distinct ((k.parts t).flatMap fun a => k.parts (s.apply a)) := by
  by_cases hk : ∃ us, t = k.of us
  · obtain ⟨us, rfl⟩ := hk
    rw [ht.apply_of, parts_build, parts_of, flatMap_parts_eq_self (built_of_iff.1 ht).2.2.1,
      List.flatMap_map]
  · rw [parts_of_ne fun us h => hk ⟨us, h⟩, List.flatMap_singleton, (ht.apply hs).distinct_parts]

/-- Building before a substitution or after it makes no difference. -/
theorem apply_build (hts : ∀ t ∈ ts, t.Plain) (hs : ∀ id u, s.get? id = some u → u.Plain) :
    s.apply (k.build ts) = k.build (ts.map s.apply) := by
  have hparts : ∀ a ∈ ts.flatMap k.parts, a.Plain := fun a ha =>
    have ⟨t, ht, ha⟩ := List.mem_flatMap.1 ha
    (hts t ht).of_mem_parts ha
  have htame : ∀ a ∈ ts.flatMap k.parts, a.Tame ∧ ∀ b ∈ k.parts (s.apply a), b.Tame := fun a ha =>
    ⟨(hparts a ha).tame, fun b hb => (((hparts a ha).apply hs).of_mem_parts hb).tame⟩
  have htogether : s.apply (k.build ts) =
      k.build ((distinct (ts.flatMap k.parts)).map s.apply) := by
    have hbuilt : (k.build ts).Plain := built_build hts
    rw [build_eq] at hbuilt ⊢
    generalize distinct (ts.flatMap k.parts) = ds at hbuilt ⊢
    by_cases hlen : ds.length = 1
    · obtain ⟨d, rfl⟩ := List.length_eq_one_iff.1 hlen
      exact (hbuilt.apply hs).build_singleton.symm
    · rw [together_of_length_ne hlen] at hbuilt ⊢
      exact hbuilt.apply_of
  have hmembers : (ts.map s.apply).flatMap k.parts = ts.flatMap fun t =>
      distinct ((k.parts t).flatMap fun a => k.parts (s.apply a)) := by
    rw [List.flatMap_map]
    exact List.flatMap_congr fun t ht => parts_apply (hts t ht) hs
  rw [htogether, build_eq, build_eq, hmembers, distinct_flatMap_of_distinct, List.flatMap_map,
    distinct_flatMap_distinct htame, List.flatMap_assoc]
  · intro a ha b hb hab y hy
    -- Equivalent types have parts of the same forms, before the substitution and after it.
    have hform := forms_congr (k := k) ((hparts a ha).apply hs).tame ((hparts b hb).apply hs).tame
      (form_congr ((hparts a ha).apply hs).tame ((hparts b hb).apply hs).tame
        (equiv_apply hs (hparts a ha) (hparts b hb) hab))
    obtain ⟨x, hx, hxy⟩ := mem_forms.1 (hform ▸ mem_forms.2 ⟨y, hy, rfl⟩ : y.form ∈ _)
    exact ⟨x, hx, (form_eq_iff ((htame a ha).2 x hx) ((htame b hb).2 y hy)).1 hxy⟩
  · intro t ht b hb
    obtain ⟨a, ha, hb⟩ := List.mem_flatMap.1 hb
    exact (htame a (List.mem_flatMap.2 ⟨t, ht, ha⟩)).2 b hb

end Subst

end Building

/-! ## The law of composition -/

namespace Subst

open Ty

variable {row : Int → Prop} {s o p : Subst} {t : Ty}

/-- Unknowns are bound to types without recursion, as they are built, and none to itself; rows are
bound to records and to other rows alone.  Of the numbers, some are rows: all that occur as rows
have to be among them. -/
structure Composable (row : Int → Prop) (s : Subst) : Prop where
  ordered : s.Ordered
  plain : ∀ id u, s.get? id = some u → u.Plain
  kinded : ∀ id u, s.get? id = some u → u.Kinded (fun _ => True) row
  rows : ∀ id u, row id → s.get? id = some u →
    (∃ fs rest, u = .record fs rest) ∨ ∃ w : TyVar, u = .var w ∧ row w.id

theorem composable_empty : empty.Composable row where
  ordered := ordered_empty
  plain := nofun
  kinded := nofun
  rows := nofun

theorem Composable.bind (hs : s.Composable row) (v : TyVar) (ht : t.Plain)
    (hk : t.Kinded (fun _ => True) row)
    (hv : row v.id → (∃ fs rest, t = .record fs rest) ∨ ∃ w : TyVar, t = .var w ∧ row w.id) :
    (s.bind v t).Composable row := by
  have hbound : ∀ {id : Int} {u : Ty}, (s.bind v t).get? id = some u →
      (id = v.id ∧ u = t) ∨ s.get? id = some u := by
    intro id u hu
    rw [get?_bind] at hu
    split at hu
    · next hid => exact .inl ⟨hid, (held_eq_some hu).1⟩
    · exact .inr hu
  refine ⟨hs.ordered.bind v t, fun id u hu => ?_, fun id u hu => ?_, fun id u hid hu => ?_⟩
  · exact (hbound hu).elim (fun h => h.2 ▸ ht) (hs.plain id u)
  · exact (hbound hu).elim (fun h => h.2 ▸ hk) (hs.kinded id u)
  · exact (hbound hu).elim (fun h => h.2 ▸ hv (h.1 ▸ hid)) (hs.rows id u hid)

theorem kinded_splice {fs : List (String × Ty)} {v : TyVar} {plain : Int → Prop} {bound : Option Ty}
    (hfs : ∀ f ∈ fs, f.2.Kinded plain row) (hv : row v.id)
    (hbound : ∀ u, bound = some u → u.Kinded plain row)
    (hrow : ∀ w, bound = some (.var w) → row w.id) :
    (RecordTy.splice fs v bound).toTy.Kinded plain row := by
  have hstay : (Ty.record fs (some v)).Kinded plain row :=
    kinded_record.2 ⟨hfs, by rintro w ⟨⟩; exact hv⟩
  cases bound with
  | none => exact hstay
  | some u =>
      cases u with
      | var w => exact kinded_record.2 ⟨hfs, by rintro w ⟨⟩; exact hrow w rfl⟩
      | record more rest =>
          obtain ⟨hmore, hrest⟩ := kinded_record.1 (hbound _ rfl)
          refine kinded_record.2 ⟨fun f hf => ?_, hrest⟩
          exact (Table.mem_underlay hf).elim (hfs f) (hmore f)
      | _ => exact hstay

/-- Rows stay rows under a substitution that binds rows to records and to other rows. -/
theorem Composable.kinded_apply (hs : s.Composable row) (ht : t.Plain)
    (hk : t.Kinded (fun _ => True) row) : (s.apply t).Kinded (fun _ => True) row := by
  induction ht with
  | var v =>
      rw [apply_var]
      cases hv : s.get? v.id with
      | none => trivial
      | some u => exact hs.kinded _ _ hv
  | prim name => rw [apply_prim]; trivial
  | lit value => rw [apply_lit]; trivial
  | fn _ _ ihp ihr => rw [apply_fn]; exact ⟨ihp hk.1, ihr hk.2⟩
  | @record fs v _ _ ih =>
      obtain ⟨hfs, hv⟩ := kinded_record.1 hk
      have hfs : ∀ f ∈ fs.map fun f => (f.1, s.apply f.2), f.2.Kinded (fun _ => True) row :=
        List.forall_mem_map.2 fun f hf => ih f hf (hfs f hf)
      cases v with
      | none => rw [apply_closed]; exact kinded_record.2 ⟨hfs, by rintro w ⟨⟩⟩
      | some v =>
          rw [apply_open]
          refine kinded_splice hfs (hv v rfl) (hs.kinded v.id) fun w hw => ?_
          rcases hs.rows v.id _ (hv v rfl) hw with ⟨_, _, ⟨⟩⟩ | ⟨w', hw', hrow⟩
          cases hw'
          exact hrow
  | tuple _ ih =>
      rw [apply_tuple]
      exact kinded_tuple.2 (List.forall_mem_map.2 fun t ht => ih t ht (kinded_tuple.1 hk t ht))
  | @union ts hlen hts hflat hdistinct ih =>
      have happly : s.apply (.union ts) = unionOf (ts.map s.apply) :=
        Built.apply_of (k := .union) (.union hlen hts hflat hdistinct)
      rw [happly]
      exact of_unionOf (fun _ => kinded_union)
        (List.forall_mem_map.2 fun t ht => ih t ht (kinded_union.1 hk t ht))
  | @inter ts hlen hts hflat hdistinct ih =>
      have happly : s.apply (.inter ts) = interOf (ts.map s.apply) :=
        Built.apply_of (k := .inter) (.inter hlen hts hflat hdistinct)
      rw [happly]
      exact of_interOf (fun _ => kinded_inter)
        (List.forall_mem_map.2 fun t ht => ih t ht (kinded_inter.1 hk t ht))
  | named name _ ih =>
      rw [apply_named]
      exact kinded_named.2 (List.forall_mem_map.2 fun t ht => ih t ht (kinded_named.1 hk t ht))
  | mu _ h => exact h.elim

/-- What an unknown is bound to, or the unknown if that would be itself, is the type that it was
to be bound to. -/
theorem levelless_held (v : TyVar) (t : Ty) :
    ((held v.id t).getD (.var v)).levelless = t.levelless := by
  unfold held
  split
  · next w =>
      split
      · next hid => exact congrArg Ty.var (TyVar.levelless_congr hid.symm)
      · rfl
  · rfl

/-- A row is renamed, or stays as it is if it would be renamed to itself. -/
theorem levelless_splice_held (fs : List (String × Ty)) (v w : TyVar) :
    (RecordTy.splice fs v (held v.id (.var w))).toTy.levelless =
      (Ty.record fs (some w)).levelless := by
  simp only [held]
  split
  · next hid =>
      refine (Ty.levelless_record fs (some v)).trans ((Ty.levelless_record fs (some w)).symm ▸ ?_)
      rw [Option.map_some, TyVar.levelless_congr hid.symm, Option.map_some]
  · rfl

/-- The composition splices a row like the two substitutions do it one after the other. -/
theorem levelless_splice_after (hs : s.Composable row) (ho : o.Composable row)
    {fs : List (String × Ty)} (hfs : Table.Ascending fs) {v : TyVar} (hv : row v.id) :
    (RecordTy.splice (fs.map fun f => (f.1, s.apply f.2)) v
        ((s.after o).get? v.id)).toTy.levelless =
      (s.apply (RecordTy.splice fs v (o.get? v.id)).toTy).levelless := by
  rw [get?_after hs.ordered ho.ordered]
  cases hbound : o.get? v.id with
  | none => exact congrArg Ty.levelless (apply_open s fs v).symm
  | some u =>
      show (RecordTy.splice _ v (held v.id (s.apply u))).toTy.levelless = _
      rcases ho.rows _ _ hv hbound with ⟨more, rest, rfl⟩ | ⟨w, rfl, hw⟩
      · have hmap := hfs.map_underlay s.apply more
        cases rest with
        | none =>
            rw [apply_closed]
            refine congrArg Ty.levelless
              (Eq.trans ?_ (apply_closed s (Table.underlay fs more)).symm)
            rw [hmap]
            rfl
        | some r =>
            rw [apply_open]
            refine congrArg Ty.levelless
              (Eq.trans ?_ (apply_open s (Table.underlay fs more) r).symm)
            rw [hmap]
            cases s.get? r.id with
            | none => rfl
            | some u =>
                cases u with
                -- Three layers of fields lie over each other here.
                | record last rest =>
                    exact congrArg (Ty.record · rest)
                      ((hfs.map s.apply).underlay_underlay _ last).symm
                | _ => rfl
      · rw [apply_var]
        refine Eq.trans ?_ (congrArg Ty.levelless (apply_open s fs w).symm)
        cases hnext : s.get? w.id with
        | none => exact levelless_splice_held _ v w
        | some u =>
            rcases hs.rows _ _ hw hnext with ⟨more, rest, rfl⟩ | ⟨x, rfl, -⟩
            · rfl
            · exact levelless_splice_held _ v x

theorem Composable.plain_apply (hs : s.Composable row) (ht : t.Plain) : (s.apply t).Plain :=
  ht.apply hs.plain

/-- What the composition binds an unknown to. -/
theorem bound_after (hs : s.Ordered) (ho : o.Ordered) {id : Int} {u : Ty}
    (h : (s.after o).get? id = some u) :
    s.get? id = some u ∨ ∃ w, o.get? id = some w ∧ u = s.apply w := by
  rw [get?_after hs ho] at h
  cases hw : o.get? id with
  | none => rw [hw] at h; exact .inl h
  | some w => rw [hw] at h; exact .inr ⟨w, rfl, (held_eq_some h).1⟩

/-- Substitutions that can be composed make one that can be composed. -/
theorem Composable.after (hs : s.Composable row) (ho : o.Composable row) :
    (s.after o).Composable row where
  ordered := hs.ordered.after ho.ordered
  plain := by
    intro id u hu
    rcases bound_after hs.ordered ho.ordered hu with hu | ⟨w, hw, rfl⟩
    · exact hs.plain id u hu
    · exact hs.plain_apply (ho.plain id w hw)
  kinded := by
    intro id u hu
    rcases bound_after hs.ordered ho.ordered hu with hu | ⟨w, hw, rfl⟩
    · exact hs.kinded id u hu
    · exact hs.kinded_apply (ho.plain id w hw) (ho.kinded id w hw)
  rows := by
    intro id u hid hu
    rcases bound_after hs.ordered ho.ordered hu with hu | ⟨w, hw, rfl⟩
    · exact hs.rows id u hid hu
    · rcases ho.rows id w hid hw with ⟨fs, rest, rfl⟩ | ⟨v, rfl, hv⟩
      · exact .inl (exists_record_eq_apply s fs rest)
      · rw [apply_var]
        cases hnext : s.get? v.id with
        | none => exact .inr ⟨v, rfl, hv⟩
        | some u => exact hs.rows v.id u hv hnext

/-- The composition of two substitutions does what they do one after the other. -/
theorem levelless_apply_after (hs : s.Composable row) (ho : o.Composable row) (ht : t.Plain)
    (hk : t.Kinded (fun _ => True) row) :
    ((s.after o).apply t).levelless = (s.apply (o.apply t)).levelless := by
  have hso := (hs.after ho).plain
  have hmap : ∀ {ts : List Ty}, (∀ t ∈ ts, t.Kinded (fun _ => True) row) →
      (∀ t ∈ ts, t.Kinded (fun _ => True) row →
        ((s.after o).apply t).levelless = (s.apply (o.apply t)).levelless) →
      (ts.map (s.after o).apply).map Ty.levelless =
        ((ts.map o.apply).map s.apply).map Ty.levelless := by
    intro ts hk ih
    rw [List.map_map, List.map_map, List.map_map]
    exact List.map_congr_left fun t ht => ih t ht (hk t ht)
  have hof : ∀ {k : Compound} {ts : List Ty}, (k.of ts).Plain →
      (∀ t ∈ ts, t.Kinded (fun _ => True) row) →
      (∀ t ∈ ts, t.Kinded (fun _ => True) row →
        ((s.after o).apply t).levelless = (s.apply (o.apply t)).levelless) →
      ((s.after o).apply (k.of ts)).levelless = (s.apply (o.apply (k.of ts))).levelless := by
    intro k ts h hk ih
    have hts := (built_of_iff.1 h).2.1
    have hotame : ∀ u ∈ ts.map o.apply, u.Plain := List.forall_mem_map.2 fun t ht =>
      ho.plain_apply (hts t ht)
    rw [h.apply_of, h.apply_of, apply_build hotame hs.plain, levelless_build, levelless_build,
      hmap hk ih]
    · exact List.forall_mem_map.2 fun u hu => (hs.plain_apply (hotame u hu)).tame
    · exact List.forall_mem_map.2 fun t ht => ((hts t ht).apply hso).tame
  induction ht with
  | var v =>
      rw [apply_var, apply_var, get?_after hs.ordered ho.ordered]
      cases o.get? v.id with
      | none => exact congrArg Ty.levelless (apply_var s v).symm
      | some u => exact levelless_held v (s.apply u)
  | prim name => rw [apply_prim, apply_prim, apply_prim]
  | lit value => rw [apply_lit, apply_lit, apply_lit]
  | fn _ _ ihp ihr =>
      rw [apply_fn, apply_fn, apply_fn, Ty.levelless, Ty.levelless, ihp hk.1, ihr hk.2]
  | @record fs v hasc _ ih =>
      obtain ⟨hfs, hv⟩ := kinded_record.1 hk
      have hfields : ((fs.map fun f => (f.1, (s.after o).apply f.2)).map
            fun f => (f.1, f.2.levelless)) =
          ((fs.map fun f => (f.1, o.apply f.2)).map fun f => (f.1, s.apply f.2)).map
            fun f => (f.1, f.2.levelless) := by
        rw [List.map_map, List.map_map, List.map_map]
        exact List.map_congr_left fun f hf => congrArg (Prod.mk f.1) (ih f hf (hfs f hf))
      cases v with
      | none =>
          rw [apply_closed, apply_closed, apply_closed, levelless_record, levelless_record, hfields]
      | some v =>
          rw [apply_open, apply_open, ← levelless_splice_after hs ho (hasc.map o.apply) (hv v rfl),
            levelless_splice (hasc.map _), hfields, levelless_splice ((hasc.map o.apply).map _)]
  | tuple _ ih =>
      rw [apply_tuple, apply_tuple, apply_tuple, levelless_tuple, levelless_tuple,
        hmap (kinded_tuple.1 hk) ih]
  | union hlen hts hflat hdistinct ih =>
      exact hof (k := .union) (.union hlen hts hflat hdistinct) (kinded_union.1 hk) ih
  | inter hlen hts hflat hdistinct ih =>
      exact hof (k := .inter) (.inter hlen hts hflat hdistinct) (kinded_inter.1 hk) ih
  | named name _ ih =>
      rw [apply_named, apply_named, apply_named, levelless_named, levelless_named,
        hmap (kinded_named.1 hk) ih]
  | mu _ h => exact h.elim

/-- Composing substitutions is doing one after the other, and it does not matter how three of them
are grouped.  No unknown is bound to itself in the composition.  Since two unknowns of one number
are the same unknown, types are compared without levels. -/
theorem composition_law (hs : s.Composable row) (ho : o.Composable row) (hp : p.Composable row)
    (ht : t.Plain) (hk : t.Kinded (fun _ => True) row) :
    ((s.after o).apply t).levelless = (s.apply (o.apply t)).levelless ∧
      (∀ (id : Int) (w : TyVar), (s.after o).get? id = some (.var w) → w.id ≠ id) ∧
      (((s.after o).after p).apply t).levelless = ((s.after (o.after p)).apply t).levelless := by
  refine ⟨levelless_apply_after hs ho ht hk, fun id w h => (hs.after ho).ordered.proper h, ?_⟩
  have hpt := hp.plain_apply ht
  calc (((s.after o).after p).apply t).levelless
      = ((s.after o).apply (p.apply t)).levelless := levelless_apply_after (hs.after ho) hp ht hk
    _ = (s.apply (o.apply (p.apply t))).levelless :=
        levelless_apply_after hs ho hpt (hp.kinded_apply ht hk)
    _ = (s.apply ((o.after p).apply t)).levelless :=
        levelless_apply_congr (ho.plain_apply hpt) ((ho.after hp).plain_apply ht) hs.plain
          (levelless_apply_after ho hp ht hk).symm
    _ = ((s.after (o.after p)).apply t).levelless :=
        (levelless_apply_after hs (ho.after hp) ht hk).symm

/-! ### An instance

The first substitution makes two alternatives of a union the same, the second sends one row to a
record and the other back to where it came from. -/

/-- `t1 ↦ t2`, `t7 ↦ t4`. -/
def renamed : Subst := (empty.bind ⟨1, 0⟩ (.var ⟨2, 0⟩)).bind ⟨7, 0⟩ (.var ⟨4, 0⟩)

/-- `t2 ↦ Int → t3`, `t4 ↦ {z: t3 | t5}`. -/
def filling : Subst :=
  (empty.bind ⟨2, 0⟩ (.fn .int (.var ⟨3, 0⟩))).bind ⟨4, 0⟩
    (.record [("z", .var ⟨3, 0⟩)] (some ⟨5, 0⟩))

/-- `t3 ↦ t1`, `t5 ↦ t7`. -/
def returning : Subst := (empty.bind ⟨3, 0⟩ (.var ⟨1, 0⟩)).bind ⟨5, 0⟩ (.var ⟨7, 1⟩)

/-- `t1 | Int → t3 | {x: t1 | t7}`. -/
def collapsing : Ty :=
  .union [.var ⟨1, 0⟩, .fn .int (.var ⟨3, 0⟩), .record [("x", .var ⟨1, 0⟩)] (some ⟨7, 0⟩)]

/-- The numbers of rows. -/
def sampleRows (id : Int) : Prop := id = 4 ∨ id = 5 ∨ id = 7

theorem plain_collapsing : collapsing.Plain := by
  have hrecord : (Ty.record [("x", .var ⟨1, 0⟩)] (some ⟨7, 0⟩)).Plain :=
    .record _ (List.pairwise_singleton _ _) (by simpa using .var _)
  refine .union (by decide) ?_ (by simp) (by simp [equiv, equivUnder])
  simpa using ⟨.var _, .fn (.prim _) (.var _), hrecord⟩

theorem composable_renamed : renamed.Composable sampleRows :=
  (composable_empty.bind _ (.var _) trivial (by simp [sampleRows])).bind _ (.var _) trivial
    fun _ => .inr ⟨_, rfl, .inl rfl⟩

theorem composable_filling : filling.Composable sampleRows :=
  (composable_empty.bind _ (.fn (.prim _) (.var _)) ⟨trivial, trivial⟩ (by simp [sampleRows])).bind
    _ (.record _ (List.pairwise_singleton _ _) (by simpa using .var _))
    (kinded_record.2 ⟨by simp [Kinded], by simp [sampleRows]⟩) fun _ => .inl ⟨_, _, rfl⟩

theorem composable_returning : returning.Composable sampleRows :=
  (composable_empty.bind _ (.var _) trivial (by simp [sampleRows])).bind _ (.var _) trivial
    fun _ => .inr ⟨_, rfl, .inr (.inr rfl)⟩

theorem composition_law_collapsing :
    ((filling.after renamed).apply collapsing).levelless =
        (filling.apply (renamed.apply collapsing)).levelless ∧
      (∀ (id : Int) (w : TyVar), (filling.after renamed).get? id = some (.var w) → w.id ≠ id) ∧
      (((returning.after filling).after renamed).apply collapsing).levelless =
        ((returning.after (filling.after renamed)).apply collapsing).levelless :=
  have hkinded : collapsing.Kinded (fun _ => True) sampleRows :=
    kinded_union.2 (by simp [Kinded, KindedFields, sampleRows, Ty.int])
  have h := composition_law composable_filling composable_renamed composable_renamed
    plain_collapsing hkinded
  have h' := composition_law composable_returning composable_filling composable_renamed
    plain_collapsing hkinded
  ⟨h.1, h.2.1, h'.2.2⟩

/-- Of the three alternatives two are left, and the row is the one that it was in the beginning. -/
example : ((returning.after (filling.after renamed)).apply collapsing).levelless =
    .union [.fn .int (.var ⟨1, 0⟩),
      .record [("x", .fn .int (.var ⟨1, 0⟩)), ("z", .var ⟨1, 0⟩)] (some ⟨7, 0⟩)] := by
  cbv

end Subst

end RowTypes
