import RowTypes.Proofs.Levels
import RowTypes.Proofs.Renumbering

/-!
# Types with other unknowns

Some unknowns of a type are given others in their place, by number.  Substitutions build unions and
intersections anew, while renaming leaves them as they stand; both come to the same as long as no
two numbers fall together.  Then equivalent alternatives were equivalent before, because equivalence
looks at numbers only to compare them (`equiv_rename`), so nothing is left out of what is built, and
replacing unknowns by unknowns is renaming (`Subst.apply_eq_rename`).

A substitution that has nothing to do with the old names, nor with the new ones, may be applied
before renaming or after (`Subst.apply_rename`).
-/

namespace RowTypes

open Ty

/-- The unknown that takes the place of an unknown. -/
def TyVar.rename (r : Int → Option TyVar) (v : TyVar) : TyVar := (r v.id).getD v

mutual

/-- A type with other unknowns in the place of some of its free ones. -/
def Ty.rename (r : Int → Option TyVar) : Ty → Ty
  | .var v => .var (v.rename r)
  | .prim name => .prim name
  | .lit value => .lit value
  | .fn p q => .fn (Ty.rename r p) (Ty.rename r q)
  | .record fs row => .record (renameFields r fs) (row.map (TyVar.rename r))
  | .tuple ts => .tuple (renameAll r ts)
  | .union ts => .union (renameAll r ts)
  | .inter ts => .inter (renameAll r ts)
  | .named name ts => .named name (renameAll r ts)
  | .mu v t => .mu v (Ty.rename (fun id => if id = v.id then none else r id) t)

def renameAll (r : Int → Option TyVar) : List Ty → List Ty
  | [] => []
  | t :: ts => Ty.rename r t :: renameAll r ts

def renameFields (r : Int → Option TyVar) : List (String × Ty) → List (String × Ty)
  | [] => []
  | (name, t) :: fs => (name, Ty.rename r t) :: renameFields r fs

end

/-- The number that takes the place of a number. -/
def renumber (r : Int → Option TyVar) (id : Int) : Int := ((r id).map (·.id)).getD id

variable {r : Int → Option TyVar} {P : Int → Prop} {s : Subst} {k : Compound} {a b t : Ty}
  {ts : List Ty} {id : Int}

theorem TyVar.id_rename (v : TyVar) : (v.rename r).id = renumber r v.id := by
  unfold TyVar.rename renumber
  cases r v.id <;> rfl

theorem renumber_of_none (h : r id = none) : renumber r id = id := by rw [renumber, h]; rfl

theorem renumber_of_some {v : TyVar} (h : r id = some v) : renumber r id = v.id := by
  rw [renumber, h]
  rfl

namespace Ty

theorem renameAll_eq_map (ts : List Ty) : renameAll r ts = ts.map (Ty.rename r) := by
  induction ts with
  | nil => rfl
  | cons t ts ih => rw [renameAll, ih, List.map_cons]

theorem rename_record (fs : List (String × Ty)) (row : Option TyVar) :
    (Ty.record fs row).rename r =
      .record (fs.map fun f => (f.1, f.2.rename r)) (row.map (TyVar.rename r)) := by
  rw [Ty.rename]
  congr 1
  induction fs with
  | nil => rfl
  | cons f fs ih => rw [renameFields, ih, List.map_cons]

theorem rename_tuple (ts : List Ty) : (Ty.tuple ts).rename r = .tuple (ts.map (Ty.rename r)) := by
  rw [Ty.rename, renameAll_eq_map]

theorem rename_named (name : String) (ts : List Ty) :
    (Ty.named name ts).rename r = .named name (ts.map (Ty.rename r)) := by
  rw [Ty.rename, renameAll_eq_map]

theorem rename_of (k : Compound) (ts : List Ty) :
    (k.of ts).rename r = k.of (ts.map (Ty.rename r)) := by
  rw [← renameAll_eq_map]
  cases k <;> rfl

theorem rename_union (ts : List Ty) : (Ty.union ts).rename r = .union (ts.map (Ty.rename r)) :=
  rename_of .union ts

theorem rename_inter (ts : List Ty) : (Ty.inter ts).rename r = .inter (ts.map (Ty.rename r)) :=
  rename_of .inter ts

/-- Renaming makes nothing a compound. -/
theorem rename_ne_of (h : ∀ us, t ≠ k.of us) : ∀ us, t.rename r ≠ k.of us := by
  intro us
  cases k with
  | union =>
      cases t with
      | union ts => exact absurd rfl (h ts)
      | _ => rintro ⟨⟩
  | inter =>
      cases t with
      | inter ts => exact absurd rfl (h ts)
      | _ => rintro ⟨⟩

theorem Tame.rename (h : t.Tame) : (t.rename r).Tame := by
  induction h with
  | var v => exact .var _
  | prim name => exact .prim name
  | lit value => exact .lit value
  | fn _ _ ihp ihr => exact .fn ihp ihr
  | record row hasc _ ih =>
      rw [rename_record]
      exact .record _ (hasc.map (Ty.rename r)) (List.forall_mem_map.2 ih)
  | tuple _ ih => rw [rename_tuple]; exact .tuple (List.forall_mem_map.2 ih)
  | union _ ih => rw [rename_union]; exact .union (List.forall_mem_map.2 ih)
  | inter _ ih => rw [rename_inter]; exact .inter (List.forall_mem_map.2 ih)
  | named name _ ih => rw [rename_named]; exact .named name (List.forall_mem_map.2 ih)

/-- A type whose unknowns all keep their names stays as it is. -/
theorem rename_eq_self (h : t.Tame) (hr : t.Over fun id => r id = none) : t.rename r = t := by
  have hvar : ∀ {v : TyVar}, r v.id = none → v.rename r = v := by
    intro v hv
    rw [TyVar.rename, hv]
    rfl
  have hall : ∀ {ts : List Ty}, (∀ t ∈ ts, (t.Over fun id => r id = none) → t.rename r = t) →
      (∀ t ∈ ts, t.Over fun id => r id = none) → ts.map (Ty.rename r) = ts := fun ih hr =>
    (List.map_congr_left fun t ht => ih t ht (hr t ht)).trans (List.map_id _)
  induction h with
  | var v => rw [Ty.rename, hvar (over_var.1 hr)]
  | prim name => rfl
  | lit value => rfl
  | fn _ _ ihp ihr => rw [Ty.rename, ihp (over_fn.1 hr).1, ihr (over_fn.1 hr).2]
  | @record fs row _ _ ih =>
      obtain ⟨hfs, hrow⟩ := over_record.1 hr
      rw [rename_record]
      congr 1
      · refine (List.map_congr_left fun f hf => ?_).trans (List.map_id _)
        rw [ih f hf (hfs f hf)]
        rfl
      · cases row with
        | none => rfl
        | some v => rw [Option.map_some, hvar (hrow v rfl)]
  | tuple _ ih => rw [rename_tuple, hall ih (over_tuple.1 hr)]
  | union _ ih => rw [rename_union, hall ih (over_union.1 hr)]
  | inter _ ih => rw [rename_inter, hall ih (over_inter.1 hr)]
  | named name _ ih => rw [rename_named, hall ih (over_named.1 hr)]

/-- The numbers of a renamed type are the new ones. -/
theorem mentions_rename (h : t.Tame) :
    (t.rename r).Mentions id ↔ ∃ old, t.Mentions old ∧ renumber r old = id := by
  have hall : ∀ {α : Type} {l : List α} {f : α → Ty}, (∀ x ∈ l, (((f x).rename r).Mentions id ↔
      ∃ old, (f x).Mentions old ∧ renumber r old = id)) →
      ((∃ x ∈ l, ((f x).rename r).Mentions id) ↔
        ∃ old, (∃ x ∈ l, (f x).Mentions old) ∧ renumber r old = id) := by
    intro α l f ih
    constructor
    · rintro ⟨x, hx, hid⟩
      obtain ⟨old, hold, heq⟩ := (ih x hx).1 hid
      exact ⟨old, ⟨x, hx, hold⟩, heq⟩
    · rintro ⟨old, ⟨x, hx, hold⟩, heq⟩
      exact ⟨x, hx, (ih x hx).2 ⟨old, hold, heq⟩⟩
  have hlist : ∀ {ts : List Ty}, (∀ t ∈ ts, ((t.rename r).Mentions id ↔
      ∃ old, t.Mentions old ∧ renumber r old = id)) →
      ((∃ t ∈ ts.map (Ty.rename r), t.Mentions id) ↔
        ∃ old, (∃ t ∈ ts, t.Mentions old) ∧ renumber r old = id) := fun ih => by
    simpa only [List.mem_map, exists_exists_and_eq_and] using hall (f := fun t => t) ih
  induction h with
  | var v => simp [Ty.rename, TyVar.id_rename]
  | prim name => simp [Ty.rename]
  | lit value => simp [Ty.rename]
  | fn _ _ ihp ihr => simp only [Ty.rename, mentions_fn, ihp, ihr, or_and_right, exists_or]
  | @record fs row _ _ ih =>
      rw [rename_record]
      simp only [mentions_record, or_and_right, exists_or, List.mem_map, exists_exists_and_eq_and]
      refine or_congr (hall ih) ?_
      cases row with
      | none => simp
      | some v => simp [TyVar.id_rename]
  | tuple _ ih => rw [rename_tuple, mentions_tuple, hlist ih]; simp only [mentions_tuple]
  | union _ ih => rw [rename_union, mentions_union, hlist ih]; simp only [mentions_union]
  | inter _ ih => rw [rename_inter, mentions_inter, hlist ih]; simp only [mentions_inter]
  | named name _ ih => rw [rename_named, mentions_named, hlist ih]; simp only [mentions_named]

/-! ## Nothing falls together -/

theorem alikeAll_map {F : Int → Int → Prop} {f g : Ty → Ty}
    (h : ∀ t ∈ ts, Alike F (f t) (g t)) : AlikeAll F (ts.map f) (ts.map g) := by
  induction ts with
  | nil => exact .nil
  | cons t ts ih =>
      exact .cons (h t List.mem_cons_self) (ih fun u hu => h u (List.mem_cons_of_mem _ hu))

theorem alikeFields_map {F : Int → Int → Prop} {f g : Ty → Ty} {fs : List (String × Ty)}
    (h : ∀ e ∈ fs, Alike F (f e.2) (g e.2)) :
    AlikeFields F (fs.map fun e => (e.1, f e.2)) (fs.map fun e => (e.1, g e.2)) := by
  induction fs with
  | nil => exact .nil
  | cons e fs ih =>
      exact .cons e.1 (h e List.mem_cons_self) (ih fun u hu => h u (List.mem_cons_of_mem _ hu))

/-- Apart from levels, a renamed type differs in its numbers alone. -/
theorem alike_rename (h : t.Tame) (ht : t.Over P) :
    Alike (fun x y => P x ∧ renumber r x = y) t.levelless (t.rename r).levelless := by
  have hvar : ∀ {v : TyVar}, P v.id →
      v.levelless.Alike (fun x y => P x ∧ renumber r x = y) (v.rename r).levelless :=
    fun {v} hv => ⟨⟨hv, v.id_rename.symm⟩, rfl⟩
  have hall : ∀ {ts : List Ty}, (∀ t ∈ ts, t.Over P →
      Alike (fun x y => P x ∧ renumber r x = y) t.levelless (t.rename r).levelless) →
      (∀ t ∈ ts, t.Over P) → AlikeAll (fun x y => P x ∧ renumber r x = y) (ts.map levelless)
        ((ts.map (Ty.rename r)).map levelless) := fun ih ht => by
    rw [List.map_map]
    exact alikeAll_map fun t hmem => ih t hmem (ht t hmem)
  induction h with
  | var v => exact .var (hvar (over_var.1 ht))
  | prim name => exact .prim name
  | lit value => exact .lit value
  | fn _ _ ihp ihr => exact .fn (ihp (over_fn.1 ht).1) (ihr (over_fn.1 ht).2)
  | @record fs row _ _ ih =>
      obtain ⟨hfs, hrow⟩ := over_record.1 ht
      rw [rename_record, levelless_record, levelless_record, List.map_map]
      refine .record (alikeFields_map (g := fun u => (u.rename r).levelless)
        fun f hf => ih f hf (hfs f hf)) ?_
      cases row with
      | none => exact .none
      | some v => exact .some (hvar (hrow v rfl))
  | tuple _ ih =>
      rw [rename_tuple, levelless_tuple, levelless_tuple]
      exact .tuple (hall ih (over_tuple.1 ht))
  | @union ts _ ih =>
      have hlevelless := levelless_of .union
      rw [rename_union, show (Ty.union ts).levelless = _ from hlevelless ts,
        show (Ty.union (ts.map (Ty.rename r))).levelless = _ from hlevelless _]
      exact .union (hall ih (over_union.1 ht))
  | @inter ts _ ih =>
      have hlevelless := levelless_of .inter
      rw [rename_inter, show (Ty.inter ts).levelless = _ from hlevelless ts,
        show (Ty.inter (ts.map (Ty.rename r))).levelless = _ from hlevelless _]
      exact .inter (hall ih (over_inter.1 ht))
  | named name _ ih =>
      rw [rename_named, levelless_named, levelless_named]
      exact .named name (hall ih (over_named.1 ht))

/-- Of the numbers that there are, no two get one name. -/
theorem oneToOne_renumber (hP : Set.InjOn (renumber r) {id | P id}) :
    OneToOne fun x y => P x ∧ renumber r x = y := by
  rintro x y x' y' ⟨hx, rfl⟩ ⟨hx', rfl⟩
  exact ⟨fun h => by rw [h], fun h => hP hx hx' h⟩

/-- If no two numbers fall together, equivalence sees no difference. -/
theorem equiv_rename (hP : Set.InjOn (renumber r) {id | P id}) (ha : a.Tame) (hb : b.Tame)
    (haP : a.Over P) (hbP : b.Over P) : equiv (a.rename r) (b.rename r) = equiv a b := by
  rw [← equiv_levelless_iff ha.rename hb.rename, ← equiv_levelless_iff ha hb]
  have hF := oneToOne_renumber hP
  exact (equivUnder_congr hF .nil (alike_rename ha haP) (alike_rename hb hbP)).symm

theorem rename_build (hP : Set.InjOn (renumber r) {id | P id}) (h : ∀ t ∈ ts, t.Tame)
    (hover : ∀ t ∈ ts, t.Over P) : (k.build ts).rename r = k.build (ts.map (Ty.rename r)) := by
  have htame := Compound.tame_of_mem_parts (k := k) h
  have hparts : ∀ a ∈ ts.flatMap k.parts, a.Over P := by
    intro a ha
    obtain ⟨t, ht, ha⟩ := List.mem_flatMap.1 ha
    refine Compound.of_mem_parts (fun us hus => ?_) (hover t ht) ha
    cases k with
    | union => exact over_union.1 hus
    | inter => exact over_inter.1 hus
  exact build_map (rename_of k) (fun _ => rename_ne_of) h fun a ha b hb =>
    equiv_rename hP (htame a ha) (htame b hb) (hparts a ha) (hparts b hb)

theorem Built.rename (hP : Set.InjOn (renumber r) {id | P id}) (h : t.Plain) (ht : t.Over P) :
    (t.rename r).Plain := by
  have hof : ∀ {k : Compound} {ts : List Ty}, (k.of ts).Plain →
      (∀ t ∈ ts, t.Over P → (t.rename r).Plain) → (∀ t ∈ ts, t.Over P) →
      ((k.of ts).rename r).Plain := by
    intro k ts h ih hover
    have hts := (built_of_iff.1 h).2.1
    exact built_map (rename_of k) (fun _ => rename_ne_of) h (fun t ht => ih t ht (hover t ht))
      fun a ha b hb => equiv_rename hP (hts a ha).tame (hts b hb).tame (hover a ha) (hover b hb)
  induction h with
  | var v => exact .var _
  | prim name => exact .prim name
  | lit value => exact .lit value
  | fn _ _ ihp ihr => exact .fn (ihp (over_fn.1 ht).1) (ihr (over_fn.1 ht).2)
  | record row hasc _ ih =>
      rw [rename_record]
      exact .record _ (hasc.map (Ty.rename r))
        (List.forall_mem_map.2 fun f hf => ih f hf ((over_record.1 ht).1 f hf))
  | tuple _ ih =>
      rw [rename_tuple]
      exact .tuple (List.forall_mem_map.2 fun t hmem => ih t hmem (over_tuple.1 ht t hmem))
  | union hlen hts hflat hdistinct ih =>
      exact hof (k := .union) (.union hlen hts hflat hdistinct) ih (over_union.1 ht)
  | inter hlen hts hflat hdistinct ih =>
      exact hof (k := .inter) (.inter hlen hts hflat hdistinct) ih (over_inter.1 ht)
  | named name _ ih =>
      rw [rename_named]
      exact .named name (List.forall_mem_map.2 fun t hmem => ih t hmem (over_named.1 ht t hmem))
  | mu _ h => exact h.elim

end Ty

/-! ## Renaming and substituting -/

namespace Subst

/-- Putting unknowns in the place of unknowns is renaming, as long as no two fall together. -/
theorem apply_eq_rename (hs : ∀ id, s.get? id = (r id).map .var)
    (hP : Set.InjOn (renumber r) {id | P id}) (h : t.Plain) (ht : t.Over P) :
    s.apply t = t.rename r := by
  have hall : ∀ {ts : List Ty}, (∀ t ∈ ts, t.Over P → s.apply t = t.rename r) →
      (∀ t ∈ ts, t.Over P) → ts.map s.apply = ts.map (Ty.rename r) := fun ih hover =>
    List.map_congr_left fun t ht => ih t ht (hover t ht)
  have hof : ∀ {k : Compound} {ts : List Ty}, (k.of ts).Plain → (k.of ts).Over P →
      (∀ t ∈ ts, t.Over P → s.apply t = t.rename r) → (∀ t ∈ ts, t.Over P) →
      s.apply (k.of ts) = (k.of ts).rename r := by
    intro k ts h hkover ih hover
    have hbuilt := h.rename hP hkover
    rw [rename_of] at hbuilt
    rw [h.apply_of, hall ih hover, hbuilt.build_eq, rename_of]
  induction h with
  | var v =>
      rw [apply_var, hs, Ty.rename, TyVar.rename]
      cases r v.id <;> rfl
  | prim name => exact apply_prim s name
  | lit value => exact apply_lit s value
  | fn _ _ ihp ihr => rw [apply_fn, ihp (over_fn.1 ht).1, ihr (over_fn.1 ht).2, Ty.rename]
  | @record fs row _ _ ih =>
      have hfs : (fs.map fun f => (f.1, s.apply f.2)) = fs.map fun f => (f.1, f.2.rename r) :=
        List.map_congr_left fun f hf => by rw [ih f hf ((over_record.1 ht).1 f hf)]
      rw [rename_record]
      cases row with
      | none => rw [apply_closed, hfs]; rfl
      | some v =>
          rw [apply_open, hfs, hs, Option.map_some, TyVar.rename]
          cases r v.id <;> rfl
  | tuple _ ih => rw [apply_tuple, rename_tuple, hall ih (over_tuple.1 ht)]
  | union hlen hts hflat hdistinct ih =>
      exact hof (k := .union) (.union hlen hts hflat hdistinct) ht ih (over_union.1 ht)
  | inter hlen hts hflat hdistinct ih =>
      exact hof (k := .inter) (.inter hlen hts hflat hdistinct) ht ih (over_inter.1 ht)
  | named name _ ih => rw [apply_named, rename_named, hall ih (over_named.1 ht)]
  | mu _ h => exact h.elim

theorem rename_splice {fs : List (String × Ty)} {row : TyVar} (hfs : Table.Ascending fs)
    (bound : Option Ty) : (RecordTy.splice fs row bound).toTy.rename r =
      (RecordTy.splice (fs.map fun f => (f.1, f.2.rename r)) (row.rename r)
        (bound.map (Ty.rename r))).toTy := by
  have hstay : (Ty.record fs (some row)).rename r =
      .record (fs.map fun f => (f.1, f.2.rename r)) (some (row.rename r)) :=
    Ty.rename_record fs (some row)
  cases bound with
  | none => exact hstay
  | some u =>
      cases u with
      | var w => exact Ty.rename_record fs (some w)
      | record more rest =>
          rw [Option.map_some, Ty.rename_record]
          exact (Ty.rename_record _ _).trans
            (congrArg (Ty.record · (rest.map (TyVar.rename r))) (hfs.map_underlay (Ty.rename r) more))
      | _ => exact hstay

/-- A substitution comes to the same before renaming and after, if it touches neither old names nor
new ones and does not bring any of them in. -/
theorem apply_rename (hP : Set.InjOn (renumber r) {id | P id}) (h : t.Plain) (ht : t.Over P)
    (hs : ∀ id u, s.get? id = some u → u.Plain ∧ u.Over P ∧ u.Over fun id => r id = none)
    (hold : ∀ id v, r id = some v → s.get? id = none ∧ s.get? v.id = none) :
    s.apply (t.rename r) = (s.apply t).rename r := by
  have hget : ∀ v : TyVar, s.get? (v.rename r).id = (s.get? v.id).map (Ty.rename r) := by
    intro v
    rw [TyVar.rename]
    cases hv : r v.id with
    | some w =>
        obtain ⟨hfrom, hto⟩ := hold _ _ hv
        exact hto.trans (by rw [hfrom]; rfl)
    | none =>
        show s.get? v.id = _
        cases hu : s.get? v.id with
        | none => rfl
        | some u => rw [Option.map_some, rename_eq_self (hs _ u hu).1.tame (hs _ u hu).2.2]
  have hall : ∀ {ts : List Ty}, (∀ t ∈ ts, t.Over P → s.apply (t.rename r) = (s.apply t).rename r) →
      (∀ t ∈ ts, t.Over P) →
      (ts.map (Ty.rename r)).map s.apply = (ts.map s.apply).map (Ty.rename r) := by
    intro ts ih hover
    rw [List.map_map, List.map_map]
    exact List.map_congr_left fun t ht => ih t ht (hover t ht)
  have hof : ∀ {k : Compound} {ts : List Ty}, (k.of ts).Plain → (k.of ts).Over P →
      (∀ t ∈ ts, t.Over P → s.apply (t.rename r) = (s.apply t).rename r) →
      (∀ t ∈ ts, t.Over P) → s.apply ((k.of ts).rename r) = (s.apply (k.of ts)).rename r := by
    intro k ts h hkover ih hover
    have hts := (built_of_iff.1 h).2.1
    have hrenamed := h.rename hP hkover
    rw [rename_of] at hrenamed ⊢
    rw [hrenamed.apply_of, h.apply_of, hall ih hover]
    refine (rename_build hP ?_ ?_).symm
    · exact List.forall_mem_map.2 fun t ht => ((hts t ht).apply fun id u hu => (hs id u hu).1).tame
    · exact List.forall_mem_map.2 fun t ht =>
        over_apply (hover t ht) fun id u _ hu => (hs id u hu).2.1
  induction h with
  | var v =>
      rw [Ty.rename, apply_var, apply_var, hget]
      cases s.get? v.id <;> rfl
  | prim name => rw [apply_prim, Ty.rename, apply_prim]
  | lit value => rw [apply_lit, Ty.rename, apply_lit]
  | fn _ _ ihp ihr =>
      rw [apply_fn, Ty.rename, Ty.rename, apply_fn, ihp (over_fn.1 ht).1, ihr (over_fn.1 ht).2]
  | @record fs row hasc _ ih =>
      have hfs : (fs.map fun f => (f.1, f.2.rename r)).map (fun f => (f.1, s.apply f.2)) =
          (fs.map fun f => (f.1, s.apply f.2)).map fun f => (f.1, f.2.rename r) := by
        rw [List.map_map, List.map_map]
        exact List.map_congr_left fun f hf =>
          congrArg (Prod.mk f.1) (ih f hf ((over_record.1 ht).1 f hf))
      cases row with
      | none =>
          rw [apply_closed, rename_record, rename_record, ← hfs]
          exact apply_closed _ _
      | some row =>
          rw [rename_record, apply_open, rename_splice (hasc.map s.apply), ← hfs]
          refine (apply_open _ _ _).trans ?_
          rw [hget]
  | tuple _ ih =>
      rw [apply_tuple, rename_tuple, rename_tuple, apply_tuple, hall ih (over_tuple.1 ht)]
  | union hlen hts hflat hdistinct ih =>
      exact hof (k := .union) (.union hlen hts hflat hdistinct) ht ih (over_union.1 ht)
  | inter hlen hts hflat hdistinct ih =>
      exact hof (k := .inter) (.inter hlen hts hflat hdistinct) ht ih (over_inter.1 ht)
  | named name _ ih =>
      rw [apply_named, rename_named, rename_named, apply_named, hall ih (over_named.1 ht)]
  | mu _ h => exact h.elim

end Subst

/-! ## Free unknowns -/

namespace VarSet

theorem mem_insert {v w : TyVar} : ∀ {s : VarSet}, w ∈ VarSet.insert v s → w = v ∨ w ∈ s
  | [], h => .inl (List.mem_singleton.1 h)
  | x :: s, h => by
      rw [VarSet.insert] at h
      split at h
      · exact .inr h
      · split at h
        · exact List.mem_cons.1 h
        · rcases List.mem_cons.1 h with rfl | h
          · exact .inr List.mem_cons_self
          · exact (mem_insert h).imp_right (List.mem_cons_of_mem x)

theorem ascending_insert (v : TyVar) : ∀ {s : VarSet}, (s.Pairwise fun v w => v.id < w.id) →
    (VarSet.insert v s).Pairwise fun v w => v.id < w.id
  | [], _ => List.pairwise_singleton _ v
  | x :: s, h => by
      obtain ⟨hx, hs⟩ := List.pairwise_cons.1 h
      rw [VarSet.insert]
      split
      · exact h
      · next hne =>
          split
          · next hlt =>
              refine List.pairwise_cons.2 ⟨List.forall_mem_cons.2 ⟨hlt, fun w hw => ?_⟩, h⟩
              exact hlt.trans (hx w hw)
          · next hge =>
              refine List.pairwise_cons.2 ⟨fun w hw => ?_, ascending_insert v hs⟩
              rcases mem_insert hw with rfl | hw
              · omega
              · exact hx w hw

end VarSet

namespace Ty

mutual

/-- Whatever inserting renamed unknowns keeps is kept when the free ones are collected. -/
theorem freeInto_rename {S : VarSet → Prop}
    (hS : ∀ (v : TyVar) (s : VarSet), P v.id → S s → S (VarSet.insert (v.rename r) s)) :
    ∀ (t : Ty) (bound : List Int) (s : VarSet), t.Tame → t.Over P → S s →
      S (freeInto bound (t.rename r) s)
  | .var v, bound, s, _, ht, hs => by
      rw [Ty.rename, freeInto]
      split
      · exact hs
      · exact hS v s (over_var.1 ht) hs
  | .prim _, bound, s, _, _, hs => hs
  | .lit _, bound, s, _, _, hs => hs
  | .fn p q, bound, s, h, ht, hs => by
      cases h with
      | fn hp hq =>
          exact freeInto_rename hS q bound _ hq (over_fn.1 ht).2
            (freeInto_rename hS p bound s hp (over_fn.1 ht).1 hs)
  | .record fs row, bound, s, h, ht, hs => by
      cases h with
      | record _ _ hfs =>
          obtain ⟨hover, hrow⟩ := over_record.1 ht
          have hfields := freeFields_rename hS fs bound s hfs hover hs
          rw [Ty.rename]
          cases row with
          | none => exact hfields
          | some v =>
              rw [Option.map_some, freeInto]
              split
              · exact hfields
              · exact hS v _ (hrow v rfl) hfields
  | .tuple ts, bound, s, h, ht, hs => by
      cases h with
      | tuple h => exact freeAll_rename hS ts bound s h (over_tuple.1 ht) hs
  | .union ts, bound, s, h, ht, hs => by
      cases h with
      | union h => exact freeAll_rename hS ts bound s h (over_union.1 ht) hs
  | .inter ts, bound, s, h, ht, hs => by
      cases h with
      | inter h => exact freeAll_rename hS ts bound s h (over_inter.1 ht) hs
  | .named _ ts, bound, s, h, ht, hs => by
      cases h with
      | named _ h => exact freeAll_rename hS ts bound s h (over_named.1 ht) hs
  | .mu _ _, _, _, h, _, _ => by cases h

theorem freeAll_rename {S : VarSet → Prop}
    (hS : ∀ (v : TyVar) (s : VarSet), P v.id → S s → S (VarSet.insert (v.rename r) s)) :
    ∀ (ts : List Ty) (bound : List Int) (s : VarSet), (∀ t ∈ ts, t.Tame) →
      (∀ t ∈ ts, t.Over P) → S s → S (freeAll bound (renameAll r ts) s)
  | [], bound, s, _, _, hs => hs
  | t :: ts, bound, s, h, ht, hs => by
      obtain ⟨htame, htames⟩ := List.forall_mem_cons.1 h
      obtain ⟨hover, hovers⟩ := List.forall_mem_cons.1 ht
      exact freeAll_rename hS ts bound _ htames hovers
        (freeInto_rename hS t bound s htame hover hs)

theorem freeFields_rename {S : VarSet → Prop}
    (hS : ∀ (v : TyVar) (s : VarSet), P v.id → S s → S (VarSet.insert (v.rename r) s)) :
    ∀ (fs : List (String × Ty)) (bound : List Int) (s : VarSet), (∀ f ∈ fs, f.2.Tame) →
      (∀ f ∈ fs, f.2.Over P) → S s → S (freeFields bound (renameFields r fs) s)
  | [], bound, s, _, _, hs => hs
  | (_, t) :: fs, bound, s, h, ht, hs => by
      obtain ⟨htame, htames⟩ := List.forall_mem_cons.1 h
      obtain ⟨hover, hovers⟩ := List.forall_mem_cons.1 ht
      exact freeFields_rename hS fs bound _ htames hovers
        (freeInto_rename hS t bound s htame hover hs)

end

/-- The free unknowns of a renamed type are renamed ones, in ascending order. -/
theorem free_rename (h : t.Tame) (ht : t.Over P) :
    ((t.rename r).free.Pairwise fun v w => v.id < w.id) ∧
      ∀ v ∈ (t.rename r).free, ∃ w : TyVar, P w.id ∧ v = w.rename r := by
  refine freeInto_rename (S := fun s => (s.Pairwise fun v w => v.id < w.id) ∧
    ∀ v ∈ s, ∃ w : TyVar, P w.id ∧ v = w.rename r) (fun w s hw hs => ?_) t [] [] h ht ⟨.nil, by simp⟩
  refine ⟨VarSet.ascending_insert _ hs.1, fun v hv => ?_⟩
  rcases VarSet.mem_insert hv with rfl | hv
  · exact ⟨w, hw, rfl⟩
  · exact hs.2 v hv

theorem ascending_free (h : t.Tame) : t.free.Pairwise fun v w => v.id < w.id := by
  have hsame : t.rename (fun _ => none) = t := rename_eq_self h fun _ _ => rfl
  have hfree := (free_rename (r := fun _ => none) h (P := fun _ => True) fun _ _ => trivial).1
  rwa [hsame] at hfree

end Ty

end RowTypes
