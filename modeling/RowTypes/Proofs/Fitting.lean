import Mathlib.Data.List.Zip
import RowTypes.Proofs.Literals
import RowTypes.Proofs.RecordUnification
import RowTypes.Solver.Subtype

/-!
# Types that fit

Unification makes two types one, but for literals, which it lets go with strings.  Types that differ
in no more than that are said to fit.  The relation is not transitive, since two literals may each
go with strings and not with each other; but it is symmetric, it lasts under substitutions, and
types that fit are unified, and accepted as subtypes of each other, without binding anything.
-/

namespace RowTypes

namespace Ty

/-- Types that are one, but for literals, which go with strings. -/
inductive Fits : Ty → Ty → Prop where
  | var {v w : TyVar} : v.id = w.id → Fits (.var v) (.var w)
  | prim (name : String) : Fits (.prim name) (.prim name)
  | lit (value : String) : Fits (.lit value) (.lit value)
  | asString (value : String) : Fits (.lit value) .string
  | asLit (value : String) : Fits .string (.lit value)
  | fn {p r p' r' : Ty} : Fits p p' → Fits r r' → Fits (.fn p r) (.fn p' r')
  | tuple {as bs : List Ty} : as.length = bs.length → (∀ e ∈ as.zip bs, Fits e.1 e.2) →
      Fits (.tuple as) (.tuple bs)
  | record {fs gs : List (String × Ty)} {row row' : Option TyVar} :
      row.map TyVar.id = row'.map TyVar.id →
      (∀ name, (Table.get? name fs).isSome = (Table.get? name gs).isSome) →
      (∀ name a b, Table.get? name fs = some a → Table.get? name gs = some b → Fits a b) →
      Fits (.record fs row) (.record gs row')

variable {κ : Sorts} {a b : Ty}

/-- Records fit if they have the same row, and for each name both have fields that fit or none has
one. -/
theorem fits_record {fs gs : List (String × Ty)} {row row' : Option TyVar} :
    Fits (.record fs row) (.record gs row') ↔ row.map TyVar.id = row'.map TyVar.id ∧
      ∀ name, Option.Rel Fits (Table.get? name fs) (Table.get? name gs) := by
  constructor
  · intro h
    cases h with
    | record hrow hnames hfields =>
        refine ⟨hrow, fun name => ?_⟩
        have hname := hnames name
        have hfield := hfields name
        cases ha : Table.get? name fs <;> cases hb : Table.get? name gs <;> rw [ha, hb] at hname
        · exact .none
        · cases hname
        · cases hname
        · exact .some (hfield _ _ ha hb)
  · rintro ⟨hrow, hall⟩
    refine .record hrow (fun name => ?_) fun name a b ha hb => ?_
    · have hname := hall name
      generalize Table.get? name fs = x, Table.get? name gs = y at hname
      cases hname <;> rfl
    · have hname := hall name
      rw [ha, hb] at hname
      cases hname with
      | some hab => exact hab

theorem Fits.symm (h : Fits a b) : Fits b a := by
  induction h with
  | var hid => exact .var hid.symm
  | prim name => exact .prim name
  | lit value => exact .lit value
  | asString value => exact .asLit value
  | asLit value => exact .asString value
  | fn _ _ ihp ihr => exact .fn ihp ihr
  | tuple hlen _ ih =>
      refine .tuple hlen.symm fun e he => ih e.swap ?_
      rw [← List.zip_swap]
      exact List.mem_map_of_mem he
  | record hrow hnames _ ih =>
      exact .record hrow.symm (fun name => (hnames name).symm)
        fun name a b ha hb => ih name b a hb ha

theorem fits_of_equiv (ha : a.Unmixed κ) (hb : b.Unmixed κ) (h : a.equiv b = true) :
    Fits a b := by
  induction ha generalizing b with
  | var _ =>
      obtain ⟨w, rfl, hid⟩ := exists_var_of_equiv h
      exact .var hid
  | prim name =>
      obtain rfl := eq_prim_of_equiv h
      exact .prim name
  | lit value =>
      obtain rfl := eq_lit_of_equiv h
      exact .lit value
  | fn _ _ ihp ihr =>
      obtain ⟨p', r', rfl, h₁, h₂⟩ := exists_fn_of_equiv h
      cases hb with
      | fn hp hr => exact .fn (ihp hp h₁) (ihr hr h₂)
  | @tuple as _ ih =>
      obtain ⟨bs, rfl, helems⟩ := exists_tuple_of_equiv h
      cases hb with
      | tuple hbs =>
          obtain ⟨hlen, hall⟩ := List.forall₂_iff_zip.1 helems
          refine .tuple hlen fun e he => ?_
          obtain ⟨ha, hb⟩ := List.of_mem_zip he
          exact ih e.1 ha (hbs e.2 hb) (hall he)
  | @record fs row _ hasc _ _ ih =>
      obtain ⟨gs, row', rfl⟩ := exists_record_of_equiv h
      cases hb with
      | record _ hasc' _ hgs =>
          obtain ⟨hrow, hall⟩ := (equiv_record hasc hasc').1 h
          refine fits_record.2 ⟨hrow, fun name => ?_⟩
          have hname := hall name
          cases hx : Table.get? name fs <;> cases hy : Table.get? name gs <;>
            rw [hx, hy] at hname <;> cases hname
          · exact .none
          · next h => exact .some (ih _ (Table.mem_of_get? hx) (hgs _ (Table.mem_of_get? hy)) h)

theorem fits_refl (ha : a.Unmixed κ) : Fits a a := fits_of_equiv ha ha (equiv_refl ha.tame)

end Ty

/-! ## Substitutions -/

namespace Subst

/-- What a row stands for under a substitution. -/
def rest (s : Subst) : Option TyVar → RecordTy
  | none => ⟨[], none⟩
  | some v =>
    match s.get? v.id with
    | some (.record gs rest) => ⟨gs, rest⟩
    | _ => ⟨[], some v⟩

variable {κ : Sorts} {s : Subst} {a b : Ty}

/-- A record under a substitution has its own fields, and behind them those of its row. -/
theorem Settled.apply_record (hs : s.Settled κ) (fs : List (String × Ty)) {row : Option TyVar}
    (hrow : ∀ v, row = some v → κ.isRow v.id) :
    s.apply (.record fs row) =
      .record (Table.underlay (fs.map fun f => (f.1, s.apply f.2)) (s.rest row).fields)
        (s.rest row).row := by
  cases row with
  | none => exact apply_closed s fs
  | some v =>
      rcases hs.row_cases (hrow v rfl) with h | ⟨gs, rest, h⟩
      · rw [apply_open_unbound h, Subst.rest, h]
        rfl
      · rw [apply_open_bound h, Subst.rest, h]

theorem rest_congr {row row' : Option TyVar} (h : row.map TyVar.id = row'.map TyVar.id) :
    (s.rest row).fields = (s.rest row').fields ∧
      (s.rest row).row.map TyVar.id = (s.rest row').row.map TyVar.id := by
  cases row with
  | none =>
      cases row' with
      | none => exact ⟨rfl, rfl⟩
      | some w => cases h
  | some v =>
      cases row' with
      | none => cases h
      | some w =>
          have hid : v.id = w.id := Option.some.inj h
          rw [rest, rest, hid]
          split
          · exact ⟨rfl, rfl⟩
          · exact ⟨rfl, h⟩

/-- The fields behind a row, where a settled substitution has them. -/
theorem Settled.unmixed_rest (hs : s.Settled κ) {row : Option TyVar} {name : String} {t : Ty}
    (h : Table.get? name (s.rest row).fields = some t) : t.Unmixed κ := by
  cases row with
  | none => cases h
  | some v =>
      rw [rest] at h
      split at h
      · next hget =>
          cases hs.unmixed hget with
          | record _ _ _ hgs => exact hgs _ (Table.mem_of_get? h)
      · cases h

/-- Types that fit do so under every substitution. -/
theorem Settled.fits (hs : s.Settled κ) (ha : a.Unmixed κ) (hb : b.Unmixed κ) (h : a.Fits b) :
    (s.apply a).Fits (s.apply b) := by
  induction h with
  | @var v w hid =>
      rw [apply_var, apply_var, hid]
      cases hget : s.get? w.id with
      | none => exact .var hid
      | some t => exact Ty.fits_refl (hs.unmixed hget)
  | prim name => rw [apply_prim]; exact .prim name
  | lit value => rw [apply_lit]; exact .lit value
  | asString value => rw [apply_lit, Ty.string, apply_prim]; exact .asString value
  | asLit value => rw [apply_lit, Ty.string, apply_prim]; exact .asLit value
  | fn _ _ ihp ihr =>
      cases ha with
      | fn hp hr =>
          cases hb with
          | fn hp' hr' => rw [apply_fn, apply_fn]; exact .fn (ihp hp hp') (ihr hr hr')
  | tuple hlen _ ih =>
      cases ha with
      | tuple has =>
          cases hb with
          | tuple hbs =>
              rw [apply_tuple, apply_tuple]
              refine .tuple (by simpa using hlen) fun e he => ?_
              rw [List.zip_map, List.mem_map] at he
              obtain ⟨e, he, rfl⟩ := he
              obtain ⟨ha, hb⟩ := List.of_mem_zip he
              exact ih e he (has _ ha) (hbs _ hb)
  | @record fs gs _ _ hrow hnames _ ih =>
      cases ha with
      | record _ _ hra hfs =>
          cases hb with
          | record _ _ hrb hgs =>
              obtain ⟨hfields, hrest⟩ := rest_congr (s := s) hrow
              rw [hs.apply_record _ hra, hs.apply_record _ hrb]
              refine Ty.fits_record.2 ⟨hrest, fun name => ?_⟩
              rw [Table.get?_underlay, Table.get?_underlay, Table.get?_map, Table.get?_map, hfields]
              have hname := hnames name
              cases hx : Table.get? name fs with
              | some x =>
                  rw [hx, Option.isSome_some, eq_comm, Option.isSome_iff_exists] at hname
                  obtain ⟨y, hy⟩ := hname
                  rw [hy]
                  exact .some (ih name x y hx hy (hfs _ (Table.mem_of_get? hx))
                    (hgs _ (Table.mem_of_get? hy)))
              | none =>
                  rw [hx, Option.isSome_none, eq_comm, Option.isSome_eq_false_iff,
                    Option.isNone_iff_eq_none] at hname
                  rw [hname]
                  cases hz : Table.get? name _ with
                  | none => exact .none
                  | some z => exact .some (Ty.fits_refl (hs.unmixed_rest hz))

end Subst

/-! ## Acceptance -/

namespace Relate

/-- A run binds nothing and does not fail, unless the limit is exceeded. -/
def Accepts (m : Relate Subst) : Prop :=
  ∀ p, Ends m p (fun s q => Advances p q ∧ s = .empty) fun _ q => q.exceeded = true

section Accepts

variable {ctx : Context} {rel : Relation} {m : Relate Subst} {a b : Ty}

theorem accepts_pure : Accepts (pure .empty) := fun p => ends_pure ⟨.refl p, rfl⟩

theorem Accepts.bind {f : Subst → Relate Subst} (h : Accepts m) (hf : Accepts (f .empty)) :
    Accepts (m >>= f) := by
  refine fun p => Ends.bind ((h p).imp ?_ fun _ _ h => h)
  rintro s q ⟨hadv, rfl⟩
  exact (hf q).imp (fun s r hs => ⟨hadv.trans hs.1, hs.2⟩) fun _ _ h => h

theorem accepts_orElseThrow {d : Diagnostic → Diagnostic} (h : Accepts m) :
    Accepts (orElseThrow m d) := fun p => ends_orElseThrow (h p)

theorem accepts_exceed (a b : Ty) : Accepts (exceed ctx a b) := fun _ => ends_exceed rfl

theorem accepts_thread : ∀ {pairs : List (Ty × Ty)}, (∀ e ∈ pairs, Accepts (rel e.1 e.2)) →
    Accepts (thread rel pairs .empty)
  | [], _ => accepts_pure
  | (a, b) :: pairs, h => by
      obtain ⟨hhead, htail⟩ := List.forall_mem_cons.1 h
      rw [thread, Subst.apply_empty, Subst.apply_empty]
      exact hhead.bind (accepts_thread htail)

/-- The names that only one of two records has, where there are none. -/
theorem diff_eq_nil {ra rb : RecordTy}
    (h : ∀ name, (ra.field? name).isSome = (rb.field? name).isSome) :
    Text.Names.diff ra.names rb.names = [] := by
  refine List.eq_nil_iff_forall_not_mem.2 fun name hname => ?_
  obtain ⟨hra, hrb⟩ := RecordTy.mem_diff.1 hname
  rw [h name] at hra
  simp_all

theorem accepts_unifyRecords {fs gs : List (String × Ty)} {row row' : Option TyVar}
    (h : (Ty.record fs row).Fits (.record gs row'))
    (hrel : ∀ {a b : Ty}, a.Fits b → Accepts (rel a b)) :
    Accepts (unifyRecords ctx rel ⟨fs, row⟩ ⟨gs, row'⟩) := by
  cases h with
  | record hrow hnames hfields =>
      have hdiff : Text.Names.diff (RecordTy.mk fs row).names (RecordTy.mk gs row').names = [] :=
        diff_eq_nil hnames
      have hdiff' : Text.Names.diff (RecordTy.mk gs row').names (RecordTy.mk fs row).names = [] :=
        diff_eq_nil fun name => (hnames name).symm
      have hgrows : ∀ r : RecordTy, r.rowGrows .empty = false := by
        rintro ⟨fs, _ | v⟩
        · rfl
        · simp [RecordTy.rowGrows, Subst.apply_empty, Ty.record?]
      unfold unifyRecords
      refine (accepts_thread fun e he => ?_).bind ?_
      · obtain ⟨name, ha, hb⟩ := RecordTy.mem_sharedFields.1 he
        exact hrel (hfields name _ _ ha hb)
      · rw [if_neg (by simp [hgrows]), hdiff, hdiff', unifyRows, rowUnder_eq fun _ _ => rfl,
          rowUnder_eq fun _ _ => rfl]
        cases row with
        | none =>
            cases row' with
            | none => exact accepts_pure
            | some w => cases hrow
        | some v =>
            cases row' with
            | none => cases hrow
            | some w =>
                have hid : v.id = w.id := Option.some.inj hrow
                dsimp only
                rw [if_pos hid]
                exact accepts_pure

theorem accepts_unify : ∀ (n : Nat) {a b : Ty}, a.Fits b → Accepts (unify ctx n a b)
  | 0, a, b, _ => accepts_exceed a b
  | n + 1, a, b, h => by
      show Accepts (unifyStep ctx (unify ctx n) a b)
      unfold unifyStep
      split
      · exact accepts_pure
      · next hne =>
          cases h with
          | var hid => exact absurd (Ty.equiv_var.2 hid) hne
          | prim name => exact absurd (Ty.equiv_refl (.prim name)) hne
          | lit value => exact absurd (Ty.equiv_refl (.lit value)) hne
          | asString value => exact accepts_pure
          | asLit value => exact accepts_pure
          | fn hp hr =>
              refine accepts_thread (List.forall_mem_cons.2 ⟨accepts_unify n hp, ?_⟩)
              exact List.forall_mem_singleton.2 (accepts_unify n hr)
          | tuple hlen hall =>
              show Accepts (if _ then _ else throw _)
              rw [if_pos hlen]
              exact accepts_thread fun e he => accepts_unify n (hall e he)
          | record hrow hnames hfields =>
              exact accepts_unifyRecords (.record hrow hnames hfields) (accepts_unify n)

theorem accepts_unifyWidth {sub super : RecordTy} : ∀ {gs : List (String × Ty)},
    (∀ g ∈ gs, ∀ a, sub.field? g.1 = some a → Accepts (rel a g.2)) →
      Accepts (unifyWidth ctx rel sub super gs .empty)
  | [], _ => accepts_pure
  | (name, t) :: gs, h => by
      obtain ⟨hhead, htail⟩ := List.forall_mem_cons.1 h
      rw [unifyWidth]
      split
      · exact accepts_unifyWidth htail
      · next u hu =>
          rw [Subst.apply_empty, Subst.apply_empty]
          exact (accepts_orElseThrow (hhead u hu)).bind (accepts_unifyWidth htail)

theorem accepts_subtypeRecords {fs gs : List (String × Ty)} {row row' : Option TyVar}
    (hgs : Table.Ascending gs) (h : (Ty.record fs row).Fits (.record gs row'))
    (hrel : ∀ {a b : Ty}, a.Fits b → Accepts (rel a b)) :
    Accepts (subtypeRecords ctx rel ⟨fs, row⟩ ⟨gs, row'⟩) := by
  cases h with
  | record hrow hnames hfields =>
      refine (accepts_unifyWidth fun g hg a ha => ?_).bind ?_
      · exact hrel (hfields g.1 a g.2 ha (Table.get?_of_mem hgs hg))
      · have hmissing : ((RecordTy.mk gs row').names.filter fun name =>
            ((RecordTy.mk fs row).field? name).isNone) = [] := by
          refine List.filter_eq_nil_iff.2 fun name hname => ?_
          have hthere : (Table.get? name fs).isSome = true :=
            (hnames name).trans (RecordTy.mem_names.1 hname)
          rw [RecordTy.field?, Option.isNone_iff_eq_none, ← Option.not_isSome_iff_eq_none]
          exact not_not_intro hthere
        rw [hmissing]
        exact accepts_pure

theorem accepts_subtype {κ : Sorts} : ∀ (n : Nat) {a b : Ty}, a.Unmixed κ → b.Unmixed κ →
    a.Fits b → Accepts (subtype ctx n a b)
  | 0, a, b, _, _, _ => accepts_exceed a b
  | n + 1, a, b, ha, hb, h => by
      show Accepts (subtypeStep ctx (unify ctx n) (subtype ctx n) a b)
      unfold subtypeStep
      split
      · exact accepts_pure
      · next hne =>
          cases h with
          | var hid => exact absurd (Ty.equiv_var.2 hid) hne
          | prim name => exact absurd (Ty.equiv_refl (.prim name)) hne
          | lit value => exact absurd (Ty.equiv_refl (.lit value)) hne
          | asString value => exact accepts_pure
          | asLit value => exact accepts_orElseThrow (accepts_unify n (.asLit value))
          | fn hp hr =>
              cases ha with
              | fn hap har =>
                  cases hb with
                  | fn hbp hbr =>
                      refine (accepts_subtype n hbp hap hp.symm).bind ?_
                      rw [Subst.apply_empty, Subst.apply_empty]
                      exact (accepts_subtype n har hbr hr).bind accepts_pure
          | tuple hlen hall =>
              cases ha with
              | tuple has =>
                  cases hb with
                  | tuple hbs =>
                      show Accepts (if _ then _ else subtypeUnified _ _ _ _)
                      rw [if_pos hlen]
                      refine accepts_thread fun e he => ?_
                      obtain ⟨hea, heb⟩ := List.of_mem_zip he
                      exact accepts_subtype n (has _ hea) (hbs _ heb) (hall e he)
          | record hrow hnames hfields =>
              cases hb with
              | record _ hasc _ _ =>
                  exact accepts_subtypeRecords hasc (.record hrow hnames hfields) (accepts_unify n)

end Accepts

end Relate

end RowTypes
