import RowTypes.Proofs.Alternatives
import RowTypes.Proofs.Equivalence
import RowTypes.Proofs.Values

/-!
# The values of a type

Coverage has nothing to say about intersections, and its values are those of types without them.
Narrowing and subtyping do meet intersections, whose values are those that all members have.

What a record type has is read in two ways.  A match goes by the fields that a closed record lists,
so there it has those and no others; subtyping goes by width, so there it has at least those.
Everything else is the same under both readings, and so is the one fact that needs an induction
over values: equivalent types have the same ones, as long as they are tame.
-/

namespace RowTypes

namespace Ty

/-- A value is of a type. A record has the fields of its type; under the strict reading it has no
others if the type is closed. -/
inductive Admits (strict : Bool) : Ty → Value → Prop where
  | int (n : Int) : Admits strict .int (.const (.int n))
  | string (s : String) : Admits strict .string (.const (.string s))
  | bool (b : Bool) : Admits strict .bool (.const (.bool b))
  | unit : Admits strict .unit (.const .unit)
  | lit (s : String) : Admits strict (.lit s) (.const (.string s))
  | fn (p r : Ty) (id : Nat) : Admits strict (.fn p r) (.closure id)
  | tuple {ts : List Ty} {vs : List Value} : ts.length = vs.length →
      (∀ entry ∈ ts.zip vs, Admits strict entry.1 entry.2) → Admits strict (.tuple ts) (.tuple vs)
  | record {fs : List (String × Ty)} {row : Option TyVar} {vs : List (String × Value)} :
      (∀ f ∈ fs, (Table.get? f.1 vs).isSome = true) →
      (∀ f ∈ fs, ∀ v, Table.get? f.1 vs = some v → Admits strict f.2 v) →
      (strict = true → row = none → ∀ f ∈ vs, f.1 ∈ Table.keys fs) →
      Admits strict (.record fs row) (.record vs)
  | union {ts : List Ty} {t : Ty} {v : Value} : t ∈ ts → Admits strict t v →
      Admits strict (.union ts) v
  | inter {ts : List Ty} {v : Value} : (∀ t ∈ ts, Admits strict t v) → Admits strict (.inter ts) v
  | mu {b : TyVar} {t : Ty} {v : Value} : Admits strict (.unfold b t) v → Admits strict (.mu b t) v

variable {strict : Bool} {t : Ty} {ts : List Ty} {v : Value}

theorem admits_union : (Ty.union ts).Admits strict v ↔ ∃ t ∈ ts, t.Admits strict v := by
  constructor
  · intro h
    cases h with
    | union ht h => exact ⟨_, ht, h⟩
  · rintro ⟨t, ht, h⟩
    exact .union ht h

theorem admits_inter : (Ty.inter ts).Admits strict v ↔ ∀ t ∈ ts, t.Admits strict v := by
  constructor
  · intro h
    cases h with
    | inter h => exact h
  · exact .inter

theorem admits_tuple : (Ty.tuple ts).Admits strict v ↔
    ∃ vs, v = .tuple vs ∧ List.Forall₂ (Admits strict) ts vs := by
  constructor
  · intro h
    cases h with
    | tuple hlen h =>
        exact ⟨_, rfl, List.forall₂_iff_zip.2 ⟨hlen, fun hab => h _ hab⟩⟩
  · rintro ⟨vs, rfl, h⟩
    obtain ⟨hlen, h⟩ := List.forall₂_iff_zip.1 h
    exact .tuple hlen fun entry hentry => h hentry

theorem admits_record {fs : List (String × Ty)} {row : Option TyVar} :
    (Ty.record fs row).Admits strict v ↔ ∃ vs, v = .record vs ∧
      (∀ f ∈ fs, ∃ w, Table.get? f.1 vs = some w ∧ f.2.Admits strict w) ∧
      (strict = true → row = none → ∀ f ∈ vs, f.1 ∈ Table.keys fs) := by
  constructor
  · intro h
    cases h with
    | record hthere h hno =>
        refine ⟨_, rfl, fun f hf => ?_, hno⟩
        obtain ⟨w, hw⟩ := Option.isSome_iff_exists.1 (hthere f hf)
        exact ⟨w, hw, h f hf w hw⟩
  · rintro ⟨vs, rfl, h, hno⟩
    refine .record (fun f hf => ?_) (fun f hf w hw => ?_) hno
    · obtain ⟨w, hw, -⟩ := h f hf
      rw [hw]
      rfl
    · obtain ⟨w', hw', h⟩ := h f hf
      rw [hw'] at hw
      cases hw
      exact h

/-- Equivalent types have the same values, if neither is recursive. -/
theorem Admits.of_equiv {a : Ty} (h : a.Admits strict v) :
    ∀ {b : Ty}, a.Tame → b.Tame → equiv a b = true → b.Admits strict v := by
  induction h with
  | int n => intro b _ _ hab; rw [eq_prim_of_equiv hab]; exact .int n
  | string s => intro b _ _ hab; rw [eq_prim_of_equiv hab]; exact .string s
  | bool c => intro b _ _ hab; rw [eq_prim_of_equiv hab]; exact .bool c
  | unit => intro b _ _ hab; rw [eq_prim_of_equiv hab]; exact .unit
  | lit s => intro b _ _ hab; rw [eq_lit_of_equiv hab]; exact .lit s
  | fn p r id =>
      intro b _ _ hab
      obtain ⟨p', r', rfl, -⟩ := exists_fn_of_equiv hab
      exact .fn p' r' id
  | @tuple as vs hlen _ ih =>
      intro b ha hb hab
      obtain ⟨bs, rfl, helems⟩ := exists_tuple_of_equiv hab
      cases ha with
      | tuple has =>
          cases hb with
          | tuple hbs =>
              refine .tuple (helems.length_eq.symm.trans hlen) fun entry hentry => ?_
              -- The elements at one place: of the two types, and of the value.
              obtain ⟨i, hi, rfl⟩ := List.getElem_of_mem hentry
              rw [List.length_zip, lt_min_iff] at hi
              rw [List.getElem_zip]
              have hi' : i < as.length := hlen ▸ hi.2
              refine ih (as[i], vs[i]) ?_ (has _ (List.getElem_mem hi')) (hbs _ (List.getElem_mem _))
                (helems.get hi' hi.1)
              rw [List.mem_iff_getElem]
              exact ⟨i, by simp [hi', hi.2], by simp⟩
  | @record fs row vs hthere _ hno ih =>
      intro b ha hb hab
      obtain ⟨gs, row', rfl⟩ := exists_record_of_equiv hab
      cases ha with
      | record _ hasc hfs =>
          cases hb with
          | record _ hasc' hgs =>
              obtain ⟨hrow, hall⟩ := (equiv_record hasc hasc').1 hab
              -- A field of one is a field of the other, of an equivalent type.
              have hfield : ∀ g ∈ gs, ∃ t, (g.1, t) ∈ fs ∧ equiv t g.2 = true := by
                intro g hg
                have h := hall g.1
                rw [Table.get?_of_mem hasc' hg] at h
                generalize hx : Table.get? g.1 fs = x at h
                cases h with
                | some h => exact ⟨_, Table.mem_of_get? hx, h⟩
              refine .record (fun g hg => ?_) (fun g hg w hw => ?_) fun hs hr f hf => ?_
              · obtain ⟨t, ht, -⟩ := hfield g hg
                exact hthere (g.1, t) ht
              · obtain ⟨t, ht, htg⟩ := hfield g hg
                exact ih (g.1, t) ht w hw (hfs _ ht) (hgs _ hg) htg
              · have hrow : row = none := by
                  rw [hr] at hrow
                  simpa using hrow
                have h := hall f.1
                rw [← Table.get?_isSome]
                have hkey := Table.get?_isSome.2 (hno hs hrow f hf)
                generalize Table.get? f.1 fs = x, Table.get? f.1 gs = y at h hkey
                cases h with
                | some _ => rfl
                | none => cases hkey
  | union ht _ ih =>
      intro b ha hb hab
      obtain ⟨bs, rfl, -, hto, -⟩ := exists_union_of_equiv hab
      cases ha with
      | union has =>
          cases hb with
          | union hbs =>
              obtain ⟨u, hu, htu⟩ := hto _ ht
              exact .union hu (ih (has _ ht) (hbs u hu) htu)
  | inter _ ih =>
      intro b ha hb hab
      obtain ⟨bs, rfl, -, -, hfrom⟩ := exists_inter_of_equiv hab
      cases ha with
      | inter has =>
          cases hb with
          | inter hbs =>
              refine .inter fun u hu => ?_
              obtain ⟨t, ht, htu⟩ := hfrom u hu
              exact ih t ht (has t ht) (hbs u hu) htu
  | mu _ _ => intro b ha; cases ha

end Ty

end RowTypes
