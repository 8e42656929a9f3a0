import RowTypes.Proofs.BuiltTypes
import RowTypes.Proofs.DisciplinedSchemes

/-!
# Types in normal form

The constructors of unions and intersections leave neither nested ones, nor repetitions, nor such
with fewer than two parts behind.  Types that are so all the way down are canonical.

A constructor has nothing to build from only if all it is given falls away when it is taken apart,
and of a canonical type something always remains: the type itself, or its parts.  So from canonical
types, if there are any, there is always something to build, and it is canonical again.  That makes
being canonical a discipline: whatever is done with types keeps it.
-/

namespace RowTypes

open Ty

variable {t : Ty} {ts : List Ty} {k : Compound}

namespace Ty

/-- Types whose unions have two alternatives or more, none of them a union and none equivalent to a
later one, and whose intersections are alike. -/
inductive Canonical : Ty → Prop where
  | var (v : TyVar) : Canonical (.var v)
  | prim (name : String) : Canonical (.prim name)
  | lit (value : String) : Canonical (.lit value)
  | fn {p r : Ty} : Canonical p → Canonical r → Canonical (.fn p r)
  | record {fs : List (String × Ty)} (row : Option TyVar) : (∀ f ∈ fs, Canonical f.2) →
      Canonical (.record fs row)
  | tuple {ts : List Ty} : (∀ t ∈ ts, Canonical t) → Canonical (.tuple ts)
  | union {ts : List Ty} : 2 ≤ ts.length → (∀ t ∈ ts, Canonical t) →
      (∀ t ∈ ts, ∀ us, t ≠ .union us) → ts.Pairwise (fun a b => equiv a b = false) →
      Canonical (.union ts)
  | inter {ts : List Ty} : 2 ≤ ts.length → (∀ t ∈ ts, Canonical t) →
      (∀ t ∈ ts, ∀ us, t ≠ .inter us) → ts.Pairwise (fun a b => equiv a b = false) →
      Canonical (.inter ts)
  | named (name : String) {ts : List Ty} : (∀ t ∈ ts, Canonical t) → Canonical (.named name ts)
  | mu (v : TyVar) {t : Ty} : Canonical t → Canonical (.mu v t)

theorem canonical_of : (k.of ts).Canonical ↔ 2 ≤ ts.length ∧ (∀ t ∈ ts, t.Canonical) ∧
    (∀ t ∈ ts, ∀ us, t ≠ k.of us) ∧ ts.Pairwise fun a b => equiv a b = false := by
  constructor
  · intro h
    cases k with
    | union => cases h with | union hlen hts hflat hdistinct => exact ⟨hlen, hts, hflat, hdistinct⟩
    | inter => cases h with | inter hlen hts hflat hdistinct => exact ⟨hlen, hts, hflat, hdistinct⟩
  · rintro ⟨hlen, hts, hflat, hdistinct⟩
    cases k with
    | union => exact .union hlen hts hflat hdistinct
    | inter => exact .inter hlen hts hflat hdistinct

end Ty

namespace Compound

/-- The compound of some types, unless there is none. -/
def build? : Compound → List Ty → Option Ty
  | union => unionOf?
  | inter => interOf?

theorem distinct_ne_nil (h : ts ≠ []) : distinct ts ≠ [] := by
  obtain ⟨t, ht⟩ := List.exists_mem_of_ne_nil ts h
  obtain ⟨a, ha, -⟩ := exists_mem_distinct ht
  exact List.ne_nil_of_mem ha

/-- Only of nothing there is no compound. -/
theorem build?_eq_none_iff : k.build? ts = none ↔ ts.flatMap k.parts = [] := by
  have hnone : k.build? ts = none ↔ distinct (ts.flatMap k.parts) = [] := by
    rw [← parts_of]
    cases k with
    | union =>
        show unionOf? ts = none ↔ distinct (alternativesAll ts) = []
        rw [unionOf?]
        split <;> simp_all
    | inter =>
        show interOf? ts = none ↔ distinct (membersOfAll ts) = []
        rw [interOf?]
        split <;> simp_all
  refine hnone.trans ⟨fun h => ?_, fun h => by rw [h]; rfl⟩
  by_contra hne
  exact distinct_ne_nil hne h

theorem build?_eq_some (h : ts.flatMap k.parts ≠ []) : k.build? ts = some (k.build ts) := by
  cases hbuild : k.build? ts with
  | none => exact absurd (build?_eq_none_iff.1 hbuild) h
  | some t =>
      cases k with
      | union => exact congrArg some (congrArg (Option.getD · (Ty.union [])) hbuild).symm
      | inter => exact congrArg some (congrArg (Option.getD · (Ty.inter [])) hbuild).symm

theorem parts_ne_nil (h : t.Canonical) : k.parts t ≠ [] := by
  by_cases hof : ∃ us, t = k.of us
  · obtain ⟨us, rfl⟩ := hof
    obtain ⟨hlen, -, hflat, -⟩ := canonical_of.1 h
    rw [parts_of, flatMap_parts_eq_self hflat]
    exact List.ne_nil_of_length_pos (by omega)
  · rw [parts_of_ne fun us hus => hof ⟨us, hus⟩]
    exact List.cons_ne_nil _ _

theorem flatMap_parts_ne_nil (hne : ts ≠ []) (h : ∀ t ∈ ts, t.Canonical) :
    ts.flatMap k.parts ≠ [] := by
  obtain ⟨t, ht⟩ := List.exists_mem_of_ne_nil ts hne
  obtain ⟨a, ha⟩ := List.exists_mem_of_ne_nil _ (parts_ne_nil (k := k) (h t ht))
  exact List.ne_nil_of_mem (List.mem_flatMap.2 ⟨t, ht, ha⟩)

/-- From canonical types something can be built. -/
theorem build?_eq_build (hne : ts ≠ []) (h : ∀ t ∈ ts, t.Canonical) :
    k.build? ts = some (k.build ts) := build?_eq_some (flatMap_parts_ne_nil hne h)

/-- What is built from canonical types is canonical. -/
theorem canonical_build (hne : ts ≠ []) (h : ∀ t ∈ ts, t.Canonical) : (k.build ts).Canonical := by
  have hall : ∀ a ∈ distinct (ts.flatMap k.parts), a.Canonical ∧ ∀ us, a ≠ k.of us := by
    intro a ha
    obtain ⟨t, ht, ha⟩ := List.mem_flatMap.1 (mem_distinct ha)
    exact ⟨of_mem_parts (fun _ h => (canonical_of.1 h).2.1) (h t ht) ha,
      fun us => ne_of_mem_parts us ha⟩
  have hpos := List.length_pos_of_ne_nil (distinct_ne_nil (flatMap_parts_ne_nil (k := k) hne h))
  rw [build_eq]
  by_cases hlen : (distinct (ts.flatMap k.parts)).length = 1
  · obtain ⟨t, ht⟩ := List.length_eq_one_iff.1 hlen
    rw [ht] at hall ⊢
    exact (hall t (List.mem_singleton.2 rfl)).1
  · rw [together_of_length_ne hlen]
    exact canonical_of.2 ⟨by omega, fun t ht => (hall t ht).1, fun t ht => (hall t ht).2,
      pairwise_distinct _⟩

end Compound

theorem Ty.Canonical.stable (h : t.Canonical) : t.Stable := by
  induction h with
  | var v => exact .var v
  | prim name => exact .prim name
  | lit value => exact .lit value
  | fn _ _ ihp ihr => exact .fn ihp ihr
  | record row _ ih => exact .record row ih
  | tuple _ ih => exact .tuple ih
  | union hlen _ hflat hdistinct ih =>
      exact .union (Compound.build_eq_of (k := .union) (by omega) hflat hdistinct) ih
  | inter hlen _ hflat hdistinct ih =>
      exact .inter (Compound.build_eq_of (k := .inter) (by omega) hflat hdistinct) ih
  | named name _ ih => exact .named name ih
  | mu v _ ih => exact .mu v ih

/-- Types are canonical, whatever their unknowns stand for. -/
def normality : Discipline where
  Stage := Nat
  count := id
  Before := (· ≤ ·)
  Plain := fun _ _ => True
  Row := fun _ _ => True
  Ok := fun _ t => t.Canonical
  refl := Nat.le_refl
  trans := Nat.le_trans
  plain_later := fun _ _ => trivial
  row_later := fun _ _ => trivial
  ok_later := fun _ h => h
  exists_var := fun w _ => ⟨w + 1, Nat.le_succ w, rfl, .var _⟩
  exists_row := Discipline.exists_row_counted
  sorts := fun _ => .inr ⟨fun _ => trivial, fun v => ⟨fun _ => trivial, fun _ => .var v⟩⟩
  plain_of_var := fun _ => trivial
  prim := fun _ name => .prim name
  lit := fun _ value => .lit value
  fn := ⟨fun h => by cases h with | fn hp hr => exact ⟨hp, hr⟩, fun h => .fn h.1 h.2⟩
  record := ⟨fun h => by cases h with | record _ hfs => exact ⟨hfs, fun _ _ => trivial⟩,
    fun h => .record _ h.1⟩
  tuple := ⟨fun h => by cases h with | tuple h => exact h, .tuple⟩
  named := ⟨fun h => by cases h with | named _ h => exact h, .named _⟩
  mu := ⟨fun h => by cases h with | mu _ h => exact ⟨.var _, h, False.elim⟩,
    fun h => .mu _ h.2.1⟩
  union := fun h => (canonical_of (k := .union) |>.1 h).2.1
  inter := fun h => (canonical_of (k := .inter) |>.1 h).2.1
  unionOf := fun hne h => Compound.canonical_build (k := .union) hne h
  interOf := fun hne h => Compound.canonical_build (k := .inter) hne h

namespace Ty.Canonical

variable {v : TyVar} {fs : List (String × Ty)} {row : Option TyVar} {name : String}

theorem fields (h : (Ty.record fs row).Canonical) : ∀ f ∈ fs, f.2.Canonical :=
  (normality.record (w := (0 : Nat)) |>.1 h).1

theorem elems (h : (Ty.tuple ts).Canonical) : ∀ t ∈ ts, t.Canonical :=
  normality.tuple (w := (0 : Nat)) |>.1 h

theorem alternatives (h : (Ty.union ts).Canonical) : ∀ t ∈ ts, t.Canonical :=
  normality.union (w := (0 : Nat)) h

theorem members (h : (Ty.inter ts).Canonical) : ∀ t ∈ ts, t.Canonical :=
  normality.inter (w := (0 : Nat)) h

theorem args (h : (Ty.named name ts).Canonical) : ∀ t ∈ ts, t.Canonical :=
  normality.named (w := (0 : Nat)) |>.1 h

theorem body (h : (Ty.mu v t).Canonical) : t.Canonical :=
  (normality.mu (w := (0 : Nat)) |>.1 h).2.1

/-- Canonical types are passed on by refining. -/
theorem inherited : Ty.Inherited Ty.Canonical :=
  Discipline.inherited_ok (D := normality) (w := (0 : Nat))

theorem unfold (h : (Ty.mu v t).Canonical) : (Ty.unfold v t).Canonical := inherited.unfold h

theorem unfoldOnce (h : t.Canonical) : t.unfoldOnce.Canonical := inherited.unfoldOnce h

theorem narrow (h : t.Canonical) (p : Pattern) : (t.narrow p).Canonical := inherited.narrow h p

end Ty.Canonical

/-- A substitution of canonical types, each under the number of its unknown. -/
abbrev Subst.Canonical (s : Subst) : Prop := normality.Sends (0 : Nat) s

theorem canonical_of_binds {w : Nat} {id : Int} (h : normality.Binds w id t) : t.Canonical := by
  rcases h with ⟨-, h⟩ | ⟨-, h⟩
  · exact h
  · cases t with
    | var v => exact .var v
    | record fs row => exact h
    | _ => exact h.elim

theorem Subst.Canonical.apply {s : Subst} (hs : s.Canonical) (ht : t.Canonical) :
    (s.apply t).Canonical := Discipline.Sends.apply (D := normality) hs ht

theorem Subst.Canonical.after {s next : Subst} (hnext : next.Canonical) (hs : s.Canonical) :
    (next.after s).Canonical := Discipline.Sends.after (D := normality) hnext hs

theorem Subst.canonical_empty : Subst.Canonical .empty := Discipline.sends_empty

theorem Subst.Canonical.ty {s : Subst} (hs : s.Canonical) {entry : Int × Binding}
    (hentry : entry ∈ s.bindings) : entry.2.ty.Canonical := canonical_of_binds (hs entry hentry).2

/-- The definitions of a registry, and the normal forms that it remembers, are canonical. -/
structure Registry.Canonical (r : Registry) : Prop where
  definitions : ∀ entry ∈ r.definitions, entry.2.body.Canonical
  memo : ∀ entry ∈ r.memo, entry.2.Canonical

theorem Registry.registers_iff {r : Registry} {w : Nat} :
    normality.Registers w r ↔ r.Canonical :=
  ⟨fun h => ⟨fun entry hentry => (h.definitions entry hentry).body, h.memo⟩,
    fun h => ⟨fun entry hentry =>
      ⟨fun _ _ => trivial, h.definitions entry hentry, False.elim⟩, h.memo⟩⟩

theorem Registry.Canonical.lookup? {r : Registry} (hr : r.Canonical) {name : String}
    {d : Definition} (hd : r.lookup? name = some d) : d.body.Canonical :=
  hr.definitions _ (Table.mem_of_get? hd)

theorem canonical_expand? {d : Definition} {args : List Ty} {u : Ty} (hd : d.body.Canonical)
    (hargs : ∀ t ∈ args, t.Canonical) (hu : d.expand? args = some u) : u.Canonical :=
  Discipline.Defines.expand? (D := normality) (w := (0 : Nat))
    ⟨fun _ _ => trivial, hd, False.elim⟩ hargs hu

theorem Registry.Canonical.expand? {r : Registry} (hr : r.Canonical) {name : String}
    {args : List Ty} {u : Ty} (hargs : ∀ t ∈ args, t.Canonical)
    (hu : r.expand? name args = some u) : u.Canonical := by
  obtain ⟨d, hd, hu⟩ := Option.bind_eq_some_iff.1 hu
  exact canonical_expand? (hr.lookup? hd) hargs hu

end RowTypes
