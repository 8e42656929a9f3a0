import Mathlib.SetTheory.Ordinal.Rank
import RowTypes.Proofs.BuiltTypes
import RowTypes.Proofs.Coinduction

/-!
# Approximations of types

What a type with references and recursive types means is the tree that it stands for when all of
them are expanded for ever.  Its approximation to some depth is what one sees of that tree: at the
head references are expanded and recursive types unfolded, unions and intersections are flattened
and rid of repetitions, and below as many constructors as the depth says everything is cut off.

An approximation is a type without recursion and without references that can be expanded, and two
approximations count as the same if they have one form.  That the expansion of heads ends is what
`Guarded` asks for: a reference comes back to itself only below a record, a function or a tuple.
Then every type without recursion has an approximation to every depth, and types of one form have
the same ones.
-/

namespace RowTypes

open Ty

/-- What is left of a type where an approximation is cut off: the union without alternatives. -/
def Ty.cut : Ty := .union []

namespace Registry

/-- The second type is what one sees of the first one down to a depth. -/
inductive Approximates (r : Registry) : Nat → Ty → Ty → Prop where
  | cut (t : Ty) : Approximates r 0 t Ty.cut
  | var {n : Nat} (v : TyVar) : Approximates r (n + 1) (.var v) (.var v)
  | prim {n : Nat} (name : String) : Approximates r (n + 1) (.prim name) (.prim name)
  | lit {n : Nat} (value : String) : Approximates r (n + 1) (.lit value) (.lit value)
  | fn {n : Nat} {p q a b : Ty} : Approximates r n p a → Approximates r n q b →
      Approximates r (n + 1) (.fn p q) (.fn a b)
  | record {n : Nat} {fs : List (String × Ty)} (row : Option TyVar) (g : Ty → Ty) :
      (∀ f ∈ fs, Approximates r n f.2 (g f.2)) →
      Approximates r (n + 1) (.record fs row) (.record (fs.map fun f => (f.1, g f.2)) row)
  | tuple {n : Nat} {ts : List Ty} (g : Ty → Ty) : (∀ t ∈ ts, Approximates r n t (g t)) →
      Approximates r (n + 1) (.tuple ts) (.tuple (ts.map g))
  | union {n : Nat} {ts : List Ty} (g : Ty → Ty) : (∀ t ∈ ts, Approximates r (n + 1) t (g t)) →
      Approximates r (n + 1) (.union ts) (unionOf (ts.map g))
  | inter {n : Nat} {ts : List Ty} (g : Ty → Ty) : (∀ t ∈ ts, Approximates r (n + 1) t (g t)) →
      Approximates r (n + 1) (.inter ts) (interOf (ts.map g))
  | expand {n : Nat} {name : String} {args : List Ty} {t a : Ty} : r.expand? name args = some t →
      Approximates r (n + 1) t a → Approximates r (n + 1) (.named name args) a
  | kept {n : Nat} {name : String} {args : List Ty} (g : Ty → Ty) : r.expand? name args = none →
      (∀ t ∈ args, Approximates r n t (g t)) →
      Approximates r (n + 1) (.named name args) (.named name (args.map g))
  | unfold {n : Nat} {v : TyVar} {t a : Ty} : Approximates r (n + 1) (t.unfold v) a →
      Approximates r (n + 1) (.mu v t) a

variable {r : Registry} {n : Nat} {t u v a b : Ty} {ts us : List Ty} {k : Compound} {f : Form}
  {name : String} {args : List Ty}

theorem Approximates.compound (g : Ty → Ty) (h : ∀ t ∈ ts, r.Approximates (n + 1) t (g t)) :
    r.Approximates (n + 1) (k.of ts) (k.build (ts.map g)) := by
  cases k with
  | union => exact .union g h
  | inter => exact .inter g h

/-- There is one approximation to a depth. -/
theorem Approximates.unique (h : r.Approximates n t a) : ∀ {b : Ty}, r.Approximates n t b → a = b := by
  induction h with
  | cut t => intro b h; cases h; rfl
  | var v => intro b h; cases h; rfl
  | prim name => intro b h; cases h; rfl
  | lit value => intro b h; cases h; rfl
  | fn _ _ ihp ihq =>
      intro b h
      cases h with
      | fn hp hq => rw [ihp hp, ihq hq]
  | record row g _ ih =>
      intro b h
      cases h with
      | record _ g' h' => rw [List.map_congr_left fun f hf => by rw [ih f hf (h' f hf)]]
  | tuple g _ ih =>
      intro b h
      cases h with
      | tuple g' h' => rw [List.map_congr_left fun t ht => ih t ht (h' t ht)]
  | union g _ ih =>
      intro b h
      cases h with
      | union g' h' => rw [List.map_congr_left fun t ht => ih t ht (h' t ht)]
  | inter g _ ih =>
      intro b h
      cases h with
      | inter g' h' => rw [List.map_congr_left fun t ht => ih t ht (h' t ht)]
  | expand he _ ih =>
      intro b h
      cases h with
      | expand he' h' =>
          cases he.symm.trans he'
          exact ih h'
      | kept _ he' _ => cases he.symm.trans he'
  | kept g he _ ih =>
      intro b h
      cases h with
      | expand he' _ => cases he.symm.trans he'
      | kept g' _ h' => rw [List.map_congr_left fun t ht => ih t ht (h' t ht)]
  | unfold _ ih =>
      intro b h
      cases h with
      | unfold h' => exact ih h'

/-! ## Types with the same approximation -/

/-- Two types have the same approximation to a depth. -/
def Agree (r : Registry) (n : Nat) (t u : Ty) : Prop :=
  ∃ a b, r.Approximates n t a ∧ r.Approximates n u b ∧ a.Plain ∧ b.Plain ∧ a.form = b.form

theorem Agree.symm (h : r.Agree n t u) : r.Agree n u t := by
  obtain ⟨a, b, ha, hb, ha', hb', heq⟩ := h
  exact ⟨b, a, hb, ha, hb', ha', heq.symm⟩

theorem Agree.trans (h : r.Agree n t u) (h' : r.Agree n u v) : r.Agree n t v := by
  obtain ⟨a, b, ha, hb, ha', hb', heq⟩ := h
  obtain ⟨b', c, hb₂, hc, -, hc', heq'⟩ := h'
  obtain rfl := hb.unique hb₂
  exact ⟨a, c, ha, hc, ha', hc', heq.trans heq'⟩

theorem Agree.left (h : r.Agree n t u) : r.Agree n t t := h.trans h.symm

theorem Agree.right (h : r.Agree n t u) : r.Agree n u u := h.symm.trans h

theorem agree_zero (t u : Ty) : r.Agree 0 t u := by
  have hcut : Ty.cut.Plain :=
    .union (by simp) (List.forall_mem_nil _) (List.forall_mem_nil _) .nil
  exact ⟨Ty.cut, Ty.cut, .cut t, .cut u, hcut, hcut, rfl⟩

/-- To depth zero all types agree. -/
theorem agree_of_succ (h : ∀ n, r.Agree (n + 1) t u) : ∀ n, r.Agree n t u
  | 0 => agree_zero t u
  | n + 1 => h n

theorem agree_leaf (h : ∀ n, r.Approximates (n + 1) t t) (ht : t.Plain) : r.Agree (n + 1) t t :=
  ⟨t, t, h n, h n, ht, ht, rfl⟩

theorem agree_var {v w : TyVar} (h : v.id = w.id) : r.Agree (n + 1) (.var v) (.var w) :=
  ⟨_, _, .var v, .var w, .var v, .var w, form_var.2 h⟩

theorem agree_fn {p q p' q' : Ty} (hp : r.Agree n p p') (hq : r.Agree n q q') :
    r.Agree (n + 1) (.fn p q) (.fn p' q') := by
  obtain ⟨a, a', ha, ha', hat, hat', haf⟩ := hp
  obtain ⟨b, b', hb, hb', hbt, hbt', hbf⟩ := hq
  exact ⟨_, _, .fn ha hb, .fn ha' hb', .fn hat hbt, .fn hat' hbt',
    (form_fn hat.tame hbt.tame hat'.tame hbt'.tame).2 ⟨haf, hbf⟩⟩

/-- The approximations of some types, as a function. -/
theorem exists_approximations (h : ∀ t ∈ ts, r.Agree n t t) :
    ∃ g : Ty → Ty, ∀ t ∈ ts, r.Approximates n t (g t) ∧ (g t).Plain := by
  have hall : ∀ t, ∃ a, t ∈ ts → r.Approximates n t a ∧ a.Plain := fun t => by
    by_cases ht : t ∈ ts
    · obtain ⟨a, -, ha, -, hat, -⟩ := h t ht
      exact ⟨a, fun _ => ⟨ha, hat⟩⟩
    · exact ⟨t, fun h => absurd h ht⟩
  exact ⟨fun t => (hall t).choose, fun t ht => (hall t).choose_spec ht⟩

theorem Agree.form_eq (h : r.Agree n t u) (ha : r.Approximates n t a) (hb : r.Approximates n u b) :
    a.form = b.form := by
  obtain ⟨a', b', ha', hb', -, -, heq⟩ := h
  rwa [ha.unique ha', hb.unique hb']

theorem forall₂_left {R : Ty → Ty → Prop} (h : List.Forall₂ R ts us) : ∀ t ∈ ts, ∃ u ∈ us, R t u := by
  induction h with
  | nil => simp
  | cons h _ ih =>
      refine List.forall_mem_cons.2 ⟨⟨_, List.mem_cons_self, h⟩, fun t ht => ?_⟩
      obtain ⟨u, hu, h⟩ := ih t ht
      exact ⟨u, List.mem_cons_of_mem _ hu, h⟩

theorem forall_of_forall₂ {R : Ty → Ty → Prop} {Q : Ty → Prop} (h : List.Forall₂ R ts us)
    (hQ : ∀ t u, R t u → Q u) : ∀ u ∈ us, Q u := fun u hu =>
  have ⟨t, _, htu⟩ := forall₂_left h.flip u hu
  hQ t u htu

theorem forall₂_map {R : Ty → Ty → Prop} {f g : Ty → Ty} (h : ∀ t ∈ ts, R (f t) (g t)) :
    List.Forall₂ R (ts.map f) (ts.map g) :=
  List.forall₂_map_left_iff.2 (List.forall₂_map_right_iff.2 (List.forall₂_same.2 h))

/-- Lists of types that agree have approximations of the same forms. -/
theorem exists_approximations_of_forall₂ (h : List.Forall₂ (r.Agree n) ts us) :
    ∃ g g' : Ty → Ty, (∀ t ∈ ts, r.Approximates n t (g t) ∧ (g t).Plain) ∧
      (∀ u ∈ us, r.Approximates n u (g' u) ∧ (g' u).Plain) ∧
      (ts.map g).map form = (us.map g').map form := by
  have hts : ∀ t ∈ ts, r.Agree n t t := fun t ht => by
    obtain ⟨u, -, h⟩ := forall₂_left h t ht
    exact h.left
  have hus : ∀ u ∈ us, r.Agree n u u := fun u hu => by
    obtain ⟨t, -, h⟩ := forall₂_left (List.Forall₂.flip h) u hu
    exact Agree.right h
  obtain ⟨g, hg⟩ := exists_approximations hts
  obtain ⟨g', hg'⟩ := exists_approximations hus
  refine ⟨g, g', hg, hg', ?_⟩
  clear hts hus
  induction h with
  | nil => rfl
  | cons h _ ih =>
      rw [List.forall_mem_cons] at hg hg'
      simp only [List.map_cons, List.cons.injEq]
      exact ⟨h.form_eq hg.1.1 hg'.1.1, ih hg.2 hg'.2⟩

theorem agree_tuple (h : List.Forall₂ (r.Agree n) ts us) :
    r.Agree (n + 1) (.tuple ts) (.tuple us) := by
  obtain ⟨g, g', hg, hg', heq⟩ := exists_approximations_of_forall₂ h
  have hplain := List.forall_mem_map.2 fun t ht => (hg t ht).2
  have hplain' := List.forall_mem_map.2 fun u hu => (hg' u hu).2
  exact ⟨_, _, .tuple g fun t ht => (hg t ht).1, .tuple g' fun u hu => (hg' u hu).1, .tuple hplain,
    .tuple hplain', (form_tuple (fun a ha => (hplain a ha).tame)
      fun a ha => (hplain' a ha).tame).2 heq⟩

/-- References that are kept agree if their arguments do. -/
theorem agree_kept (ht : r.expand? name ts = none) (hu : r.expand? name us = none)
    (h : List.Forall₂ (r.Agree n) ts us) : r.Agree (n + 1) (.named name ts) (.named name us) := by
  obtain ⟨g, g', hg, hg', heq⟩ := exists_approximations_of_forall₂ h
  have hplain := List.forall_mem_map.2 fun t ht => (hg t ht).2
  have hplain' := List.forall_mem_map.2 fun u hu => (hg' u hu).2
  exact ⟨_, _, .kept g ht fun t ht => (hg t ht).1, .kept g' hu fun u hu => (hg' u hu).1,
    .named _ hplain, .named _ hplain', (form_named (fun a ha => (hplain a ha).tame)
      fun a ha => (hplain' a ha).tame).2 heq⟩

/-- Records agree if they have the same row, and name by name fields that agree. -/
theorem agree_record {fs gs : List (String × Ty)} {row row' : Option TyVar}
    (hfs : Table.Ascending fs) (hgs : Table.Ascending gs) (hrow : row.map TyVar.id = row'.map TyVar.id)
    (h : ∀ name, Option.Rel (r.Agree n) (Table.get? name fs) (Table.get? name gs)) :
    r.Agree (n + 1) (.record fs row) (.record gs row') := by
  have hleft : ∀ t ∈ fs.map (·.2), r.Agree n t t := List.forall_mem_map.2 fun f hf => by
    have hname := h f.1
    rw [Table.get?_of_mem hfs hf] at hname
    generalize Table.get? f.1 gs = y at hname
    cases hname with
    | some h => exact h.left
  have hright : ∀ t ∈ gs.map (·.2), r.Agree n t t := List.forall_mem_map.2 fun f hf => by
    have hname := h f.1
    rw [Table.get?_of_mem hgs hf] at hname
    generalize Table.get? f.1 fs = y at hname
    cases hname with
    | some h => exact h.right
  obtain ⟨g, hg⟩ := exists_approximations hleft
  obtain ⟨g', hg'⟩ := exists_approximations hright
  rw [List.forall_mem_map] at hg hg'
  have hplain : (Ty.record (fs.map fun f => (f.1, g f.2)) row).Plain :=
    .record _ (hfs.map g) (List.forall_mem_map.2 fun f hf => (hg f hf).2)
  have hplain' : (Ty.record (gs.map fun f => (f.1, g' f.2)) row').Plain :=
    .record _ (hgs.map g') (List.forall_mem_map.2 fun f hf => (hg' f hf).2)
  refine ⟨_, _, .record row g fun f hf => (hg f hf).1, .record row' g' fun f hf => (hg' f hf).1,
    hplain, hplain', (form_record hplain.tame hplain'.tame).2 ⟨hrow, fun name => ?_⟩⟩
  rw [Table.get?_map, Table.get?_map]
  have hname := h name
  cases hf : Table.get? name fs with
  | none =>
      rw [hf] at hname
      generalize Table.get? name gs = y at hname ⊢
      cases hname
      rfl
  | some t =>
      rw [hf] at hname
      cases hf' : Table.get? name gs with
      | none => rw [hf'] at hname; cases hname
      | some u =>
          rw [hf'] at hname
          cases hname with
          | some h =>
              have hg := (hg _ (Table.mem_of_get? hf)).1
              have hg' := (hg' _ (Table.mem_of_get? hf')).1
              exact congrArg some (h.form_eq hg hg')

theorem agree_expand (he : r.expand? name args = some t) (h : r.Agree (n + 1) t t) :
    r.Agree (n + 1) (.named name args) t := by
  obtain ⟨a, b, ha, hb, hat, hbt, heq⟩ := h
  exact ⟨a, b, .expand he ha, hb, hat, hbt, heq⟩

theorem agree_unfold {w : TyVar} (h : r.Agree (n + 1) (t.unfold w) (t.unfold w)) :
    r.Agree (n + 1) (.mu w t) (t.unfold w) := by
  obtain ⟨a, b, ha, hb, hat, hbt, heq⟩ := h
  exact ⟨a, b, .unfold ha, hb, hat, hbt, heq⟩

/-! ## Compounds -/

/-- One of the parts that one sees of a type has a form. -/
def Reveals (r : Registry) (k : Compound) (n : Nat) (t : Ty) (f : Form) : Prop :=
  ∃ a, r.Approximates n t a ∧ a.Plain ∧ f ∈ k.forms a

theorem Agree.reveals (h : r.Agree n t u) (ht : r.Reveals k n t f) : r.Reveals k n u f := by
  obtain ⟨a, b, ha, hb, hat, hbt, heq⟩ := h
  obtain ⟨a', ha', -, hf⟩ := ht
  obtain rfl := ha.unique ha'
  exact ⟨b, hb, hbt, Compound.forms_congr hat.tame hbt.tame heq ▸ hf⟩

theorem reveals_of (h : ∀ t ∈ ts, r.Agree (n + 1) t t) :
    r.Reveals k (n + 1) (k.of ts) f ↔ ∃ t ∈ ts, r.Reveals k (n + 1) t f := by
  obtain ⟨g, hg⟩ := exists_approximations h
  have hplain := List.forall_mem_map.2 fun t ht => (hg t ht).2
  have htame := fun a ha => (hplain a ha).tame
  have happrox : r.Approximates (n + 1) (k.of ts) (k.build (ts.map g)) :=
    .compound g fun t ht => (hg t ht).1
  constructor
  · rintro ⟨a, ha, -, hf⟩
    obtain rfl := ha.unique happrox
    obtain ⟨_, hmem, hf⟩ := (Compound.mem_forms_build htame).1 hf
    obtain ⟨t, ht, rfl⟩ := List.mem_map.1 hmem
    exact ⟨t, ht, g t, (hg t ht).1, (hg t ht).2, hf⟩
  · rintro ⟨t, ht, a, ha, -, hf⟩
    obtain rfl := ha.unique (hg t ht).1
    exact ⟨_, happrox, built_build hplain,
      (Compound.mem_forms_build htame).2 ⟨g t, List.mem_map_of_mem ht, hf⟩⟩

/-- Compounds agree if one sees the same parts of both. -/
theorem agree_of (hts : ∀ t ∈ ts, r.Agree (n + 1) t t) (hus : ∀ u ∈ us, r.Agree (n + 1) u u)
    (h : ∀ f, (∃ t ∈ ts, r.Reveals k (n + 1) t f) ↔ ∃ u ∈ us, r.Reveals k (n + 1) u f) :
    r.Agree (n + 1) (k.of ts) (k.of us) := by
  have hparts : ∀ {ts : List Ty}, (∀ t ∈ ts, r.Agree (n + 1) t t) → ∃ g : Ty → Ty,
      (∀ t ∈ ts, r.Approximates (n + 1) t (g t)) ∧ (∀ a ∈ ts.map g, a.Plain) ∧
      ∀ f, (∃ a ∈ ts.map g, f ∈ k.forms a) ↔ ∃ t ∈ ts, r.Reveals k (n + 1) t f := by
    intro ts hts
    obtain ⟨g, hg⟩ := exists_approximations hts
    refine ⟨g, fun t ht => (hg t ht).1, List.forall_mem_map.2 fun t ht => (hg t ht).2, fun f => ?_⟩
    constructor
    · rintro ⟨_, hmem, hf⟩
      obtain ⟨t, ht, rfl⟩ := List.mem_map.1 hmem
      exact ⟨t, ht, g t, (hg t ht).1, (hg t ht).2, hf⟩
    · rintro ⟨t, ht, a, ha, -, hf⟩
      obtain rfl := ha.unique (hg t ht).1
      exact ⟨g t, List.mem_map_of_mem ht, hf⟩
  obtain ⟨g, hg, hplain, hforms⟩ := hparts hts
  obtain ⟨g', hg', hplain', hforms'⟩ := hparts hus
  refine ⟨_, _, .compound g hg, .compound g' hg', built_build hplain, built_build hplain',
    Compound.form_build_congr (fun a ha => (hplain a ha).tame) (fun a ha => (hplain' a ha).tame)
      fun f => ?_⟩
  exact (hforms f).trans ((h f).trans (hforms' f).symm)

/-- Compounds agree if each part of the one agrees with a part of the other. -/
theorem agree_of_parts (hts : ∀ t ∈ ts, ∃ u ∈ us, r.Agree (n + 1) t u)
    (hus : ∀ u ∈ us, ∃ t ∈ ts, r.Agree (n + 1) t u) : r.Agree (n + 1) (k.of ts) (k.of us) := by
  refine agree_of (fun t ht => ?_) (fun u hu => ?_) fun f => ?_
  · obtain ⟨u, -, h⟩ := hts t ht
    exact h.left
  · obtain ⟨t, -, h⟩ := hus u hu
    exact h.right
  · constructor
    · rintro ⟨t, ht, hf⟩
      obtain ⟨u, hu, h⟩ := hts t ht
      exact ⟨u, hu, h.reveals hf⟩
    · rintro ⟨u, hu, hf⟩
      obtain ⟨t, ht, h⟩ := hus u hu
      exact ⟨t, ht, h.symm.reveals hf⟩

theorem agree_of_matched (h : Matched (r.Agree (n + 1)) ts us) :
    r.Agree (n + 1) (k.of ts) (k.of us) := agree_of_parts h.2.1 h.2.2

/-- The compound of one type agrees with that type. -/
theorem agree_single (h : r.Agree (n + 1) t t) : r.Agree (n + 1) t (k.of [t]) := by
  obtain ⟨a, -, ha, -, hat, -⟩ := h
  have hbuilt : k.build [a] = a := by
    rw [Compound.build_eq, List.flatMap_singleton]
    by_cases hk : ∃ us, a = k.of us
    · obtain ⟨us, rfl⟩ := hk
      obtain ⟨hlen, -, hflat, hdistinct⟩ := built_of_iff.1 hat
      rw [Compound.parts_of, ← Compound.build_eq, Compound.build_eq_of hlen hflat hdistinct]
    · rw [Compound.parts_of_ne fun us h => hk ⟨us, h⟩]
      rfl
  have happrox : r.Approximates (n + 1) (k.of [t]) (k.build ([t].map fun _ => a)) :=
    .compound (fun _ => a) (List.forall_mem_singleton.2 ha)
  rw [List.map_singleton, hbuilt] at happrox
  exact ⟨a, a, ha, happrox, hat, hat, rfl⟩

/-! ## Heads -/

/-- The first type stands directly at the head of the second one. -/
inductive Opens (r : Registry) : Ty → Ty → Prop where
  | union {t : Ty} {ts : List Ty} : t ∈ ts → Opens r t (.union ts)
  | inter {t : Ty} {ts : List Ty} : t ∈ ts → Opens r t (.inter ts)
  | expand {name : String} {args : List Ty} {t : Ty} : r.expand? name args = some t →
      Opens r t (.named name args)

/-- Looking for the constructors at the head of a type ends: a reference is come back to only below
a record, a function or a tuple. -/
def Guarded (r : Registry) : Prop := WellFounded r.Opens

/-- Definitions are without recursion and as they are built. -/
def Plain (r : Registry) : Prop := ∀ name d, r.lookup? name = some d → d.body.Plain

theorem opens_of (h : t ∈ ts) : r.Opens t (k.of ts) := by
  cases k with
  | union => exact .union h
  | inter => exact .inter h

theorem Plain.built_expand? {M : Prop} (hr : r.Plain) (hargs : ∀ a ∈ args, a.Built M)
    (he : r.expand? name args = some t) : t.Built M := by
  obtain ⟨d, hd, ht⟩ := Option.bind_eq_some_iff.1 he
  unfold Definition.expand? at ht
  split at ht
  · cases ht
    refine ((hr name d hd).mono False.elim).apply fun id u hu => ?_
    obtain ⟨b, hb, -, rfl⟩ := Subst.mem_of_get?_ofList hu
    exact hargs _ (List.of_mem_zip hb).2
  · cases ht

/-- References to one name whose arguments have the same forms expand to types of one form. -/
theorem Plain.form_expand? {bs : List Ty} (hr : r.Plain) (has : ∀ a ∈ args, a.Plain)
    (hbs : ∀ b ∈ bs, b.Plain) (h : args.map form = bs.map form) :
    (r.expand? name args).map form = (r.expand? name bs).map form := by
  have hlen : args.length = bs.length := by simpa using congrArg List.length h
  unfold expand?
  cases hd : r.lookup? name with
  | none => rfl
  | some d =>
      simp only [Option.bind_some, Definition.expand?, hlen]
      split
      · refine congrArg some (form_apply_of_forms ?_ (hr name d hd) ?_ fun id => ?_)
        · intro id u hu
          obtain ⟨b, hb, -, rfl⟩ := Subst.mem_of_get?_ofList hu
          exact has _ (List.of_mem_zip hb).2
        · intro id u hu
          obtain ⟨b, hb, -, rfl⟩ := Subst.mem_of_get?_ofList hu
          exact hbs _ (List.of_mem_zip hb).2
        · exact Subst.forms_ofList id d.params (fun a ha => (has a ha).tame)
            (fun b hb => (hbs b hb).tame) h
      · rfl

/-! ## Types without recursion -/

/-- Types without recursion in which references that can be expanded have arguments as they are
built.  Unions and intersections need not be as they are built. -/
inductive Clear (r : Registry) : Ty → Prop where
  | var (v : TyVar) : Clear r (.var v)
  | prim (name : String) : Clear r (.prim name)
  | lit (value : String) : Clear r (.lit value)
  | fn {p q : Ty} : Clear r p → Clear r q → Clear r (.fn p q)
  | record {fs : List (String × Ty)} (row : Option TyVar) : Table.Ascending fs →
      (∀ f ∈ fs, Clear r f.2) → Clear r (.record fs row)
  | tuple {ts : List Ty} : (∀ t ∈ ts, Clear r t) → Clear r (.tuple ts)
  | union {ts : List Ty} : (∀ t ∈ ts, Clear r t) → Clear r (.union ts)
  | inter {ts : List Ty} : (∀ t ∈ ts, Clear r t) → Clear r (.inter ts)
  | named {name : String} {args : List Ty} : (∀ t ∈ args, Clear r t) →
      (∀ t, r.expand? name args = some t → ∀ a ∈ args, a.Plain) → Clear r (.named name args)

theorem clear_of_plain (h : t.Plain) : r.Clear t := by
  induction h with
  | var v => exact .var v
  | prim name => exact .prim name
  | lit value => exact .lit value
  | fn _ _ ihp ihr => exact .fn ihp ihr
  | record row hasc _ ih => exact .record row hasc ih
  | tuple _ ih => exact .tuple ih
  | union _ _ _ _ ih => exact .union ih
  | inter _ _ _ _ ih => exact .inter ih
  | named name h ih => exact .named ih fun _ _ => h
  | mu _ h => exact h.elim

theorem clear_of (h : ∀ t ∈ ts, r.Clear t) : r.Clear (k.of ts) := by
  cases k with
  | union => exact .union h
  | inter => exact .inter h

theorem rel_self {R : Ty → Ty → Prop} {fs : List (String × Ty)} (h : ∀ f ∈ fs, R f.2 f.2)
    (name : String) : Option.Rel R (Table.get? name fs) (Table.get? name fs) := by
  cases hf : Table.get? name fs with
  | none => exact .none
  | some t => exact .some (h _ (Table.mem_of_get? hf))

/-- A type without recursion has an approximation to every depth. -/
theorem Clear.agree_self (hr : r.Plain) (hg : r.Guarded) (h : r.Clear t) (n : Nat) :
    r.Agree n t t := by
  induction n generalizing t with
  | zero => exact agree_zero t t
  | succ n ih =>
      -- Below a constructor the depth gets less; at the head, what opens ends.
      induction t using hg.induction with
      | _ t ihg =>
          cases h with
          | var v => exact agree_var rfl
          | prim name => exact agree_leaf (fun _ => .prim name) (.prim name)
          | lit value => exact agree_leaf (fun _ => .lit value) (.lit value)
          | fn hp hq => exact agree_fn (ih hp) (ih hq)
          | record row hasc hfs =>
              exact agree_record hasc hasc rfl (rel_self fun f hf => ih (hfs f hf))
          | tuple hts => exact agree_tuple (List.forall₂_same.2 fun t ht => ih (hts t ht))
          | union hts =>
              exact agree_of_matched (k := .union)
                (matched_self fun t ht => ihg t (.union ht) (hts t ht))
          | inter hts =>
              exact agree_of_matched (k := .inter)
                (matched_self fun t ht => ihg t (.inter ht) (hts t ht))
          | @named name args hargs hplain =>
              cases he : r.expand? name args with
              | none => exact agree_kept he he (List.forall₂_same.2 fun t ht => ih (hargs t ht))
              | some t =>
                  have ht : r.Clear t := clear_of_plain (hr.built_expand? (hplain t he) he)
                  exact (agree_expand he (ihg t (.expand he) ht)).left

/-- Types of one form have the same approximations. -/
theorem agree_of_form (hr : r.Plain) (hg : r.Guarded) (ht : t.Plain) (hu : u.Plain)
    (h : t.form = u.form) (n : Nat) : r.Agree n t u := by
  induction n generalizing t u with
  | zero => exact agree_zero t u
  | succ n ih =>
      have hlist : ∀ {ts us : List Ty}, (∀ t ∈ ts, t.Plain) → (∀ u ∈ us, u.Plain) →
          List.Forall₂ (fun a b => equiv a b = true) ts us → List.Forall₂ (r.Agree n) ts us :=
        fun hts hus h => forall₂_imp h fun t ht u hu heq =>
          ih (hts t ht) (hus u hu) (form_congr (hts t ht).tame (hus u hu).tame heq)
      induction t using hg.induction generalizing u with
      | _ t ihg =>
          have heq := (form_eq_iff ht.tame hu.tame).1 h
          have hof : ∀ {k : Compound} {ts : List Ty}, (k.of ts).Plain →
              (∀ t ∈ ts, ∀ {u : Ty}, t.Plain → u.Plain → t.form = u.form → r.Agree (n + 1) t u) →
              equiv (k.of ts) u = true → r.Agree (n + 1) (k.of ts) u := by
            intro k ts ht ih heq
            obtain ⟨us, rfl, hsame⟩ := Compound.equiv_of_iff.1 heq
            have hts := (built_of_iff.1 ht).2.1
            have hus := (built_of_iff.1 hu).2.1
            exact agree_of_matched (Matched.mono hsame fun t ht u hu heq =>
              ih t ht (hts t ht) (hus u hu) (form_congr (hts t ht).tame (hus u hu).tame heq))
          cases ht with
          | var v =>
              obtain ⟨w, rfl, hid⟩ := exists_var_of_equiv heq
              exact agree_var hid
          | prim name =>
              obtain rfl := eq_prim_of_equiv heq
              exact agree_leaf (fun _ => .prim name) (.prim name)
          | lit value =>
              obtain rfl := eq_lit_of_equiv heq
              exact agree_leaf (fun _ => .lit value) (.lit value)
          | fn hp hq =>
              obtain ⟨p', q', rfl, h₁, h₂⟩ := exists_fn_of_equiv heq
              cases hu with
              | fn hp' hq' =>
                  exact agree_fn (ih hp hp' (form_congr hp.tame hp'.tame h₁))
                    (ih hq hq' (form_congr hq.tame hq'.tame h₂))
          | record row hasc hfs =>
              obtain ⟨gs, row', rfl⟩ := exists_record_of_equiv heq
              cases hu with
              | record row' hasc' hfs' =>
                  obtain ⟨hrow, hnames⟩ := (equiv_record hasc hasc').1 heq
                  refine agree_record hasc hasc' hrow fun name => ?_
                  refine rel_imp (hnames name) fun a b ha hb hab => ?_
                  have ha := hfs _ (Table.mem_of_get? ha)
                  have hb := hfs' _ (Table.mem_of_get? hb)
                  exact ih ha hb (form_congr ha.tame hb.tame hab)
          | tuple hts =>
              obtain ⟨us, rfl, helems⟩ := exists_tuple_of_equiv heq
              cases hu with
              | tuple hus => exact agree_tuple (hlist hts hus helems)
          | union hlen hts hflat hdistinct =>
              exact hof (k := .union) (.union hlen hts hflat hdistinct)
                (fun t ht _ => ihg t (.union ht)) heq
          | inter hlen hts hflat hdistinct =>
              exact hof (k := .inter) (.inter hlen hts hflat hdistinct)
                (fun t ht _ => ihg t (.inter ht)) heq
          | @named name args hargs =>
              obtain ⟨args', rfl, hforall⟩ := exists_named_of_equiv heq
              cases hu with
              | named _ hargs' =>
                  have hforms := (forall₂_equiv_iff (fun a ha => (hargs a ha).tame)
                    fun a ha => (hargs' a ha).tame).1 hforall
                  have hmap : (r.expand? name args).map form = (r.expand? name args').map form :=
                    hr.form_expand? hargs hargs' hforms
                  cases he : r.expand? name args <;> cases he' : r.expand? name args' <;>
                    rw [he, he'] at hmap
                  · exact agree_kept he he' (hlist hargs hargs' hforall)
                  · cases hmap
                  · cases hmap
                  · next v w =>
                      have hagree := ihg v (.expand he) (hr.built_expand? hargs he)
                        (hr.built_expand? hargs' he') (Option.some.inj hmap)
                      exact (agree_expand he hagree.left).trans
                        (hagree.trans (agree_expand he' hagree.right).symm)
          | mu _ hM => exact hM.elim

/-! ## How high a head is -/

/-- How far it is from a type to the constructors at its head. -/
noncomputable def Guarded.height (hg : r.Guarded) (t : Ty) : Ordinal := (hg.apply t).rank

variable (hg : r.Guarded)

theorem Guarded.height_lt (h : r.Opens u t) : hg.height u < hg.height t := Acc.rank_lt_of_rel _ h

end Registry

end RowTypes
