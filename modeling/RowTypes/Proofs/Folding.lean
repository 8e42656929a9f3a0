import RowTypes.Proofs.Approximations
import RowTypes.Proofs.FormedTypes
import RowTypes.Proofs.NormalForms
import RowTypes.Proofs.Unrolling

/-!
# Recursive types folded back into references

Normalising a type gives numbers to the references that it expands, and the recursive types and the
binders in its result carry these numbers.  If each number stands for one reference, wherever it
turns up, then the result can be read backwards: a binder is the reference of its number, and so is
a recursive type.  What is read in this way has no recursion, and its approximations are those of
references.

A type is coherent if this reading does not change what it means: the body of a recursive type means
what its reference means, and no binder that stands at the head of the body goes back to the
reference without expanding less of it.  Equivalence, which looks at the numbers of binders from one
side only, never mixes up coherent types that mean different things, and so building a union of
coherent types loses no alternative.  Unfolding a coherent type leaves a coherent type that is read
in the same way; hence a coherent type means what it is read as.
-/

namespace RowTypes

open Ty

/-- A reference as a type. -/
def Reference.ty (R : Reference) : Ty := .named R.1 R.2

/-- The references that numbers stand for. -/
abbrev Naming := Int → Option Reference

/-! ## Reading numbers as references -/

namespace Naming

/-- The reference that a number stands for, or else the given type. -/
def refer (I : Naming) (id : Int) (t : Ty) : Ty := (I id).elim t Reference.ty

mutual

/-- The type where binders and recursive types are the references that their numbers stand for. -/
def folded (I : Naming) : Ty → Ty
  | .var v => I.refer v.id (.var v)
  | .prim name => .prim name
  | .lit value => .lit value
  | .fn p q => .fn (folded I p) (folded I q)
  | .record fs row => .record (foldedFields I fs) row
  | .tuple ts => .tuple (foldedAll I ts)
  | .union ts => .union (foldedAll I ts)
  | .inter ts => .inter (foldedAll I ts)
  | .named name args => .named name (foldedAll I args)
  | .mu v t => I.refer v.id (.mu v (folded I t))

def foldedAll (I : Naming) : List Ty → List Ty
  | [] => []
  | t :: ts => folded I t :: foldedAll I ts

def foldedFields (I : Naming) : List (String × Ty) → List (String × Ty)
  | [] => []
  | (name, t) :: fs => (name, folded I t) :: foldedFields I fs

end

variable {I : Naming} {id : Int} {R : Reference} {t : Ty}

theorem refer_of_some (h : I id = some R) : I.refer id t = R.ty := by
  rw [refer, h]
  rfl

theorem refer_of_none (h : I id = none) : I.refer id t = t := by
  rw [refer, h]
  rfl

theorem foldedAll_eq_map (I : Naming) (ts : List Ty) : I.foldedAll ts = ts.map I.folded := by
  induction ts with
  | nil => rfl
  | cons t ts ih => rw [foldedAll, ih, List.map_cons]

theorem foldedFields_eq_map (I : Naming) (fs : List (String × Ty)) :
    I.foldedFields fs = fs.map fun f => (f.1, I.folded f.2) := by
  induction fs with
  | nil => rfl
  | cons f fs ih => rw [foldedFields, ih, List.map_cons]

theorem folded_record (I : Naming) (fs : List (String × Ty)) (row : Option TyVar) :
    I.folded (.record fs row) = .record (fs.map fun f => (f.1, I.folded f.2)) row := by
  rw [folded, foldedFields_eq_map]

theorem folded_tuple (I : Naming) (ts : List Ty) :
    I.folded (.tuple ts) = .tuple (ts.map I.folded) := by
  rw [folded, foldedAll_eq_map]

theorem folded_named (I : Naming) (name : String) (args : List Ty) :
    I.folded (.named name args) = .named name (args.map I.folded) := by
  rw [folded, foldedAll_eq_map]

theorem folded_of (I : Naming) (k : Compound) (ts : List Ty) :
    I.folded (k.of ts) = k.of (ts.map I.folded) := by
  cases k <;> exact congrArg _ (foldedAll_eq_map I ts)

end Naming

/-! ## Genuine types

Some numbers are those of unknowns, and no binder that normalising makes has one of them. -/

section Genuine

variable {P : Int → Prop} {t : Ty}

/-- Types without recursion, as they are built, that are made of the numbers of unknowns. -/
structure Ty.Genuine (P : Int → Prop) (t : Ty) : Prop where
  plain : t.Plain
  numbers : t.Over P

def Reference.Genuine (P : Int → Prop) (R : Reference) : Prop := ∀ a ∈ R.2, a.Genuine P

theorem Ty.genuine_named {name : String} {args : List Ty} (h : ∀ a ∈ args, a.Genuine P) :
    (Ty.named name args).Genuine P :=
  ⟨.named name fun a ha => (h a ha).plain, over_named.2 fun a ha => (h a ha).numbers⟩

theorem Reference.Genuine.plain {R : Reference} (h : R.Genuine P) : R.ty.Plain :=
  .named R.1 fun a ha => (h a ha).plain

end Genuine

/-! ## Coherent types -/

namespace Naming

/-- Numbers that stand for references are not those of unknowns, and the references are made of
genuine types. -/
def Sound (I : Naming) (P : Int → Prop) : Prop :=
  ∀ id R, I id = some R → ¬ P id ∧ R.Genuine P

variable {I : Naming} {P : Int → Prop} {id : Int} {t : Ty} (hI : I.Sound P)

include hI

theorem Sound.eq_none (h : P id) : I id = none := by
  cases hid : I id with
  | none => rfl
  | some R => exact absurd h (hI id R hid).1

/-- Genuine types are read as they are. -/
theorem Sound.folded_eq_self (h : t.Genuine P) : I.folded t = t := by
  obtain ⟨hplain, hover⟩ := h
  have hall : ∀ {ts : List Ty}, (∀ t ∈ ts, t.Over P → I.folded t = t) →
      (∀ t ∈ ts, t.Over P) → ts.map I.folded = ts := fun ih hts =>
    (List.map_congr_left fun t ht => ih t ht (hts t ht)).trans (List.map_id _)
  induction hplain with
  | var v => exact refer_of_none (hI.eq_none (over_var.1 hover))
  | prim name => rfl
  | lit value => rfl
  | fn _ _ ihp ihq =>
      rw [folded, ihp (over_fn.1 hover).1, ihq (over_fn.1 hover).2]
  | record row _ _ ih =>
      rw [folded_record]
      congr 1
      refine (List.map_congr_left fun f hf => ?_).trans (List.map_id _)
      rw [ih f hf ((over_record.1 hover).1 f hf)]
      rfl
  | tuple _ ih => rw [folded_tuple, hall ih (over_tuple.1 hover)]
  | union _ _ _ _ ih =>
      refine (folded_of I .union _).trans ?_
      rw [hall ih (over_union.1 hover)]
      rfl
  | inter _ _ _ _ ih =>
      refine (folded_of I .inter _).trans ?_
      rw [hall ih (over_inter.1 hover)]
      rfl
  | named name _ ih => rw [folded_named, hall ih (over_named.1 hover)]
  | mu _ h => exact h.elim

end Naming

namespace Registry

/-- Definitions are without recursion, as they are built and closed over their parameters, and
looking for what stands at the head of a type ends. -/
structure Regular (r : Registry) (P : Int → Prop) : Prop where
  plain : r.Plain
  guarded : r.Guarded
  closed : ∀ name d, r.lookup? name = some d →
    d.body.Rooted P fun id => ∃ v ∈ d.params, v.id = id

namespace Regular

variable {r : Registry} {P : Int → Prop} {w : r.Regular P} {I : Naming} {R : Reference}
  {k : Compound} {t u x y : Ty} {ts us : List Ty} {m : Renaming} {n : Nat} {id : Int}

/-- How far it is from a reference to the constructors that it stands for. -/
noncomputable def height (w : r.Regular P) (R : Reference) : Ordinal := w.guarded.height R.ty

/-- Reading the numbers of a type as references does not change what the type means. -/
inductive Coherent (w : r.Regular P) (I : Naming) : Ty → Prop where
  | var {v : TyVar} : P v.id ∨ (I v.id).isSome → Coherent w I (.var v)
  | prim (name : String) : Coherent w I (.prim name)
  | lit (value : String) : Coherent w I (.lit value)
  | fn {p q : Ty} : Coherent w I p → Coherent w I q → Coherent w I (.fn p q)
  | record {fs : List (String × Ty)} {row : Option TyVar} : Table.Ascending fs →
      (∀ f ∈ fs, Coherent w I f.2) → (∀ v, row = some v → P v.id) →
      Coherent w I (.record fs row)
  | tuple {ts : List Ty} : (∀ t ∈ ts, Coherent w I t) → Coherent w I (.tuple ts)
  | union {ts : List Ty} : (∀ t ∈ ts, Coherent w I t) → Coherent w I (.union ts)
  | inter {ts : List Ty} : (∀ t ∈ ts, Coherent w I t) → Coherent w I (.inter ts)
  | named {name : String} {args : List Ty} : (∀ t ∈ args, Coherent w I t) →
      ((r.expand? name args).isSome → ∀ t ∈ args, t.Genuine P) → Coherent w I (.named name args)
  | mu {v : TyVar} {t : Ty} {R : Reference} : I v.id = some R → Coherent w I t →
      (∀ id S, t.Bare id → I id = some S → w.height S < w.height R) →
      (∀ n, r.Agree n R.ty (I.folded t)) → Coherent w I (.mu v t)

theorem coherent_of : w.Coherent I (k.of ts) ↔ ∀ t ∈ ts, w.Coherent I t := by
  constructor
  · intro h
    cases k with
    | union => cases h with | union h => exact h
    | inter => cases h with | inter h => exact h
  · intro h
    cases k with
    | union => exact .union h
    | inter => exact .inter h

theorem coherent_build (h : ∀ t ∈ ts, w.Coherent I t) : w.Coherent I (k.build ts) :=
  Compound.build_of (fun _ => coherent_of) h

theorem coherent_of_genuine (h : t.Genuine P) : w.Coherent I t := by
  obtain ⟨hplain, hover⟩ := h
  induction hplain with
  | var v => exact .var (.inl (over_var.1 hover))
  | prim name => exact .prim name
  | lit value => exact .lit value
  | fn _ _ ihp ihq => exact .fn (ihp (over_fn.1 hover).1) (ihq (over_fn.1 hover).2)
  | record row hasc _ ih =>
      obtain ⟨hfs, hrow⟩ := over_record.1 hover
      exact .record hasc (fun f hf => ih f hf (hfs f hf)) hrow
  | tuple _ ih => exact .tuple fun t ht => ih t ht (over_tuple.1 hover t ht)
  | union _ _ _ _ ih => exact .union fun t ht => ih t ht (over_union.1 hover t ht)
  | inter _ _ _ _ ih => exact .inter fun t ht => ih t ht (over_inter.1 hover t ht)
  | named name hplain ih =>
      exact .named (fun t ht => ih t ht (over_named.1 hover t ht))
        fun _ t ht => ⟨hplain t ht, over_named.1 hover t ht⟩
  | mu _ h => exact h.elim

/-- Whether a reference can be expanded depends on the number of its arguments. -/
theorem isSome_expand? (name : String) (h : ts.length = us.length) :
    (r.expand? name ts).isSome = (r.expand? name us).isSome := by
  unfold expand?
  cases r.lookup? name with
  | none => rfl
  | some d =>
      simp only [Option.bind_some, Definition.expand?, h]
      split <;> rfl

theorem expand?_eq_none_of_length {name : String} (he : r.expand? name us = none)
    (h : ts.length = us.length) : r.expand? name ts = none := by
  rw [← Option.not_isSome_iff_eq_none, isSome_expand? name h, he]
  exact Bool.false_ne_true

theorem agree_ref (w : r.Regular P) (h : R.Genuine P) (n : Nat) : r.Agree n R.ty R.ty :=
  (clear_of_plain h.plain).agree_self w.plain w.guarded n

variable (hI : I.Sound P)

include hI

/-- What a coherent type is read as has no recursion. -/
theorem Coherent.clear (h : w.Coherent I t) : r.Clear (I.folded t) := by
  have hrefer : ∀ {id : Int} {R : Reference} {t : Ty}, I id = some R → r.Clear (I.refer id t) := by
    intro id R t hR
    rw [Naming.refer_of_some hR]
    exact clear_of_plain (hI id R hR).2.plain
  induction h with
  | @var v _ =>
      rw [Naming.folded]
      cases hv : I v.id with
      | none => rw [Naming.refer_of_none hv]; exact .var v
      | some R => exact hrefer hv
  | prim name => exact .prim name
  | lit value => exact .lit value
  | fn _ _ ihp ihq => exact .fn ihp ihq
  | record hasc _ _ ih =>
      rw [Naming.folded_record]
      exact .record _ (hasc.map I.folded) (List.forall_mem_map.2 ih)
  | tuple _ ih =>
      rw [Naming.folded_tuple]
      exact .tuple (List.forall_mem_map.2 ih)
  | @union ts _ ih =>
      rw [show Ty.union ts = Compound.union.of ts from rfl, Naming.folded_of]
      exact clear_of (List.forall_mem_map.2 ih)
  | @inter ts _ ih =>
      rw [show Ty.inter ts = Compound.inter.of ts from rfl, Naming.folded_of]
      exact clear_of (List.forall_mem_map.2 ih)
  | @named name args _ hgenuine ih =>
      rw [Naming.folded_named]
      refine .named (List.forall_mem_map.2 ih) fun t he => List.forall_mem_map.2 fun a ha => ?_
      have hsome : (r.expand? name args).isSome := by
        rw [isSome_expand? name (List.length_map I.folded).symm, he]
        rfl
      rw [hI.folded_eq_self (hgenuine hsome a ha)]
      exact (hgenuine hsome a ha).plain
  | mu hR _ _ _ _ => exact hrefer hR

theorem Coherent.agree_self (h : w.Coherent I t) (n : Nat) :
    r.Agree n (I.folded t) (I.folded t) := (h.clear hI).agree_self w.plain w.guarded n

/-! ## Equivalence of coherent types -/

/-- Binders that are paired stand for references that agree, and to a lower depth only if they do
not stand at the head. -/
def Paired (r : Registry) (I : Naming) (n : Nat) (m : Renaming) (x : Ty) : Prop :=
  ∀ a b, m.lookup a = some b → ∃ R S, I a = some R ∧ I b = some S ∧
    (∀ j < n, r.Agree j R.ty S.ty) ∧ (x.Bare a → r.Agree n R.ty S.ty)

omit hI in
theorem Paired.below (h : Paired r I n m x) {j : Nat} (hj : j < n) (y : Ty) :
    Paired r I j m y := by
  intro a b hab
  obtain ⟨R, S, hR, hS, hbelow, -⟩ := h a b hab
  exact ⟨R, S, hR, hS, fun i hi => hbelow i (Nat.lt_trans hi hj), fun _ => hbelow j hj⟩

omit hI in
theorem Paired.part (h : Paired r I n m x) (hy : ∀ id, y.Bare id → x.Bare id) :
    Paired r I n m y := by
  intro a b hab
  obtain ⟨R, S, hR, hS, hbelow, hbare⟩ := h a b hab
  exact ⟨R, S, hR, hS, hbelow, fun ha => hbare (hy a ha)⟩

theorem Paired.lookup_eq_none (h : Paired r I n m x) (hid : P id) :
    m.lookup id = none := by
  cases hb : m.lookup id with
  | none => rfl
  | some b =>
      obtain ⟨R, -, hR, -⟩ := h id b hb
      rw [hI.eq_none hid] at hR
      cases hR

/-- Unknowns that correspond are read as types that agree. -/
theorem Paired.agree_unknown (w : r.Regular P) {v v' : TyVar} (hm : Paired r I (n + 1) m (.var v))
    (h : v.sameUnder m v' = true) : r.Agree (n + 1) (I.folded (.var v)) (I.folded (.var v')) := by
  rw [TyVar.sameUnder] at h
  rw [Naming.folded, Naming.folded]
  cases hl : m.lookup v.id with
  | some b =>
      rw [hl] at h
      obtain rfl : b = v'.id := by simpa using h
      obtain ⟨R, S, hR, hS, -, hbare⟩ := hm _ _ hl
      rw [Naming.refer_of_some hR, Naming.refer_of_some hS]
      exact hbare (.var rfl)
  | none =>
      rw [hl] at h
      have hid : v.id = v'.id := by simpa using h
      rw [← hid]
      cases hR : I v.id with
      | none =>
          rw [Naming.refer_of_none hR, Naming.refer_of_none hR]
          exact agree_var hid
      | some R =>
          rw [Naming.refer_of_some hR, Naming.refer_of_some hR]
          exact w.agree_ref (hI _ _ hR).2 _

/-- Genuine types that are equivalent agree: none of their numbers is that of a binder around. -/
theorem Paired.agree_genuine (w : r.Regular P) (hm : Paired r I n m x) (ht : t.Genuine P)
    (hu : u.Genuine P) (heq : equivUnder m t u = true) : r.Agree n (I.folded t) (I.folded u) := by
  have heq : equiv t u = true := ht.plain.tame.sorted.equivUnder_of_lookup
    (fun id hid => hm.lookup_eq_none hI (ht.numbers id (uses_of_mentions hid))) heq
  rw [hI.folded_eq_self ht, hI.folded_eq_self hu]
  exact agree_of_form w.plain w.guarded ht.plain hu.plain
    (form_congr ht.plain.tame hu.plain.tame heq) n

omit hI in
/-- Below the binders of two recursive types that agree to each lower depth the binders are paired,
since neither stands at the head of the body. -/
theorem Paired.under {v v' : TyVar} {S : Reference} (hm : Paired r I n m (.mu v t))
    (hR : I v.id = some R) (hS : I v'.id = some S) (hlow : ∀ j < n, r.Agree j R.ty S.ty)
    (hbare : ¬ t.Bare v.id) : Paired r I n ((v.id, v'.id) :: m) t := by
  intro a b hab
  by_cases hav : a = v.id
  · subst hav
    obtain rfl : v'.id = b := by simpa using hab
    exact ⟨R, S, hR, hS, hlow, fun hv => absurd hv hbare⟩
  · rw [List.lookup_cons, beq_eq_false_iff_ne.2 hav] at hab
    exact hm.part (y := t) (fun _ => .mu v) a b hab

omit hI in
theorem agree_folded_of
    (h : Ty.Matched (fun t u => r.Agree (n + 1) (I.folded t) (I.folded u)) ts us) :
    r.Agree (n + 1) (I.folded (k.of ts)) (I.folded (k.of us)) := by
  rw [Naming.folded_of, Naming.folded_of]
  exact agree_of_matched h.map

/-- To a depth, equivalent coherent types are read as types that agree. -/
def Faithful (w : r.Regular P) (I : Naming) (n : Nat) : Prop :=
  ∀ ⦃x y : Ty⦄ ⦃m : Renaming⦄, w.Coherent I x → w.Coherent I y → Paired r I n m x →
    equivUnder m x y = true → r.Agree n (I.folded x) (I.folded y)

omit hI in
theorem Faithful.forall₂ (h : w.Faithful I n) (hm : Paired r I (n + 1) m x)
    (hts : ∀ t ∈ ts, w.Coherent I t) (hus : ∀ u ∈ us, w.Coherent I u)
    (heq : List.Forall₂ (fun t u => equivUnder m t u = true) ts us) :
    List.Forall₂ (r.Agree n) (ts.map I.folded) (us.map I.folded) := by
  rw [List.forall₂_map_left_iff, List.forall₂_map_right_iff]
  exact forall₂_imp heq fun t ht u hu h' =>
    h (hts t ht) (hus u hu) (hm.below (Nat.lt_succ_self n) t) h'

/-- Records whose rows belong to no binder, with fields that are read faithfully. -/
theorem Faithful.record {fs gs : List (String × Ty)} {row row' : Option TyVar}
    (h : w.Faithful I n) (hm : Paired r I (n + 1) m x) (hfs : w.Coherent I (.record fs row))
    (hgs : w.Coherent I (.record gs row'))
    (heq : equivUnder m (.record fs row) (.record gs row') = true) :
    r.Agree (n + 1) (I.folded (.record fs row)) (I.folded (.record gs row')) := by
  cases hfs with
  | record hasc hfs hrow =>
  cases hgs with
  | record hasc' hgs _ =>
      obtain ⟨hsame, hnames⟩ := (equivUnder_record hasc hasc').1 heq
      have hrows := sameRow_nil_iff.1
        (sameRow_of_lookup (fun v hv => hm.lookup_eq_none hI (hrow v hv)) hsame)
      rw [Naming.folded_record, Naming.folded_record]
      refine agree_record (hasc.map _) (hasc'.map _) hrows fun name => ?_
      rw [Table.get?_map, Table.get?_map]
      refine rel_map (hnames name) fun a b ha hb hab => ?_
      exact h (hfs _ (Table.mem_of_get? ha)) (hgs _ (Table.mem_of_get? hb))
        (hm.below (Nat.lt_succ_self n) a) hab

/-- References: those that can be expanded are genuine, and the arguments of the others are read
faithfully. -/
theorem Faithful.named {name : String} (h : w.Faithful I n) (hm : Paired r I (n + 1) m x)
    (hts : w.Coherent I (.named name ts)) (hus : w.Coherent I (.named name us))
    (heq : List.Forall₂ (fun t u => equivUnder m t u = true) ts us) :
    r.Agree (n + 1) (I.folded (.named name ts)) (I.folded (.named name us)) := by
  have hlen := heq.length_eq
  cases hts with
  | named hts hgenuine =>
  cases hus with
  | named hus hgenuine' =>
      cases he : r.expand? name ts with
      | none =>
          have hnone : ∀ {args : List Ty}, args.length = ts.length →
              r.expand? name (args.map I.folded) = none := fun hargs =>
            expand?_eq_none_of_length he ((List.length_map I.folded).trans hargs)
          rw [Naming.folded_named, Naming.folded_named]
          exact agree_kept (hnone rfl) (hnone hlen.symm) (h.forall₂ hm hts hus heq)
      | some e =>
          have hsome : (r.expand? name ts).isSome := by rw [he]; rfl
          exact hm.agree_genuine hI w (genuine_named (hgenuine hsome))
            (genuine_named (hgenuine' (isSome_expand? name hlen ▸ hsome)))
            (equivUnder_named.2 ⟨rfl, heq⟩)

/-- Equivalent coherent types are read as types that agree. -/
theorem faithful (w : r.Regular P) (n : Nat) : w.Faithful I n := by
  induction n using Nat.strong_induction_on with
  | _ n ih =>
  cases n with
  | zero => exact fun _ _ _ _ _ _ _ => agree_zero _ _
  | succ n =>
  have hbelow : w.Faithful I n := ih n (Nat.lt_succ_self n)
  -- Below a constructor the depth gets less; the parts of a head have that head.
  have hparts : ∀ {k : Compound} {ts us : List Ty} {m : Renaming},
      (∀ t ∈ ts, ∀ {u : Ty} {m : Renaming}, w.Coherent I u → Paired r I (n + 1) m t →
        equivUnder m t u = true → r.Agree (n + 1) (I.folded t) (I.folded u)) →
      w.Coherent I (k.of us) → Paired r I (n + 1) m (k.of ts) →
      Ty.Matched (fun t u => equivUnder m t u = true) ts us →
      r.Agree (n + 1) (I.folded (k.of ts)) (I.folded (k.of us)) :=
    fun ih hus hm hmatch => agree_folded_of (hmatch.mono fun t ht u hu heq =>
      ih t ht (coherent_of.1 hus u hu) (hm.part fun id hid => bare_of.2 ⟨t, ht, hid⟩) heq)
  intro x y m hx hy hm heq
  induction hx generalizing y m with
  | var _ =>
      obtain ⟨v', rfl, hsame⟩ := exists_var_of_equivUnder heq
      exact hm.agree_unknown hI w hsame
  | prim name =>
      rw [eq_prim_of_equivUnder heq]
      exact agree_leaf (fun _ => .prim name) (.prim name)
  | lit value =>
      rw [eq_lit_of_equivUnder heq]
      exact agree_leaf (fun _ => .lit value) (.lit value)
  | fn hp hq _ _ =>
      obtain ⟨p', q', rfl, heqp, heqq⟩ := exists_fn_of_equivUnder heq
      cases hy with
      | fn hp' hq' =>
          exact agree_fn (hbelow hp hp' (hm.below (Nat.lt_succ_self n) _) heqp)
            (hbelow hq hq' (hm.below (Nat.lt_succ_self n) _) heqq)
  | record hasc hfs hrow _ =>
      obtain ⟨gs, row', rfl⟩ := exists_record_of_equivUnder heq
      exact hbelow.record hI hm (.record hasc hfs hrow) hy heq
  | tuple hts _ =>
      obtain ⟨us, rfl, helems⟩ := exists_tuple_of_equivUnder heq
      cases hy with
      | tuple hus =>
          rw [Naming.folded_tuple, Naming.folded_tuple]
          exact agree_tuple (hbelow.forall₂ hm hts hus helems)
  | union _ iht =>
      obtain ⟨us, rfl, hmatch⟩ := exists_union_of_equivUnder heq
      exact hparts (k := .union) iht hy hm hmatch
  | inter _ iht =>
      obtain ⟨us, rfl, hmatch⟩ := exists_inter_of_equivUnder heq
      exact hparts (k := .inter) iht hy hm hmatch
  | named hargs hgenuine _ =>
      obtain ⟨args', rfl, hall⟩ := exists_named_of_equivUnder heq
      exact hbelow.named hI hm (.named hargs hgenuine) hy hall
  | @mu v t R hR ht hbare hagree iht =>
      obtain ⟨v', t', rfl, hbody⟩ := exists_mu_of_equivUnder heq
      cases hy with
      | @mu _ _ S hS ht' hbare' hagree' =>
          have hlow : ∀ j < n + 1, r.Agree j R.ty S.ty := fun j hj => by
            have h := ih j hj (.mu hR ht hbare hagree) (.mu hS ht' hbare' hagree')
              (hm.below hj _) heq
            rwa [Naming.folded, Naming.folded, Naming.refer_of_some hR,
              Naming.refer_of_some hS] at h
          have hnot : ¬ t.Bare v.id := fun hv => lt_irrefl _ (hbare _ _ hv hR)
          rw [Naming.folded, Naming.folded, Naming.refer_of_some hR, Naming.refer_of_some hS]
          exact (hagree _).trans
            ((iht ht' (hm.under hR hS hlow hnot) hbody).trans (hagree' _).symm)

end Regular

end Registry

end RowTypes
