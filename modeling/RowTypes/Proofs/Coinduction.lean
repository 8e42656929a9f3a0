import RowTypes.Proofs.NormalForms
import RowTypes.Proofs.Subtyping

/-!
# What unifying recursive types shows

Unifying two references, or two recursive types, assumes the pair, takes it apart, and lets the pair
pass if it comes up again.  So what a successful run shows is not a derivation but a relation: a set
of pairs, each of which is justified by pairs of the set.  For ground types nothing is ever bound,
and the set can be read off the run.

A run starts with some assumptions and ends with more.  What it shows is a list of pairs, each
justified by pairs of the list and by what was assumed at the start; whatever is assumed at the end
and was not at the start is in the list.  An attempt puts its assumptions back, but the pairs that
it showed stay in the list if it succeeded: they are justified, whether they are assumed or not.
Assuming a pair is paid back where the run that assumed it ends, because then the pair itself is
put on the list.

Assumptions are kept as digests.  That a digest is there says that its pair was assumed only as long
as no two pairs that come up have one digest, which is what `Registry.SetApart` asks for.
-/

namespace RowTypes

/-! ## Ground types -/

namespace Ty

/-- A type without free unknowns, in which every record is closed. -/
def Ground (t : Ty) : Prop := t.Rooted (fun _ => False) fun _ => False

variable {p r t : Ty} {ts : List Ty} {fs : List (String × Ty)} {row : Option TyVar} {v : TyVar}
  {name : String}

theorem not_ground_var : ¬ (Ty.var v).Ground := by rintro ⟨⟨⟩⟩

theorem ground_fn : (Ty.fn p r).Ground ↔ p.Ground ∧ r.Ground :=
  ⟨by rintro (_ | _ | _ | ⟨hp, hr⟩); exact ⟨hp, hr⟩, fun h => .fn h.1 h.2⟩

theorem Ground.closed (h : (Ty.record fs row).Ground) : row = none := by
  cases row with
  | none => rfl
  | some v => exact ((rooted_record.1 h).2 v rfl).elim

theorem ground_record : (Ty.record fs none).Ground ↔ ∀ f ∈ fs, f.2.Ground :=
  ⟨fun h => (rooted_record.1 h).1, fun h => rooted_record.2 ⟨h, nofun⟩⟩

theorem ground_named : (Ty.named name ts).Ground ↔ ∀ t ∈ ts, t.Ground :=
  ⟨by rintro ⟨⟩; assumption, .named⟩

end Ty

namespace Subst

variable {bindings : List (TyVar × Ty)} {id : Int} {u : Ty}

/-- What a list of bindings sends an unknown to is in the list. -/
theorem mem_of_get?_ofList (h : (ofList bindings).get? id = some u) :
    ∃ b ∈ bindings, b.1.id = id ∧ b.2 = u := by
  refine ofList_induction
    (C := fun s => s.get? id = some u → ∃ b ∈ bindings, b.1.id = id ∧ b.2 = u) (by simp)
    (fun b hb s hs h => ?_) h
  rw [get?_bind] at h
  split at h
  · next hid => exact ⟨b, hb, hid.symm, (held_eq_some h).1.symm⟩
  · exact hs h

/-- A list of bindings to types other than unknowns binds every unknown in it. -/
theorem ne_of_get?_ofList (hvar : ∀ b ∈ bindings, ∀ w : TyVar, b.2 ≠ .var w)
    (h : (ofList bindings).get? id = none) : ∀ b ∈ bindings, b.1.id ≠ id := by
  have general : ∀ (bindings : List (TyVar × Ty)) (s : Subst),
      (∀ b ∈ bindings, ∀ w : TyVar, b.2 ≠ .var w) →
      (bindings.foldl (fun s b => s.bind b.1 b.2) s).get? id = none →
      (∀ b ∈ bindings, b.1.id ≠ id) ∧ s.get? id = none := by
    intro bindings
    induction bindings with
    | nil => exact fun s _ h => ⟨by simp, h⟩
    | cons b bindings ih =>
        intro s hvar h
        rw [List.forall_mem_cons] at hvar ⊢
        obtain ⟨hrest, hnone⟩ := ih _ hvar.2 h
        rw [get?_bind, held_of_ne fun w hw => absurd hw (hvar.1 w)] at hnone
        split at hnone
        · cases hnone
        · next hid => exact ⟨⟨Ne.symm hid, hrest⟩, hnone⟩
  exact (general bindings empty hvar h).1

end Subst

namespace Definition

variable {d : Definition} {args : List Ty} {t : Ty}

/-- A definition of closed records whose free unknowns are its parameters. -/
def Closed (d : Definition) : Prop :=
  d.body.Rooted (fun _ => False) fun id => ∃ v ∈ d.params, v.id = id

theorem Closed.ground_expand? (hd : d.Closed) (hargs : ∀ u ∈ args, u.Ground)
    (ht : d.expand? args = some t) : t.Ground := by
  unfold expand? at ht
  split at ht
  · next hlen =>
      cases ht
      refine Ty.Rooted.apply hd (fun id hid hnone => ?_) (fun id hid => hid) fun id u hu => ?_
      · obtain ⟨v, hv, rfl⟩ := hid
        obtain ⟨u, hu⟩ : ∃ u, (v, u) ∈ d.params.zip args := by
          obtain ⟨i, hi, rfl⟩ := List.getElem_of_mem hv
          exact ⟨args[i], List.mem_iff_getElem.2 ⟨i, by simp [hlen, hi], by simp⟩⟩
        refine Subst.ne_of_get?_ofList (fun b hb w hw => ?_) hnone _ hu rfl
        exact Ty.not_ground_var (hw ▸ hargs b.2 (List.of_mem_zip hb).2)
      · obtain ⟨b, hb, -, rfl⟩ := Subst.mem_of_get?_ofList hu
        exact ⟨hargs b.2 (List.of_mem_zip hb).2, fun h => h.elim⟩
  · cases ht

end Definition

namespace Registry

/-- All definitions are closed. -/
def Closed (r : Registry) : Prop := ∀ entry ∈ r.definitions, entry.2.Closed

theorem Closed.ground_expand? {r : Registry} (hr : r.Closed) {name : String} {args : List Ty}
    {t : Ty} (hargs : ∀ u ∈ args, u.Ground) (ht : r.expand? name args = some t) : t.Ground := by
  obtain ⟨d, hd, ht⟩ := Option.bind_eq_some_iff.1 ht
  exact (hr _ (Table.mem_of_get? hd)).ground_expand? hargs ht

/-! ## Justified pairs -/

/-- The pairs that unifying two types comes to next. -/
def leads (r : Registry) (a b : Ty) : List (Ty × Ty) :=
  if a.equiv b then []
  else
    match a, b with
    | .named name args, b =>
      ((Relate.sameNameArgs? (.named name args) b).getD []) ++
        (r.expand? name args).toList.map fun t => (t, b)
    | a, .named name args => (r.expand? name args).toList.map fun t => (a, t)
    | .mu v t, b => [(.unfold v t, b)]
    | a, .mu v t => [(a, .unfold v t)]
    | .union as, .union bs => as ×ˢ bs ++ bs ×ˢ as
    | a, .union bs => bs.map fun b => (a, b)
    | a, .inter ms => ms.map fun m => (a, m)
    | .union as, b => as.map fun a => (b, a)
    | .inter ms, b => ms.map fun m => (b, m)
    | .fn p r, .fn p' r' => [(p, p'), (r, r')]
    | .tuple as, .tuple bs => as.zip bs
    | .record fs row, .record gs row' => RecordTy.sharedFields ⟨fs, row⟩ ⟨gs, row'⟩
    | _, _ => []

section

variable {r : Registry} {a b : Ty} {ts : List Ty}

theorem leads_expandRight {name : String} {args : List Ty}
    (hne : a.equiv (.named name args) = false) (hnamed : ∀ name args, a ≠ .named name args) :
    r.leads a (.named name args) = (r.expand? name args).toList.map fun t => (a, t) := by
  unfold leads
  rw [if_neg (by simp [hne])]
  cases a <;> first | rfl | exact absurd rfl (hnamed _ _)

theorem leads_unfold {v : TyVar} {t : Ty} (hne : (Ty.mu v t).equiv b = false)
    (hnamed : ∀ name args, b ≠ .named name args) :
    r.leads (.mu v t) b = [(.unfold v t, b)] := by
  unfold leads
  rw [if_neg (by simp [hne])]
  cases b <;> first | rfl | exact absurd rfl (hnamed _ _)

theorem leads_unfoldRight {v : TyVar} {t : Ty} (hne : a.equiv (.mu v t) = false)
    (hind : Relate.isIndirect a = false) : r.leads a (.mu v t) = [(a, .unfold v t)] := by
  unfold leads
  rw [if_neg (by simp [hne])]
  cases a <;> first | rfl | cases hind

theorem leads_intoUnion (hne : a.equiv (.union ts) = false) (hind : Relate.isIndirect a = false)
    (hunion : ∀ as, a ≠ .union as) : r.leads a (.union ts) = ts.map fun t => (a, t) := by
  unfold leads
  rw [if_neg (by simp [hne])]
  cases a <;> first | rfl | exact absurd rfl (hunion _) | cases hind

theorem leads_intoInter (hne : a.equiv (.inter ts) = false) (hind : Relate.isIndirect a = false) :
    r.leads a (.inter ts) = ts.map fun t => (a, t) := by
  unfold leads
  rw [if_neg (by simp [hne])]
  cases a <;> first | rfl | cases hind

theorem leads_fromUnion (hne : (Ty.union ts).equiv b = false) (hind : Relate.isIndirect b = false)
    (hunion : ∀ bs, b ≠ .union bs) (hinter : ∀ ms, b ≠ .inter ms) :
    r.leads (.union ts) b = ts.map fun t => (b, t) := by
  unfold leads
  rw [if_neg (by simp [hne])]
  cases b <;> first | rfl | exact absurd rfl (hunion _) | exact absurd rfl (hinter _) | cases hind

theorem leads_fromInter (hne : (Ty.inter ts).equiv b = false) (hind : Relate.isIndirect b = false)
    (hunion : ∀ bs, b ≠ .union bs) (hinter : ∀ ms, b ≠ .inter ms) :
    r.leads (.inter ts) b = ts.map fun t => (b, t) := by
  unfold leads
  rw [if_neg (by simp [hne])]
  cases b <;> first | rfl | exact absurd rfl (hunion _) | exact absurd rfl (hinter _) | cases hind

end

/-- Two types are justified by pairs of a relation: they are equivalent, or taking them apart in the
order in which unification does comes to pairs that are related. -/
inductive Justified (r : Registry) (S : Ty → Ty → Prop) : Ty → Ty → Prop where
  | equiv {a b : Ty} : a.equiv b = true → Justified r S a b
  | args {name : String} {as bs : List Ty} : as.length = bs.length →
      (∀ e ∈ as.zip bs, S e.1 e.2) → Justified r S (.named name as) (.named name bs)
  | expand {name : String} {args : List Ty} {t b : Ty} : r.expand? name args = some t → S t b →
      Justified r S (.named name args) b
  | expandRight {name : String} {args : List Ty} {a t : Ty} :
      (∀ name args, a ≠ .named name args) → r.expand? name args = some t → S a t →
      Justified r S a (.named name args)
  | unfold {v : TyVar} {t b : Ty} : (∀ name args, b ≠ .named name args) → S (.unfold v t) b →
      Justified r S (.mu v t) b
  | unfoldRight {v : TyVar} {a t : Ty} : Relate.isIndirect a = false → S a (.unfold v t) →
      Justified r S a (.mu v t)
  | unions {as bs : List Ty} : (∀ a ∈ as, ∃ b ∈ bs, S a b) → (∀ b ∈ bs, ∃ a ∈ as, S b a) →
      Justified r S (.union as) (.union bs)
  | intoUnion {bs : List Ty} {a : Ty} : Relate.isIndirect a = false → (∀ as, a ≠ .union as) →
      (∃ b ∈ bs, S a b) → Justified r S a (.union bs)
  | intoInter {ms : List Ty} {a : Ty} : Relate.isIndirect a = false → (∀ m ∈ ms, S a m) →
      Justified r S a (.inter ms)
  | fromUnion {as : List Ty} {b : Ty} : Relate.isIndirect b = false → (∀ bs, b ≠ .union bs) →
      (∀ ms, b ≠ .inter ms) → (∃ a ∈ as, S b a) → Justified r S (.union as) b
  | fromInter {ms : List Ty} {b : Ty} : Relate.isIndirect b = false → (∀ bs, b ≠ .union bs) →
      (∀ ms, b ≠ .inter ms) → (∀ m ∈ ms, S b m) → Justified r S (.inter ms) b
  | string (value : String) : Justified r S .string (.lit value)
  | literal (value : String) : Justified r S (.lit value) .string
  | fn {p p' q q' : Ty} : S p p' → S q q' → Justified r S (.fn p q) (.fn p' q')
  | tuple {as bs : List Ty} : as.length = bs.length → (∀ e ∈ as.zip bs, S e.1 e.2) →
      Justified r S (.tuple as) (.tuple bs)
  | record {fs gs : List (String × Ty)} :
      (∀ name, Option.Rel S (Table.get? name fs) (Table.get? name gs)) →
      Justified r S (.record fs none) (.record gs none)

section

variable {r : Registry} {S S' : Ty → Ty → Prop} {a b : Ty}

theorem Justified.mono (h : r.Justified S a b) (hS : ∀ a b, S a b → S' a b) :
    r.Justified S' a b := by
  cases h with
  | equiv h => exact .equiv h
  | args hlen h => exact .args hlen fun e he => hS _ _ (h e he)
  | expand ht h => exact .expand ht (hS _ _ h)
  | expandRight hne ht h => exact .expandRight hne ht (hS _ _ h)
  | unfold hne h => exact .unfold hne (hS _ _ h)
  | unfoldRight hne h => exact .unfoldRight hne (hS _ _ h)
  | unions h h' =>
      exact .unions (fun a ha => (h a ha).imp fun b hb => ⟨hb.1, hS _ _ hb.2⟩)
        fun b hb => (h' b hb).imp fun a ha => ⟨ha.1, hS _ _ ha.2⟩
  | intoUnion hind hne h => exact .intoUnion hind hne (h.imp fun b hb => ⟨hb.1, hS _ _ hb.2⟩)
  | intoInter hind h => exact .intoInter hind fun m hm => hS _ _ (h m hm)
  | fromUnion hind hne hne' h =>
      exact .fromUnion hind hne hne' (h.imp fun a ha => ⟨ha.1, hS _ _ ha.2⟩)
  | fromInter hind hne hne' h => exact .fromInter hind hne hne' fun m hm => hS _ _ (h m hm)
  | string value => exact .string value
  | literal value => exact .literal value
  | fn h h' => exact .fn (hS _ _ h) (hS _ _ h')
  | tuple hlen h => exact .tuple hlen fun e he => hS _ _ (h e he)
  | @record fs gs h =>
      refine .record fun name => ?_
      have hname := h name
      generalize Table.get? name fs = x, Table.get? name gs = y at hname ⊢
      cases hname with
      | none => exact .none
      | some h => exact .some (hS _ _ h)

end

/-- What a reference stands for, or a recursive type once unfolded. -/
def unwrap? (r : Registry) : Ty → Option Ty
  | .named name args => r.expand? name args
  | .mu v t => some (.unfold v t)
  | _ => none

theorem isIndirect_of_unwrap? {r : Registry} {t u : Ty} (h : r.unwrap? t = some u) :
    Relate.isIndirect t = true := by
  cases t <;> first | rfl | cases h

/-- One type is a subtype of another if comparisons hold: they are equivalent, or taking them apart
in the order in which subtyping does comes to comparisons that hold.  Of types without a rule of
their own, only the strings and a literal are unified. -/
inductive Sustained (r : Registry) (S : Comparison → Prop) : Ty → Ty → Prop where
  | equiv {a b : Ty} : a.equiv b = true → Sustained r S a b
  | unwrap {a t b : Ty} : r.unwrap? a = some t → S ⟨false, t, b⟩ → Sustained r S a b
  | unwrapRight {a b t : Ty} : Relate.isIndirect a = false → r.unwrap? b = some t →
      S ⟨false, a, t⟩ → Sustained r S a b
  | fromUnion {as : List Ty} {b : Ty} : Relate.isIndirect b = false →
      (∀ a ∈ as, S ⟨false, a, b⟩) → Sustained r S (.union as) b
  | intoUnion {bs : List Ty} {a : Ty} : Relate.isIndirect a = false → (∀ as, a ≠ .union as) →
      (∃ b ∈ bs, S ⟨false, a, b⟩) → Sustained r S a (.union bs)
  | fromInter {ms : List Ty} {b : Ty} : Relate.isIndirect b = false → (∀ bs, b ≠ .union bs) →
      (∃ m ∈ ms, S ⟨false, m, b⟩) → Sustained r S (.inter ms) b
  | intoInter {ms : List Ty} {a : Ty} : Relate.isIndirect a = false → (∀ as, a ≠ .union as) →
      (∀ ns, a ≠ .inter ns) → (∀ m ∈ ms, S ⟨false, a, m⟩) → Sustained r S a (.inter ms)
  | string (value : String) : Sustained r S .string (.lit value)
  | literal (value : String) : Sustained r S (.lit value) .string
  | fn {p p' q q' : Ty} : S ⟨false, p', p⟩ → S ⟨false, q, q'⟩ → Sustained r S (.fn p q) (.fn p' q')
  | tuple {as bs : List Ty} : as.length = bs.length → (∀ e ∈ as.zip bs, S ⟨false, e.1, e.2⟩) →
      Sustained r S (.tuple as) (.tuple bs)
  | record {fs gs : List (String × Ty)} :
      (∀ g ∈ gs, ∃ t, Table.get? g.1 fs = some t ∧ S ⟨true, t, g.2⟩) →
      Sustained r S (.record fs none) (.record gs none)

theorem Sustained.mono {r : Registry} {S S' : Comparison → Prop} {a b : Ty}
    (h : r.Sustained S a b) (hS : ∀ c, S c → S' c) : r.Sustained S' a b := by
  cases h with
  | equiv h => exact .equiv h
  | unwrap ht h => exact .unwrap ht (hS _ h)
  | unwrapRight hind ht h => exact .unwrapRight hind ht (hS _ h)
  | fromUnion hind h => exact .fromUnion hind fun a ha => hS _ (h a ha)
  | intoUnion hind hne h => exact .intoUnion hind hne (h.imp fun b hb => ⟨hb.1, hS _ hb.2⟩)
  | fromInter hind hne h => exact .fromInter hind hne (h.imp fun m hm => ⟨hm.1, hS _ hm.2⟩)
  | intoInter hind hne hne' h => exact .intoInter hind hne hne' fun m hm => hS _ (h m hm)
  | string value => exact .string value
  | literal value => exact .literal value
  | fn h h' => exact .fn (hS _ h) (hS _ h')
  | tuple hlen h => exact .tuple hlen fun e he => hS _ (h e he)
  | record h => exact .record fun g hg => (h g hg).imp fun t ht => ⟨ht.1, hS _ ht.2⟩

end Registry

namespace Comparison

/-- What a comparison is assumed by, whether its types are unified or not. -/
def digest (c : Comparison) : Digest := Relate.pairDigest c.sub c.super

/-- A comparison is justified by comparisons that hold. -/
def Justified (r : Registry) (S : Comparison → Prop) : Comparison → Prop
  | ⟨true, a, b⟩ => r.Justified (fun x y => S ⟨true, x, y⟩) a b
  | ⟨false, a, b⟩ => r.Sustained S a b

theorem Justified.mono {r : Registry} {S S' : Comparison → Prop} {c : Comparison}
    (h : c.Justified r S) (hS : ∀ c, S c → S' c) : c.Justified r S' :=
  match c, h with
  | ⟨true, _, _⟩, h => Registry.Justified.mono h fun _ _ => hS _
  | ⟨false, _, _⟩, h => Registry.Sustained.mono h hS

end Comparison

namespace Registry

/-! ## Pairs that come up -/

/-- A pair is compared when two types are unified, at most so many steps deep. -/
inductive Compares (r : Registry) : Nat → Ty × Ty → Ty × Ty → Prop where
  | here {n : Nat} (e : Ty × Ty) : Compares r (n + 1) e e
  | next {n : Nat} {c d e : Ty × Ty} : d ∈ r.leads c.1 c.2 → Compares r n d e → Compares r (n + 1) c e

/-- What comes up stays within pairs that lead to one another. -/
theorem Compares.mem {r : Registry} {pairs : List (Ty × Ty)}
    (h : ∀ c ∈ pairs, ∀ d ∈ r.leads c.1 c.2, d ∈ pairs) {n : Nat} {c e : Ty × Ty}
    (hcompares : r.Compares n c e) (hc : c ∈ pairs) : e ∈ pairs := by
  induction hcompares with
  | here e => exact hc
  | next hd _ ih => exact ih (h _ hc _ hd)

/-- A pair is assumed when it is compared: one of its types has to be expanded or unfolded. -/
def Assumable (e : Ty × Ty) : Prop :=
  e.1.equiv e.2 = false ∧ (Relate.isIndirect e.1 || Relate.isIndirect e.2) = true

/-- Different pairs that are assumed when two types are unified have different digests. -/
def SetApart (r : Registry) (n : Nat) (a b : Ty) : Prop :=
  ∀ e e', r.Compares n (a, b) e → r.Compares n (a, b) e' → Assumable e → Assumable e' →
    Relate.pairDigest e.1 e.2 = Relate.pairDigest e'.1 e'.2 → e = e'

/-- Only pairs that lead to one another need be told apart. -/
theorem setApart_of_mem {r : Registry} {n : Nat} {a b : Ty} {pairs : List (Ty × Ty)}
    (h : ∀ c ∈ pairs, ∀ d ∈ r.leads c.1 c.2, d ∈ pairs) (hab : (a, b) ∈ pairs)
    (hpairs : ∀ e ∈ pairs, ∀ e' ∈ pairs, Assumable e → Assumable e' →
      Relate.pairDigest e.1 e.2 = Relate.pairDigest e'.1 e'.2 → e = e') : r.SetApart n a b :=
  fun e e' he he' => hpairs e (he.mem h hab) e' (he'.mem h hab)

/-- If no reference or recursive type comes up beside the two types, only they are assumed. -/
theorem setApart_of_direct {r : Registry} {n : Nat} {a b : Ty} (pairs : List (Ty × Ty))
    (h : ∀ c ∈ (a, b) :: pairs, ∀ d ∈ r.leads c.1 c.2, d ∈ (a, b) :: pairs)
    (hpairs : ∀ e ∈ pairs, (Relate.isIndirect e.1 || Relate.isIndirect e.2) = false) :
    r.SetApart n a b := by
  have honly : ∀ e ∈ (a, b) :: pairs, Assumable e → e = (a, b) := by
    rintro e he ⟨-, hind⟩
    rcases List.mem_cons.1 he with rfl | he
    · rfl
    · rw [hpairs e he] at hind
      cases hind
  refine setApart_of_mem h List.mem_cons_self fun e he e' he' hind hind' _ => ?_
  rw [honly e he hind, honly e' he' hind']

/-- A property of ground types that goes over to the parts of a type, to what a reference stands for
and to the unfolding of a recursive type. -/
structure Hereditary (r : Registry) (P : Ty → Prop) : Prop where
  ground : ∀ {t}, P t → t.Ground
  fn : ∀ {p q}, P (.fn p q) → P p ∧ P q
  record : ∀ {fs row}, P (.record fs row) → ∀ f ∈ fs, P f.2
  tuple : ∀ {ts}, P (.tuple ts) → ∀ t ∈ ts, P t
  union : ∀ {ts}, P (.union ts) → ∀ t ∈ ts, P t
  inter : ∀ {ts}, P (.inter ts) → ∀ t ∈ ts, P t
  named : ∀ {name ts}, P (.named name ts) → ∀ t ∈ ts, P t
  expand : ∀ {name ts t}, P (.named name ts) → r.expand? name ts = some t → P t
  unfold : ∀ {v t}, P (.mu v t) → P (.unfold v t)

theorem Closed.hereditary_ground {r : Registry} (hr : r.Closed) : r.Hereditary Ty.Ground where
  ground h := h
  fn h := Ty.ground_fn.1 h
  record h := (Ty.rooted_record.1 h).1
  tuple h := Ty.rooted_tuple.1 h
  union h := Ty.rooted_union.1 h
  inter h := Ty.rooted_inter.1 h
  named h := Ty.ground_named.1 h
  expand h ht := hr.ground_expand? (Ty.ground_named.1 h) ht
  unfold h := Ty.Rooted.unfold h nofun

/-- What two types lead to has the properties that they hand on. -/
theorem Hereditary.leads {r : Registry} {P : Ty → Prop} (hP : r.Hereditary P) {a b : Ty} (ha : P a)
    (hb : P b) : ∀ e ∈ r.leads a b, P e.1 ∧ P e.2 := by
  intro e he
  unfold Registry.leads at he
  split at he
  · cases he
  split at he
  · next name args =>
      rcases List.mem_append.1 he with he | he
      · cases b with
        | named name' args' =>
            simp only [Relate.sameNameArgs?] at he
            split at he
            · obtain ⟨h, h'⟩ := List.of_mem_zip he
              exact ⟨hP.named ha _ h, hP.named hb _ h'⟩
            · cases he
        | _ => cases he
      · obtain ⟨t, ht, rfl⟩ := List.mem_map.1 he
        exact ⟨hP.expand ha (Option.mem_toList.1 ht), hb⟩
  · obtain ⟨t, ht, rfl⟩ := List.mem_map.1 he
    exact ⟨ha, hP.expand hb (Option.mem_toList.1 ht)⟩
  · rw [List.mem_singleton.1 he]
    exact ⟨hP.unfold ha, hb⟩
  · rw [List.mem_singleton.1 he]
    exact ⟨ha, hP.unfold hb⟩
  · rcases List.mem_append.1 he with he | he <;> obtain ⟨h, h'⟩ := List.pair_mem_product.1 he
    · exact ⟨hP.union ha _ h, hP.union hb _ h'⟩
    · exact ⟨hP.union hb _ h, hP.union ha _ h'⟩
  · obtain ⟨t, ht, rfl⟩ := List.mem_map.1 he
    exact ⟨ha, hP.union hb _ ht⟩
  · obtain ⟨t, ht, rfl⟩ := List.mem_map.1 he
    exact ⟨ha, hP.inter hb _ ht⟩
  · obtain ⟨t, ht, rfl⟩ := List.mem_map.1 he
    exact ⟨hb, hP.union ha _ ht⟩
  · obtain ⟨t, ht, rfl⟩ := List.mem_map.1 he
    exact ⟨hb, hP.inter ha _ ht⟩
  · obtain ⟨hp, hr⟩ := hP.fn ha
    obtain ⟨hp', hr'⟩ := hP.fn hb
    rcases List.mem_pair.1 he with rfl | rfl
    · exact ⟨hp, hp'⟩
    · exact ⟨hr, hr'⟩
  · obtain ⟨h, h'⟩ := List.of_mem_zip he
    exact ⟨hP.tuple ha _ h, hP.tuple hb _ h'⟩
  · obtain ⟨name, h, h'⟩ := RecordTy.mem_sharedFields.1 he
    exact ⟨hP.record ha _ (Table.mem_of_get? h), hP.record hb _ (Table.mem_of_get? h')⟩
  · cases he

/-- What comes up has the properties that types hand on. -/
theorem Hereditary.compares {r : Registry} {P : Ty → Prop} (hP : r.Hereditary P) {n : Nat}
    {c e : Ty × Ty} (h : r.Compares n c e) (hc : P c.1 ∧ P c.2) : P e.1 ∧ P e.2 := by
  induction h with
  | here e => exact hc
  | next hd _ ih => exact ih (hP.leads hc.1 hc.2 _ hd)

end Registry

namespace Relate

/-! ## What a run reveals -/

section Reveals

variable {r : Registry} {C M : Comparison → Prop} {ctx : Context} {rel unify : Relation}
  {m : Relate Subst} {Q R : (Comparison → Prop) → Prop} {a b : Ty} {c : Comparison} {k : Bool}
  {assumed assumed' assumed'' : List Digest} {shown shown' : List Comparison}

/-- A comparison that is on a list, or that was assumed at the start. -/
def Backed (M : Comparison → Prop) (assumed : List Digest) (shown : List Comparison)
    (c : Comparison) : Prop := c ∈ shown ∨ M c ∧ c.digest ∈ assumed

/-- Where nothing was assumed, a comparison is backed if it is on the list. -/
theorem backed_nil : Backed M [] shown c ↔ c ∈ shown := by simp [Backed]

/-- The comparisons of a list are among those that may be shown and are justified, and what is
assumed at the end is among them, if it was not assumed at the start. -/
structure Supports (r : Registry) (C M : Comparison → Prop)
    (assumed assumed' : List Digest) (shown : List Comparison) : Prop where
  proper : ∀ c ∈ shown, C c
  justified : ∀ c ∈ shown, c.Justified r (Backed M assumed shown)
  paid : ∀ c, M c → c.digest ∈ assumed' → Backed M assumed shown c

theorem supports_nil : Supports r C M assumed assumed [] :=
  ⟨by simp, by simp, fun _ hM hmem => .inr ⟨hM, hmem⟩⟩

/-- What the second of two runs assumed at its start, the first one has shown. -/
theorem Supports.backed_append (h : Supports r C M assumed assumed' shown)
    (hc : Backed M assumed' shown' c) : Backed M assumed (shown ++ shown') c := by
  rcases hc with hc | ⟨hM, hmem⟩
  · exact .inl (List.mem_append_right _ hc)
  · exact (h.paid c hM hmem).imp_left (List.mem_append_left _)

theorem Supports.append (h : Supports r C M assumed assumed' shown)
    (h' : Supports r C M assumed' assumed'' shown') :
    Supports r C M assumed assumed'' (shown ++ shown') where
  proper := List.forall_mem_append.2 ⟨h.proper, h'.proper⟩
  justified c hc := by
    rcases List.mem_append.1 hc with hc | hc
    · exact (h.justified c hc).mono fun _ hd => hd.imp_left (List.mem_append_left _)
    · exact (h'.justified c hc).mono fun _ => h.backed_append
  paid c hM hmem := h.backed_append (h'.paid c hM hmem)

/-- A comparison that is justified can be put on the list. What was assumed may be forgotten if the
comparison backs it. -/
theorem Supports.cons (h : Supports r C M assumed' assumed'' shown) (hC : C c)
    (hc : c.Justified r (Backed M assumed' shown))
    (hback : ∀ d, Backed M assumed' shown d → Backed M assumed (c :: shown) d) :
    Supports r C M assumed assumed'' (c :: shown) where
  proper := List.forall_mem_cons.2 ⟨hC, h.proper⟩
  justified := List.forall_mem_cons.2
    ⟨hc.mono hback, fun d hd => (h.justified d hd).mono hback⟩
  paid d hd hmem := hback d (h.paid d hd hmem)

/-- A successful run binds nothing, and reveals something about the comparisons that it has
shown. -/
def Reveals (r : Registry) (C M : Comparison → Prop) (m : Relate Subst)
    (Q : (Comparison → Prop) → Prop) : Prop :=
  ∀ p, Ends m p (fun s q => s = .empty ∧
    ∃ shown, Supports r C M p.assumed q.assumed shown ∧ Q (Backed M p.assumed shown)) fun _ _ => True

theorem reveals_pure (h : ∀ S, Q S) : Reveals r C M (pure .empty) Q := fun _ =>
  ends_pure ⟨rfl, [], supports_nil, h _⟩

theorem reveals_throw (e : Diagnostic) : Reveals r C M (throw e) Q := fun _ => ends_throw trivial

theorem Reveals.mono (h : Reveals r C M m Q) (hQ : ∀ S, Q S → R S) : Reveals r C M m R := fun p =>
  (h p).imp (fun _ _ ⟨hs, shown, hsupp, hshown⟩ => ⟨hs, shown, hsupp, hQ _ hshown⟩) fun _ _ h => h

theorem Reveals.bind {f : Subst → Relate Subst} (h : Reveals r C M m Q) (hQ : Monotone Q)
    (hf : Reveals r C M (f .empty) R) (hR : Monotone R) :
    Reveals r C M (m >>= f) fun S => Q S ∧ R S := by
  refine fun p => Ends.bind ((h p).imp ?_ fun _ _ h => h)
  rintro s q ⟨rfl, shown, hsupp, hshown⟩
  refine (hf q).imp ?_ fun _ _ h => h
  rintro s q' ⟨rfl, shown', hsupp', hshown'⟩
  refine ⟨rfl, shown ++ shown', hsupp.append hsupp', hQ ?_ hshown, hR ?_ hshown'⟩
  · exact fun _ hc => hc.imp_left (List.mem_append_left _)
  · exact fun _ hc => hsupp.backed_append hc

theorem reveals_orElseThrow {d : Diagnostic → Diagnostic} (h : Reveals r C M m Q) :
    Reveals r C M (orElseThrow m d) Q := fun p => ends_orElseThrow (h p)

theorem monotone_comparison (c : Comparison) : Monotone fun S : Comparison → Prop => S c :=
  fun _ _ hS h => hS c h

theorem monotone_pairs (k : Bool) (pairs : List (Ty × Ty)) :
    Monotone fun S : Comparison → Prop => ∀ e ∈ pairs, S ⟨k, e.1, e.2⟩ :=
  fun _ _ hS h e he => hS _ (h e he)

theorem monotone_into (as bs : List Ty) :
    Monotone fun S : Comparison → Prop => ∀ a ∈ as, ∃ b ∈ bs, S ⟨true, a, b⟩ :=
  fun _ _ hS h a ha => (h a ha).imp fun _ hb => ⟨hb.1, hS _ hb.2⟩

theorem reveals_thread : ∀ {pairs : List (Ty × Ty)},
    (∀ e ∈ pairs, Reveals r C M (rel e.1 e.2) fun S => S ⟨k, e.1, e.2⟩) →
      Reveals r C M (thread rel pairs .empty) fun S => ∀ e ∈ pairs, S ⟨k, e.1, e.2⟩
  | [], _ => reveals_pure (by simp)
  | (a, b) :: pairs, h => by
      obtain ⟨hhead, htail⟩ := List.forall_mem_cons.1 h
      rw [thread, Subst.apply_empty, Subst.apply_empty]
      refine (hhead.bind (monotone_comparison ⟨k, a, b⟩) ?_ (monotone_pairs k pairs)).mono ?_
      · exact reveals_thread htail
      · exact fun S hS => List.forall_mem_cons.2 hS

/-- A successful attempt reveals what it tried, and no attempt leaves an assumption behind. -/
theorem attempt_reveals (h : Reveals r C M m Q) (p : Progress) :
    ((attempt m).run p).2.assumed = p.assumed ∧
      ∀ s, ((attempt m).run p).1 = some s → s = .empty ∧
        ∃ shown, Supports r C M p.assumed p.assumed shown ∧ Q (Backed M p.assumed shown) := by
  have hends := h p
  unfold Ends at hends
  rw [show (attempt m).run p = attempt m p from rfl, attempt]
  generalize m.run p = out at hends
  obtain ⟨o, q⟩ := out
  cases o with
  | error e => exact ⟨rfl, fun _ h => by cases h⟩
  | ok s =>
      obtain ⟨hs, shown, hsupp, hQ⟩ := hends
      refine ⟨rfl, ?_⟩
      rintro s' ⟨⟩
      exact ⟨hs, shown, ⟨hsupp.proper, hsupp.justified, fun c hM hmem => .inr ⟨hM, hmem⟩⟩, hQ⟩

theorem firstOf_reveals {f : Ty → Relate Subst} {R : (Comparison → Prop) → Ty → Prop} :
    ∀ {ts : List Ty}, (∀ t ∈ ts, Reveals r C M (f t) fun S => R S t) → ∀ p : Progress,
      ((firstOf f ts).run p).2.assumed = p.assumed ∧
        ∀ s, ((firstOf f ts).run p).1 = some s → s = .empty ∧
          ∃ shown, Supports r C M p.assumed p.assumed shown ∧
            ∃ t ∈ ts, R (Backed M p.assumed shown) t
  | [], _, p => ⟨rfl, nofun⟩
  | t :: ts, h, p => by
      obtain ⟨hhead, htail⟩ := List.forall_mem_cons.1 h
      obtain ⟨hassumed, hsome⟩ := attempt_reveals hhead p
      rw [firstOf, StateM.run_bind]
      generalize (attempt (f t)).run p = out at hassumed hsome
      obtain ⟨o, q⟩ := out
      cases o with
      | some s =>
          refine ⟨hassumed, ?_⟩
          rintro s' ⟨⟩
          obtain ⟨hs, shown, hsupp, hR⟩ := hsome s rfl
          exact ⟨hs, shown, hsupp, t, List.mem_cons_self, hR⟩
      | none =>
          obtain ⟨hassumed', hsome'⟩ := firstOf_reveals htail q
          rw [show q.assumed = p.assumed from hassumed] at hassumed' hsome'
          refine ⟨hassumed', fun s hs => ?_⟩
          obtain ⟨hs, shown, hsupp, u, hu, hR⟩ := hsome' s hs
          exact ⟨hs, shown, hsupp, u, List.mem_cons_of_mem _ hu, hR⟩

/-- The first attempt that succeeds, or else a failure. -/
theorem reveals_firstOrThrow {f : Ty → Relate Subst} {R : (Comparison → Prop) → Ty → Prop}
    {ts : List Ty} (h : ∀ t ∈ ts, Reveals r C M (f t) fun S => R S t) (e : Diagnostic) :
    Reveals r C M (do match ← firstOf f ts with
      | some s => pure s
      | none => throw e) fun S => ∃ t ∈ ts, R S t := by
  intro p
  refine Ends.bind (ends_lift ?_)
  have hfirst := firstOf_reveals h p
  generalize (firstOf f ts).run p = out at hfirst
  obtain ⟨o, q⟩ := out
  obtain ⟨hassumed, hsome⟩ := hfirst
  cases o with
  | none => exact ends_throw trivial
  | some s =>
      obtain ⟨hs, shown, hsupp, hR⟩ := hsome s rfl
      exact ends_pure ⟨hs, shown, hassumed ▸ hsupp, hR⟩

theorem reveals_absorb {t : Ty} {alts : List Ty}
    (h : ∀ alt ∈ alts, Reveals r C M (unify t alt) fun S => S ⟨true, t, alt⟩) :
    Reveals r C M (absorb ctx unify t alts) fun S => ∃ alt ∈ alts, S ⟨true, t, alt⟩ :=
  reveals_firstOrThrow (R := fun S alt => S ⟨true, t, alt⟩) h _

theorem reveals_absorbAll {bs : List Ty} : ∀ {as : List Ty},
    (∀ a ∈ as, ∀ b ∈ bs, Reveals r C M (unify a b) fun S => S ⟨true, a, b⟩) →
      Reveals r C M (absorbAll ctx unify (.union bs) as .empty) fun S =>
        ∀ a ∈ as, ∃ b ∈ bs, S ⟨true, a, b⟩
  | [], _ => reveals_pure (by simp)
  | a :: as, h => by
      obtain ⟨hhead, htail⟩ := List.forall_mem_cons.1 h
      simp only [absorbAll, Subst.apply_empty]
      refine ((reveals_absorb hhead).bind ?_ ?_ (monotone_into as bs)).mono ?_
      · exact fun _ _ hS h => h.imp fun b hb => ⟨hb.1, hS _ hb.2⟩
      · exact reveals_absorbAll htail
      · exact fun S hS => List.forall_mem_cons.2 hS

theorem reveals_unifyUnions {as bs : List Ty}
    (h : ∀ e ∈ as ×ˢ bs ++ bs ×ˢ as, Reveals r C M (unify e.1 e.2) fun S => S ⟨true, e.1, e.2⟩) :
    Reveals r C M (unifyUnions ctx unify as bs) fun S =>
      (∀ a ∈ as, ∃ b ∈ bs, S ⟨true, a, b⟩) ∧ ∀ b ∈ bs, ∃ a ∈ as, S ⟨true, b, a⟩ := by
  have hright : ∀ a ∈ as, ∀ b ∈ bs, Reveals r C M (unify a b) fun S => S ⟨true, a, b⟩ :=
    fun a ha b hb => h (a, b) (List.mem_append_left _ (List.pair_mem_product.2 ⟨ha, hb⟩))
  have hleft : ∀ b ∈ bs, ∀ a ∈ as, Reveals r C M (unify b a) fun S => S ⟨true, b, a⟩ :=
    fun b hb a ha => h (b, a) (List.mem_append_right _ (List.pair_mem_product.2 ⟨hb, ha⟩))
  refine reveals_orElseThrow ((reveals_absorbAll hright).bind (monotone_into as bs) ?_ ?_)
  · exact reveals_absorbAll hleft
  · exact monotone_into bs as

theorem reveals_unifyWithMembers {t : Ty} {members : List Ty}
    (h : ∀ e ∈ members.map fun m => (t, m),
      Reveals r C M (unify e.1 e.2) fun S => S ⟨true, e.1, e.2⟩) :
    Reveals r C M (unifyWithMembers ctx unify t members) fun S =>
      ∀ m ∈ members, S ⟨true, t, m⟩ := by
  refine (reveals_orElseThrow (reveals_thread h)).mono fun S hS m hm => ?_
  exact hS (t, m) (List.mem_map_of_mem hm)

/-- Closed records are unified if they have the same names, field by field. -/
theorem reveals_unifyRecords {fs gs : List (String × Ty)}
    (h : ∀ e ∈ RecordTy.sharedFields ⟨fs, none⟩ ⟨gs, none⟩,
      Reveals r C M (unify e.1 e.2) fun S => S ⟨true, e.1, e.2⟩) :
    Reveals r C M (unifyRecords ctx unify ⟨fs, none⟩ ⟨gs, none⟩) fun S =>
      ∀ name, Option.Rel (fun a b => S ⟨true, a, b⟩) (Table.get? name fs)
        (Table.get? name gs) := by
  refine ((reveals_thread h).bind (monotone_pairs true _)
    (R := fun _ => ∀ name, (Table.get? name fs).isSome = (Table.get? name gs).isSome) ?_
    fun _ _ _ h => h).mono ?_
  · show Reveals r C M (if _ then pure .empty else throw _) _
    split
    · next honly =>
        rw [Bool.and_eq_true, List.isEmpty_iff, List.isEmpty_iff] at honly
        refine reveals_pure fun _ name => ?_
        have hnotA : name ∉ Text.Names.diff _ _ := honly.1 ▸ List.not_mem_nil
        have hnotB : name ∉ Text.Names.diff _ _ := honly.2 ▸ List.not_mem_nil
        rw [RecordTy.mem_diff] at hnotA hnotB
        simp only [RecordTy.field?] at hnotA hnotB
        cases ha : Table.get? name fs <;> cases hb : Table.get? name gs <;> simp_all
    · exact reveals_throw _
  rintro S ⟨hS, hnames⟩ name
  have hname := hnames name
  cases ha : Table.get? name fs with
  | none =>
      cases hb : Table.get? name gs with
      | none => exact .none
      | some b => simp [ha, hb] at hname
  | some a =>
      cases hb : Table.get? name gs with
      | none => simp [ha, hb] at hname
      | some b => exact .some (hS (a, b) (RecordTy.mem_sharedFields.2 ⟨name, ha, hb⟩))

/-- Unifying types whose constructors show. -/
theorem reveals_unifyShapes (ha : a.Ground) (hb : b.Ground) (hne : a.equiv b = false)
    (hinda : isIndirect a = false) (hindb : isIndirect b = false)
    (h : ∀ e ∈ r.leads a b, Reveals r C M (unify e.1 e.2) fun S => S ⟨true, e.1, e.2⟩) :
    Reveals r C M (unifyShapes ctx unify a b) fun S => r.Justified (fun x y => S ⟨true, x, y⟩) a b := by
  have hnot : ¬ a.equiv b = true := by simp [hne]
  unfold unifyShapes
  split
  · rw [Registry.leads, if_neg hnot] at h
    exact (reveals_unifyUnions h).mono fun S hS => .unions hS.1 hS.2
  · next hunion =>
      rw [Registry.leads_intoUnion hne hinda hunion] at h
      refine (reveals_absorb (List.forall_mem_map.1 h)).mono fun S hS => ?_
      exact .intoUnion hinda hunion hS
  · rw [Registry.leads_intoInter hne hinda] at h
    exact (reveals_unifyWithMembers h).mono fun S hS => .intoInter hinda hS
  · next hunion hinter =>
      rw [Registry.leads_fromUnion hne hindb hunion hinter] at h
      refine (reveals_absorb (List.forall_mem_map.1 h)).mono fun S hS => ?_
      exact .fromUnion hindb hunion hinter hS
  · next hunion hinter =>
      rw [Registry.leads_fromInter hne hindb hunion hinter] at h
      refine (reveals_unifyWithMembers h).mono fun S hS => ?_
      exact .fromInter hindb hunion hinter hS
  · exact reveals_pure fun S => .string _
  · exact reveals_pure fun S => .literal _
  · rw [Registry.leads, if_neg hnot] at h
    refine (reveals_thread h).mono fun S hS => ?_
    exact .fn (hS _ List.mem_cons_self) (hS _ (List.mem_cons_of_mem _ List.mem_cons_self))
  · rw [Registry.leads, if_neg hnot] at h
    split
    · next hlen => exact (reveals_thread h).mono fun S hS => .tuple hlen hS
    · exact reveals_throw _
  · obtain rfl := ha.closed
    obtain rfl := hb.closed
    rw [Registry.leads, if_neg hnot] at h
    exact (reveals_unifyRecords h).mono fun S hS => .record hS
  · exact reveals_throw _

theorem sameNameArgs?_eq_some {pairs : List (Ty × Ty)} (h : sameNameArgs? a b = some pairs) :
    ∃ name as bs, a = .named name as ∧ b = .named name bs ∧ as.length = bs.length ∧
      pairs = as.zip bs := by
  unfold sameNameArgs? at h
  split at h
  · next m as n bs =>
      split at h
      · next hsame =>
          obtain ⟨rfl, hlen⟩ := hsame
          cases h
          exact ⟨m, as, bs, rfl, rfl, hlen, rfl⟩
      · cases h
  · cases h

theorem isIndirect_eq_false (hnamed : ∀ name args, a ≠ .named name args)
    (hmu : ∀ v t, a ≠ .mu v t) : isIndirect a = false := by
  cases a <;> first | rfl | exact absurd rfl (hnamed _ _) | exact absurd rfl (hmu _ _)

/-- Taking a reference apart goes on with what it stands for. -/
theorem reveals_expand {f : Ty → Relate Subst} {name : String} {args : List Ty}
    (h : ∀ t, ctx.registry.expand? name args = some t → Reveals r C M (f t) Q) :
    Reveals r C M (expand ctx name args >>= f) Q := by
  intro p
  refine Ends.bind ?_
  unfold expand
  split
  · exact ends_throw trivial
  · next d hd =>
      split
      · next t ht => exact ends_pure (h t (by rw [Registry.expand?, hd]; exact ht) p)
      · exact ends_throw trivial

/-- A run that assumes a pair and then shows that it is justified reveals the pair. -/
theorem reveals_assume {f : Bool → Relate Subst} (hC : C ⟨k, a, b⟩) (hM : M ⟨k, a, b⟩)
    (hinj : ∀ c, M c → c.digest = pairDigest a b → c = ⟨k, a, b⟩) (hknown : f true = pure .empty)
    (hnew : Reveals r C M (f false) fun S => Comparison.Justified r S ⟨k, a, b⟩) :
    Reveals r C M (assume a b >>= f) fun S => S ⟨k, a, b⟩ := by
  intro p
  refine Ends.bind ?_
  rw [Ends, run_assume]
  by_cases hmem : p.assumed.contains (pairDigest a b) = true
  · rw [if_pos hmem]
    show Ends (f true) p _ _
    rw [hknown]
    exact ends_pure ⟨rfl, [], supports_nil, .inr ⟨hM, List.contains_iff_mem.1 hmem⟩⟩
  · rw [if_neg hmem]
    show Ends (f false) _ _ _
    refine (hnew _).imp ?_ fun _ _ h => h
    rintro s q ⟨hs, shown, hsupp, hab⟩
    -- The digest that was assumed in between is the digest of the pair itself.
    have hback : ∀ c, Backed M (pairDigest a b :: p.assumed) shown c →
        Backed M p.assumed (⟨k, a, b⟩ :: shown) c := by
      rintro c (hmem | ⟨hc, hmem⟩)
      · exact .inl (List.mem_cons_of_mem _ hmem)
      · rcases List.mem_cons.1 hmem with heq | hmem
        · exact .inl (hinj c hc heq ▸ List.mem_cons_self)
        · exact .inr ⟨hc, hmem⟩
    exact ⟨hs, _, hsupp.cons hC hab hback, .inl List.mem_cons_self⟩

/-- A comparison that is justified can be put on the list. -/
theorem reveals_justified (hC : C c) (h : Reveals r C M m fun S => c.Justified r S) :
    Reveals r C M m fun S => S c := by
  refine fun p => (h p).imp ?_ fun _ _ h => h
  rintro s q ⟨hs, shown, hsupp, hc⟩
  exact ⟨hs, _, hsupp.cons hC hc fun d hd => hd.imp_left (List.mem_cons_of_mem _),
    .inl List.mem_cons_self⟩

/-- Going on where an attempt fails. -/
theorem reveals_attempt {f : Option Subst → Relate Subst} (h : Reveals r C M m Q)
    (hsome : ∀ s, f (some s) = pure s) (hnone : Reveals r C M (f none) Q) :
    Reveals r C M (liftM (attempt m) >>= f) Q := by
  intro p
  refine Ends.bind (ends_lift ?_)
  have htry := attempt_reveals h p
  generalize (attempt m).run p = out at htry
  obtain ⟨o, q⟩ := out
  obtain ⟨hassumed, hfound⟩ := htry
  cases o with
  | some s =>
      obtain ⟨hs, shown, hsupp, hQ⟩ := hfound s rfl
      rw [hsome]
      exact ends_pure ⟨hs, shown, hassumed ▸ hsupp, hQ⟩
  | none =>
      have hends := hnone q
      rwa [show q.assumed = p.assumed from hassumed] at hends

/-- Unifies types of which one is expanded or unfolded first, once they are assumed. -/
def unifyExpanded (ctx : Context) (unify : Relation) (a b : Ty) : Relate Subst :=
  match a, b with
  | .named name args, b => do unify (← expand ctx name args) b
  | a, .named name args => do unify a (← expand ctx name args)
  | .mu v t, b => unify (.unfold v t) b
  | a, .mu v t => unify a (.unfold v t)
  | a, b => unify a b

/-- A pair is assumed, its arguments are tried, and then it is expanded. -/
theorem unifyIndirect_eq : unifyIndirect ctx unify a b = assume a b >>= fun known =>
    if known then pure .empty
    else match sameNameArgs? a b with
      | none => unifyExpanded ctx unify a b
      | some pairs => liftM (attempt (thread unify pairs .empty)) >>= fun found =>
        match found with
        | some s => pure s
        | none => unifyExpanded ctx unify a b := by
  unfold unifyIndirect
  congr 1
  funext known
  cases known with
  | true => rfl
  | false =>
      cases sameNameArgs? a b with
      | none => rfl
      | some pairs =>
          show (liftM _ >>= _) = (liftM _ >>= _)
          congr 1
          funext found
          cases found <;> rfl

theorem reveals_unifyExpanded (hne : a.equiv b = false)
    (hind : (isIndirect a || isIndirect b) = true)
    (h : ∀ e ∈ ctx.registry.leads a b,
      Reveals ctx.registry C M (unify e.1 e.2) fun S => S ⟨true, e.1, e.2⟩) :
    Reveals ctx.registry C M (unifyExpanded ctx unify a b)
      fun S => ctx.registry.Justified (fun x y => S ⟨true, x, y⟩) a b := by
  unfold unifyExpanded
  split
  · refine reveals_expand fun t ht => (h (t, _) ?_).mono fun S hS => .expand ht hS
    rw [Registry.leads, if_neg (by simp [hne])]
    exact List.mem_append_right _ (List.mem_map_of_mem (Option.mem_toList.2 ht))
  · next hnamed =>
      rw [Registry.leads_expandRight hne hnamed] at h
      refine reveals_expand fun t ht => (h (_, t) ?_).mono fun S hS => .expandRight hnamed ht hS
      exact List.mem_map_of_mem (Option.mem_toList.2 ht)
  · next hnamed =>
      rw [Registry.leads_unfold hne hnamed] at h
      exact (h _ List.mem_cons_self).mono fun S hS => .unfold hnamed hS
  · next hnamed hmu =>
      have hinda : isIndirect _ = false := isIndirect_eq_false hnamed hmu
      rw [Registry.leads_unfoldRight hne hinda] at h
      exact (h _ List.mem_cons_self).mono fun S hS => .unfoldRight hinda hS
  · next hnameda hmua hnamedb hmub =>
      rw [isIndirect_eq_false hnameda hmua, isIndirect_eq_false hnamedb hmub] at hind
      cases hind

/-- Unifying types of which one has to be expanded or unfolded. -/
theorem reveals_unifyIndirect (hC : C ⟨true, a, b⟩) (hne : a.equiv b = false)
    (hind : (isIndirect a || isIndirect b) = true) (hM : M ⟨true, a, b⟩)
    (hinj : ∀ c, M c → c.digest = pairDigest a b → c = ⟨true, a, b⟩)
    (h : ∀ e ∈ ctx.registry.leads a b,
      Reveals ctx.registry C M (unify e.1 e.2) fun S => S ⟨true, e.1, e.2⟩) :
    Reveals ctx.registry C M (unifyIndirect ctx unify a b) fun S => S ⟨true, a, b⟩ := by
  rw [unifyIndirect_eq]
  refine reveals_assume hC hM hinj rfl ?_
  simp only [Bool.false_eq_true, if_false]
  have hexpanded := reveals_unifyExpanded hne hind h
  cases hpairs : sameNameArgs? a b with
  | none => exact hexpanded
  | some pairs =>
      obtain ⟨name, as, bs, rfl, rfl, hlen, rfl⟩ := sameNameArgs?_eq_some hpairs
      have hargs : Reveals ctx.registry C M (thread unify (as.zip bs) .empty)
          fun S => ctx.registry.Justified (fun x y => S ⟨true, x, y⟩) (.named name as)
            (.named name bs) := by
        refine (reveals_thread fun e he => h e ?_).mono fun S hS => .args hlen hS
        rw [Registry.leads, if_neg (by simp [hne])]
        refine List.mem_append_left _ ?_
        rw [hpairs]
        exact he
      exact reveals_attempt hargs (fun _ => rfl) hexpanded

/-- Unifying ground types, at most so many steps deep. -/
theorem reveals_unify {P : Ty → Prop} (hP : ctx.registry.Hereditary P)
    (hinj : ∀ c d, M c → M d → c.digest = d.digest → c = d) :
    ∀ (n : Nat) {a b : Ty}, P a → P b →
      (∀ e, ctx.registry.Compares n (a, b) e → C ⟨true, e.1, e.2⟩) →
      (∀ e, ctx.registry.Compares n (a, b) e → Registry.Assumable e → M ⟨true, e.1, e.2⟩) →
      Reveals ctx.registry C M (Relate.unify ctx n a b) fun S => S ⟨true, a, b⟩
  | 0, _, _, _, _, _, _ => fun _ => ends_exceed trivial
  | n + 1, a, b, ha, hb, hcome, hcomp => by
      have ih : ∀ e ∈ ctx.registry.leads a b,
          Reveals ctx.registry C M (Relate.unify ctx n e.1 e.2) fun S => S ⟨true, e.1, e.2⟩ :=
        fun e he => reveals_unify hP hinj n (hP.leads ha hb e he).1 (hP.leads ha hb e he).2
          (fun d hd => hcome d (.next he hd)) fun d hd => hcomp d (.next he hd)
      have hhere : C ⟨true, a, b⟩ := hcome (a, b) (.here (a, b))
      have hself : Registry.Assumable (a, b) → M ⟨true, a, b⟩ := hcomp (a, b) (.here (a, b))
      show Reveals ctx.registry C M (unifyStep ctx (Relate.unify ctx n) a b) _
      unfold unifyStep
      split
      · next heq => exact reveals_justified hhere (reveals_pure fun S => .equiv heq)
      · next hne =>
          have hne : a.equiv b = false := by simpa using hne
          split
          · exact absurd (hP.ground ha) Ty.not_ground_var
          · exact absurd (hP.ground hb) Ty.not_ground_var
          · split
            · next hind =>
                exact reveals_unifyIndirect hhere hne hind (hself ⟨hne, hind⟩)
                  (fun c hc => hinj c ⟨true, a, b⟩ hc (hself ⟨hne, hind⟩)) ih
            · next hind =>
                rw [Bool.not_eq_true, Bool.or_eq_false_iff] at hind
                exact reveals_justified hhere (reveals_unifyShapes (hP.ground ha)
                  (hP.ground hb) hne hind.1 hind.2 ih)

/-- What a successful run on ground types shows, where nothing is assumed: a relation that justifies
its pairs. -/
theorem exists_justified_of_unify {P : Ty → Prop} (hP : ctx.registry.Hereditary P) (ha : P a)
    (hb : P b) {limit : Nat} (hapart : ctx.registry.SetApart limit a b) {p : Progress} {s : Subst}
    (h : ((Relate.unify ctx limit a b).run { supply := p.supply }).1 = .ok s) :
    ∃ S : Ty → Ty → Prop, S a b ∧ (∀ {x y}, S x y → P x ∧ P y) ∧
      ∀ {x y}, S x y → ctx.registry.Justified S x y := by
  have hends := reveals_unify (C := fun c => P c.sub ∧ P c.super)
    (M := fun c => (c.unified = true ∧ ctx.registry.Compares limit (a, b) (c.sub, c.super)) ∧
      Registry.Assumable (c.sub, c.super)) hP
    (fun c d hc hd heq => by
      have hpair := hapart _ _ hc.1.2 hd.1.2 hc.2 hd.2 heq
      cases c
      cases d
      simp_all) limit ha hb
    (fun e he => hP.compares he ⟨ha, hb⟩) (fun e he he' => ⟨⟨rfl, he⟩, he'⟩) { supply := p.supply }
  unfold Ends at hends
  split at hends
  · obtain ⟨-, shown, hsupp, hab⟩ := hends
    refine ⟨fun x y => ⟨true, x, y⟩ ∈ shown, backed_nil.1 hab, fun hxy => hsupp.proper _ hxy, ?_⟩
    exact fun hxy => Registry.Justified.mono (hsupp.justified _ hxy) fun _ _ => backed_nil.1
  · next heq =>
      rw [heq] at h
      cases h

end Reveals

end Relate

end RowTypes
