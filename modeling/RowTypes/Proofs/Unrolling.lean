import Mathlib.Logic.Relation
import RowTypes.Proofs.AlikeRegistries
import RowTypes.Registry.Normalize

/-!
# Types with each reference unrolled once

Which normal form a reference gets depends on what is being expanded around it, since a reference
that comes back to one of those stands for its binder.  References that come back to no other
reference but themselves do not depend on it: wherever such a reference is met, it is expanded in
the same way, and only its own binder is tied inside.  `Unrolls` describes that form by rules that
look at one reference at a time, the one whose expansion is being looked at.

Which numbers the binders have is a parameter.  Under two numberings of the references, two types
that are alike unroll to types that are alike.
-/

namespace RowTypes

open Ty

/-- A name and its arguments. -/
abbrev Reference := String × List Ty

def Reference.digest (R : Reference) : Digest := (Ty.named R.1 R.2).digest

namespace Registry

mutual

/-- The references of a type that are looked up when it is normalised.  The arguments of a
reference are looked at only if its name is not defined. -/
def visible (r : Registry) : Ty → List Reference
  | .var _ | .prim _ | .lit _ => []
  | .fn p q => visible r p ++ visible r q
  | .record fs _ => visibleFields r fs
  | .tuple ts | .union ts | .inter ts => visibleAll r ts
  | .named name args =>
    (name, args) :: if (r.lookup? name).isSome then [] else visibleAll r args
  | .mu _ t => visible r t

def visibleAll (r : Registry) : List Ty → List Reference
  | [] => []
  | t :: ts => visible r t ++ visibleAll r ts

def visibleFields (r : Registry) : List (String × Ty) → List Reference
  | [] => []
  | (_, t) :: fs => visible r t ++ visibleFields r fs

end

/-- Expanding the first reference shows the second. -/
def Shows (r : Registry) (R S : Reference) : Prop :=
  ∃ t, r.expand? R.1 R.2 = some t ∧ S ∈ r.visible t

/-- A reference is come to from one of some types, through the given references, the last one
first. -/
inductive Path (r : Registry) (roots : Ty → Prop) : Reference → List Reference → Prop
  | start {t : Ty} {R : Reference} : roots t → R ∈ r.visible t → Path r roots R []
  | next {R S : Reference} {Rs : List Reference} :
      Path r roots R Rs → r.Shows R S → Path r roots S (R :: Rs)

variable {r : Registry} {roots : Ty → Prop}

/-- The references on a path are come to themselves, and lead to its end. -/
theorem Path.of_mem {R S : Reference} {Rs : List Reference} (h : r.Path roots R Rs)
    (hS : S ∈ Rs) : (∃ Ss, r.Path roots S Ss) ∧ Relation.TransGen r.Shows S R := by
  induction h with
  | start _ _ => cases hS
  | next hpath hshows ih =>
      rcases List.mem_cons.1 hS with rfl | hS
      · exact ⟨⟨_, hpath⟩, .single hshows⟩
      · exact ⟨(ih hS).1, (ih hS).2.tail hshows⟩

end Registry

variable {r r' : Registry} {B B' : Reference → TyVar → Prop} {cur cur' : Option Reference}

/-- An expansion is made of the numbers of the definitions and of the arguments. -/
theorem Registry.over_expand? {P : Int → Prop}
    (hr : ∀ name d, r.lookup? name = some d → d.body.Over P) {name : String} {args : List Ty}
    {t : Ty} (hargs : ∀ u ∈ args, u.Over P) (h : r.expand? name args = some t) : t.Over P := by
  obtain ⟨d, hd, ht⟩ := Option.bind_eq_some_iff.1 h
  exact Definition.over_expand? (hr name d hd) hargs ht

/-- A recursive type, if the binder occurs. -/
def Ty.tied (b : TyVar) (t : Ty) : Ty := if t.occurs b then .mu b t else t

mutual

/-- A type with its references unrolled, where one reference may be the one that is being
unrolled around it.  Each reference has a binder. -/
inductive Unrolls (r : Registry) (B : Reference → TyVar → Prop) : Option Reference → Ty → Ty → Prop
  | var {cur : Option Reference} (v : TyVar) : Unrolls r B cur (.var v) (.var v)
  | prim {cur : Option Reference} (name : String) : Unrolls r B cur (.prim name) (.prim name)
  | lit {cur : Option Reference} (value : String) : Unrolls r B cur (.lit value) (.lit value)
  | fn {cur : Option Reference} {p q p' q' : Ty} : Unrolls r B cur p p' → Unrolls r B cur q q' →
      Unrolls r B cur (.fn p q) (.fn p' q')
  | record {cur : Option Reference} {fs fs' : List (String × Ty)} (row : Option TyVar) :
      UnrollsFields r B cur fs fs' → Unrolls r B cur (.record fs row) (.record fs' row)
  | tuple {cur : Option Reference} {ts ts' : List Ty} : UnrollsAll r B cur ts ts' →
      Unrolls r B cur (.tuple ts) (.tuple ts')
  | union {cur : Option Reference} {ts ts' : List Ty} : UnrollsAll r B cur ts ts' →
      Unrolls r B cur (.union ts) (unionOf ts')
  | inter {cur : Option Reference} {ts ts' : List Ty} : UnrollsAll r B cur ts ts' →
      Unrolls r B cur (.inter ts) (interOf ts')
  | mu {cur : Option Reference} (v : TyVar) {t t' : Ty} : Unrolls r B cur t t' →
      Unrolls r B cur (.mu v t) (.mu v t')
  /-- The reference that is being unrolled. -/
  | again {name : String} {args : List Ty} {b : TyVar} : B (name, args) b →
      Unrolls r B (some (name, args)) (.named name args) (.var b)
  /-- Another one. -/
  | unrolled {cur : Option Reference} {name : String} {args : List Ty} {b : TyVar} {t t' : Ty} :
      cur ≠ some (name, args) → r.expand? name args = some t → B (name, args) b →
      Unrolls r B (some (name, args)) t t' → Unrolls r B cur (.named name args) (tied b t')
  | undefined {cur : Option Reference} {name : String} {args args' : List Ty} :
      cur ≠ some (name, args) → r.lookup? name = none → UnrollsAll r B cur args args' →
      Unrolls r B cur (.named name args) (.named name args')
  | misfit {cur : Option Reference} {name : String} {args : List Ty} {d : Definition} :
      cur ≠ some (name, args) → r.lookup? name = some d → d.expand? args = none →
      Unrolls r B cur (.named name args) (.named name args)

inductive UnrollsAll (r : Registry) (B : Reference → TyVar → Prop) :
    Option Reference → List Ty → List Ty → Prop
  | nil {cur : Option Reference} : UnrollsAll r B cur [] []
  | cons {cur : Option Reference} {t t' : Ty} {ts ts' : List Ty} : Unrolls r B cur t t' →
      UnrollsAll r B cur ts ts' → UnrollsAll r B cur (t :: ts) (t' :: ts')

inductive UnrollsFields (r : Registry) (B : Reference → TyVar → Prop) :
    Option Reference → List (String × Ty) → List (String × Ty) → Prop
  | nil {cur : Option Reference} : UnrollsFields r B cur [] []
  | cons {cur : Option Reference} (name : String) {t t' : Ty} {fs fs' : List (String × Ty)} :
      Unrolls r B cur t t' → UnrollsFields r B cur fs fs' →
      UnrollsFields r B cur ((name, t) :: fs) ((name, t') :: fs')

end

mutual

theorem Unrolls.mono (hB : ∀ R b, B R b → B' R b) : ∀ {cur : Option Reference} {t t' : Ty},
    Unrolls r B cur t t' → Unrolls r B' cur t t'
  | _, _, _, .var v => .var v
  | _, _, _, .prim name => .prim name
  | _, _, _, .lit value => .lit value
  | _, _, _, .fn hp hq => .fn (hp.mono hB) (hq.mono hB)
  | _, _, _, .record row h => .record row (h.mono hB)
  | _, _, _, .tuple h => .tuple (h.mono hB)
  | _, _, _, .union h => .union (h.mono hB)
  | _, _, _, .inter h => .inter (h.mono hB)
  | _, _, _, .mu v h => .mu v (h.mono hB)
  | _, _, _, .again hb => .again (hB _ _ hb)
  | _, _, _, .unrolled hcur ht hb h => .unrolled hcur ht (hB _ _ hb) (h.mono hB)
  | _, _, _, .undefined hcur hname h => .undefined hcur hname (h.mono hB)
  | _, _, _, .misfit hcur hd hargs => .misfit hcur hd hargs

theorem UnrollsAll.mono (hB : ∀ R b, B R b → B' R b) : ∀ {cur : Option Reference}
    {ts ts' : List Ty}, UnrollsAll r B cur ts ts' → UnrollsAll r B' cur ts ts'
  | _, _, _, .nil => .nil
  | _, _, _, .cons h hs => .cons (h.mono hB) (hs.mono hB)

theorem UnrollsFields.mono (hB : ∀ R b, B R b → B' R b) : ∀ {cur : Option Reference}
    {fs fs' : List (String × Ty)}, UnrollsFields r B cur fs fs' → UnrollsFields r B' cur fs fs'
  | _, _, _, .nil => .nil
  | _, _, _, .cons name h hs => .cons name (h.mono hB) (hs.mono hB)

end

/-! ## Free unknowns -/

/-- Each reference has at most one binder, no two have the same, and their numbers are above a
bound. -/
structure Numbering (base : Nat) (B : Reference → TyVar → Prop) : Prop where
  level : ∀ {R b}, B R b → b.level = 0
  late : ∀ {R b}, B R b → (base : Int) < b.id
  functional : ∀ {R b c}, B R b → B R c → b = c
  injective : ∀ {R S b c}, B R b → B S c → b.id = c.id → R = S

section Free

variable {base : Nat} {P : Int → Prop}

/-- A number of the type, or the binder of the reference that is being unrolled. -/
def Loose (P : Int → Prop) (B : Reference → TyVar → Prop) (cur : Option Reference)
    (id : Int) : Prop :=
  P id ∨ ∃ R b, cur = some R ∧ B R b ∧ b.id = id

theorem mentions_tied {b : TyVar} {t : Ty} {id : Int} (h : (t.tied b).Mentions id) :
    id ≠ b.id ∧ t.Mentions id := by
  unfold tied at h
  split at h
  · obtain ⟨hne, hid⟩ := mentions_mu.1 h
    exact ⟨Ne.symm hne, hid⟩
  · next hocc =>
      refine ⟨?_, h⟩
      rintro rfl
      exact hocc (Ty.occurs_iff_mentions.2 h)

mutual

/-- Unrolling frees no binder but that of the reference that is being unrolled. -/
theorem Unrolls.loose (hB : Numbering base B)
    (hr : ∀ name d, r.lookup? name = some d → d.body.Over P) : ∀ {cur : Option Reference} {t t' : Ty},
    Unrolls r B cur t t' → t.Over P → ∀ id, t'.Mentions id → Loose P B cur id
  | _, _, _, .var _, ht, id, hid => .inl (mentions_var.1 hid ▸ over_var.1 ht)
  | _, _, _, .prim _, _, id, hid => absurd hid mentions_prim
  | _, _, _, .lit _, _, id, hid => absurd hid mentions_lit
  | _, _, _, .fn hp hq, ht, id, hid => (mentions_fn.1 hid).elim
      (hp.loose hB hr (over_fn.1 ht).1 id) (hq.loose hB hr (over_fn.1 ht).2 id)
  | _, _, _, .record _ h, ht, id, hid => by
      rcases mentions_record.1 hid with ⟨f, hf, hid⟩ | ⟨v, hv, rfl⟩
      · exact h.loose hB hr (over_record.1 ht).1 f hf id hid
      · exact .inl ((over_record.1 ht).2 v hv)
  | _, _, _, .tuple h, ht, id, hid => by
      obtain ⟨u, hu, hid⟩ := mentions_tuple.1 hid
      exact h.loose hB hr (over_tuple.1 ht) u hu id hid
  | _, _, _, .union h, ht, id, hid => by
      obtain ⟨u, hu, hid⟩ := mentions_unionOf hid
      exact h.loose hB hr (over_union.1 ht) u hu id hid
  | _, _, _, .inter h, ht, id, hid => by
      obtain ⟨u, hu, hid⟩ := mentions_interOf hid
      exact h.loose hB hr (over_inter.1 ht) u hu id hid
  | _, _, _, .mu _ h, ht, id, hid => h.loose hB hr (over_mu.1 ht).2 id (mentions_mu.1 hid).2
  | _, _, _, .again hb, _, id, hid => .inr ⟨_, _, rfl, hb, mentions_var.1 hid⟩
  | _, _, _, .unrolled _ hexpand hb h, ht, id, hid => by
      obtain ⟨hne, hid⟩ := mentions_tied hid
      have hbody := Registry.over_expand? hr (over_named.1 ht) hexpand
      rcases h.loose hB hr hbody id hid with hP | ⟨R, c, ⟨⟩, hc, rfl⟩
      · exact .inl hP
      · exact absurd (congrArg TyVar.id (hB.functional hc hb)) hne
  | _, _, _, .undefined _ _ h, ht, id, hid => by
      obtain ⟨u, hu, hid⟩ := mentions_named.1 hid
      exact h.loose hB hr (over_named.1 ht) u hu id hid
  | _, _, _, .misfit _ _ _, ht, id, hid => .inl (ht.of_mentions hid)

theorem UnrollsAll.loose (hB : Numbering base B)
    (hr : ∀ name d, r.lookup? name = some d → d.body.Over P) : ∀ {cur : Option Reference} {ts ts' : List Ty},
    UnrollsAll r B cur ts ts' → (∀ t ∈ ts, t.Over P) →
    ∀ u ∈ ts', ∀ id, u.Mentions id → Loose P B cur id
  | _, _, _, .nil, _ => fun _ hu => nomatch hu
  | _, _, _, .cons h hs, hts => List.forall_mem_cons.2
      ⟨h.loose hB hr (List.forall_mem_cons.1 hts).1, hs.loose hB hr (List.forall_mem_cons.1 hts).2⟩

theorem UnrollsFields.loose (hB : Numbering base B)
    (hr : ∀ name d, r.lookup? name = some d → d.body.Over P) : ∀ {cur : Option Reference}
    {fs fs' : List (String × Ty)}, UnrollsFields r B cur fs fs' → (∀ f ∈ fs, f.2.Over P) →
    ∀ f ∈ fs', ∀ id, f.2.Mentions id → Loose P B cur id
  | _, _, _, .nil, _ => fun _ hf => nomatch hf
  | _, _, _, .cons _ h hs, hfs => List.forall_mem_cons.2
      ⟨h.loose hB hr (List.forall_mem_cons.1 hfs).1, hs.loose hB hr (List.forall_mem_cons.1 hfs).2⟩

end

end Free

/-! ## Two numberings -/

variable {F : Int → Int → Prop}

section Alike

variable {base base' : Nat}

theorem AlikeRefs.symm {R R' : Reference} (h : AlikeRefs F R R') :
    AlikeRefs (fun a b => F b a) R' R := ⟨h.1.symm, h.2.symm⟩

theorem AlikeRefs.right_unique (hF : OneToOne F) {R S S' : Reference} (h : AlikeRefs F R S)
    (h' : AlikeRefs F R S') : S = S' :=
  Prod.ext (h.1.symm.trans h'.1) (h.2.right_unique hF h'.2)

/-- Numbers of binders correspond if their references are alike. -/
def Binders (F : Int → Int → Prop) (B B' : Reference → TyVar → Prop) (a b : Int) : Prop :=
  ∃ R R' v v', AlikeRefs F R R' ∧ B R v ∧ B' R' v' ∧ v.id = a ∧ v'.id = b

/-- Numbers correspond by themselves, or as those of binders. -/
def OrBinders (F : Int → Int → Prop) (B B' : Reference → TyVar → Prop) (a b : Int) : Prop :=
  F a b ∨ Binders F B B' a b

theorem oneToOne_orBinders (hF : OneToOne F) (hB : Numbering base B) (hB' : Numbering base' B')
    (hbase : ∀ a b, F a b → a ≤ base ∧ b ≤ base') : OneToOne (OrBinders F B B') := by
  refine hF.or ?_ ?_
  · rintro a b a' b' ⟨R, R', v, v', hR, hv, hv', rfl, rfl⟩ ⟨S, S', w, w', hS, hw, hw', rfl, rfl⟩
    constructor
    · intro h
      obtain rfl := hB.injective hv hw h
      obtain rfl := hR.right_unique hF hS
      rw [hB'.functional hv' hw']
    · intro h
      obtain rfl := hB'.injective hv' hw' h
      obtain rfl := hR.symm.right_unique hF.symm hS.symm
      rw [hB.functional hv hw]
  · rintro a b a' b' hab ⟨S, S', w, w', -, hw, hw', rfl, rfl⟩
    have := hbase a b hab
    have := hB.late hw
    have := hB'.late hw'
    omega

/-- What two registries and two numberings have to do with each other for types that are alike to
unroll to types that are alike. -/
structure Matched (F : Int → Int → Prop) (r r' : Registry) (B B' : Reference → TyVar → Prop) :
    Prop where
  oneToOne : OneToOne F
  registry : r.Alike F r'
  binders : OneToOne (OrBinders F B B')
  level : ∀ {R b}, B R b → b.level = 0
  level' : ∀ {R b}, B' R b → b.level = 0

variable (m : Matched F r r' B B')

include m

theorem Matched.binder {name : String} {args args' : List Ty} {b b' : TyVar}
    (hargs : AlikeAll F args args') (hb : B (name, args) b) (hb' : B' (name, args') b') :
    b.Alike (OrBinders F B B') b' :=
  ⟨.inr ⟨(name, args), (name, args'), b, b', ⟨rfl, hargs⟩, hb, hb', rfl, rfl⟩, (m.level hb).trans (m.level' hb').symm⟩

theorem Matched.tied {b b' : TyVar} {t t' : Ty} (hb : b.Alike (OrBinders F B B') b')
    (ht : t.Alike (OrBinders F B B') t') :
    (t.tied b).Alike (OrBinders F B B') (t'.tied b') := by
  unfold Ty.tied
  rw [ht.occurs_eq m.binders hb]
  split
  · exact .mu hb ht
  · exact ht

/-- A reference is being unrolled on both sides or on neither. -/
theorem Matched.again_iff {name : String} {args args' : List Ty}
    (hcur : Option.Rel (AlikeRefs F) cur cur') (hargs : AlikeAll F args args') :
    cur = some (name, args) ↔ cur' = some (name, args') := by
  have href : AlikeRefs F (name, args) (name, args') := ⟨rfl, hargs⟩
  cases hcur with
  | none => simp
  | some h =>
      rw [Option.some_inj, Option.some_inj]
      constructor
      · rintro rfl
        exact h.right_unique m.oneToOne href
      · rintro rfl
        exact h.symm.right_unique m.oneToOne.symm href.symm

theorem Matched.expand? {name : String} {args args' : List Ty} {t t' : Ty}
    (hargs : AlikeAll F args args') (ht : r.expand? name args = some t)
    (ht' : r'.expand? name args' = some t') : t.Alike F t' := by
  have h := m.registry.expand? m.oneToOne name hargs
  rw [ht, ht'] at h
  cases h
  assumption

/-- A name is defined, with as many parameters, on both sides or on neither. -/
theorem Matched.isSome_expand? (name : String) {args args' : List Ty}
    (hargs : AlikeAll F args args') :
    (r.lookup? name).isSome = (r'.lookup? name).isSome ∧
      (r.expand? name args).isSome = (r'.expand? name args').isSome := by
  have hlookup := m.registry.lookup? name
  have hexpand := m.registry.expand? m.oneToOne name hargs
  generalize r.lookup? name = x at hlookup ⊢
  generalize r'.lookup? name = x' at hlookup ⊢
  generalize r.expand? name args = y at hexpand ⊢
  generalize r'.expand? name args' = y' at hexpand ⊢
  constructor
  · cases hlookup <;> rfl
  · cases hexpand <;> rfl

end Alike

mutual

/-- Types that are alike unroll to types that are alike. -/
theorem Unrolls.alike (m : Matched F r r' B B') : ∀ {cur cur' : Option Reference}
    {t t' u u' : Ty}, Unrolls r B cur t u → t.Alike F t' → Unrolls r' B' cur' t' u' →
    Option.Rel (AlikeRefs F) cur cur' → u.Alike (OrBinders F B B') u'
  | _, _, _, _, _, _, .var _, .var hv, .var _, _ => .var (hv.mono fun _ _ => .inl)
  | _, _, _, _, _, _, .prim _, .prim name, .prim _, _ => .prim name
  | _, _, _, _, _, _, .lit _, .lit value, .lit _, _ => .lit value
  | _, _, _, _, _, _, .fn hp hq, .fn ap aq, .fn hp' hq', hcur =>
      .fn (hp.alike m ap hp' hcur) (hq.alike m aq hq' hcur)
  | _, _, _, _, _, _, .record _ h, .record a hrow, .record _ h', hcur =>
      .record (h.alike m a h' hcur) (by
        cases hrow with
        | some hv => exact .some (hv.mono fun _ _ => .inl)
        | none => exact .none)
  | _, _, _, _, _, _, .tuple h, .tuple a, .tuple h', hcur => .tuple (h.alike m a h' hcur)
  | _, _, _, _, _, _, .union h, .union a, .union h', hcur =>
      (h.alike m a h' hcur).unionOf m.binders
  | _, _, _, _, _, _, .inter h, .inter a, .inter h', hcur =>
      (h.alike m a h' hcur).interOf m.binders
  | _, _, _, _, _, _, .mu _ h, .mu hv a, .mu _ h', hcur =>
      .mu (hv.mono fun _ _ => .inl) (h.alike m a h' hcur)
  | _, _, _, _, _, _, .again hb, .named _ a, h', hcur => by
      have hagain := (m.again_iff hcur a).1 rfl
      cases h' with
      | again hb' => exact .var (m.binder a hb hb')
      | unrolled hne | undefined hne | misfit hne => exact absurd hagain hne
  | _, _, _, _, _, _, @Unrolls.unrolled _ _ _ name _ _ _ _ hne ht hb h, .named _ a, h', hcur => by
      have hsome := (m.isSome_expand? name a).2
      rw [ht] at hsome
      cases h' with
      | again _ => exact absurd ((m.again_iff hcur a).2 rfl) hne
      | unrolled _ ht' hb' h' =>
          exact m.tied (m.binder a hb hb') (h.alike m (m.expand? a ht ht') h' (.some ⟨rfl, a⟩))
      | undefined _ hnone =>
          rw [Registry.expand?, hnone] at hsome
          cases hsome
      | misfit _ hd hargs =>
          rw [Registry.expand?, hd, Option.bind_some, hargs] at hsome
          cases hsome
  | _, _, _, _, _, _, @Unrolls.undefined _ _ _ name _ _ hne hnone h, .named _ a, h', hcur => by
      have hsome := m.isSome_expand? name a
      rw [Registry.expand?, hnone] at hsome
      cases h' with
      | again _ => exact absurd ((m.again_iff hcur a).2 rfl) hne
      | unrolled _ ht' _ _ => rw [ht'] at hsome; cases hsome.2
      | undefined _ _ h' => exact .named name (h.alike m a h' hcur)
      | misfit _ hd _ => rw [hd] at hsome; cases hsome.1
  | _, _, _, _, _, _, @Unrolls.misfit _ _ _ name _ _ hne hd hargs, .named _ a, h', hcur => by
      have hsome := m.isSome_expand? name a
      rw [Registry.expand?, hd, Option.bind_some, hargs] at hsome
      cases h' with
      | again _ => exact absurd ((m.again_iff hcur a).2 rfl) hne
      | unrolled _ ht' _ _ => rw [ht'] at hsome; cases hsome.2
      | undefined _ hnone _ => rw [hnone] at hsome; cases hsome.1
      | misfit _ _ _ => exact .named name (a.mono fun _ _ => .inl)

theorem UnrollsAll.alike (m : Matched F r r' B B') : ∀ {cur cur' : Option Reference}
    {ts ts' us us' : List Ty}, UnrollsAll r B cur ts us → AlikeAll F ts ts' →
    UnrollsAll r' B' cur' ts' us' → Option.Rel (AlikeRefs F) cur cur' → AlikeAll (OrBinders F B B') us us'
  | _, _, _, _, _, _, .nil, .nil, .nil, _ => .nil
  | _, _, _, _, _, _, .cons h hs, .cons a as, .cons h' hs', hcur =>
      .cons (h.alike m a h' hcur) (hs.alike m as hs' hcur)

theorem UnrollsFields.alike (m : Matched F r r' B B') : ∀ {cur cur' : Option Reference}
    {fs fs' gs gs' : List (String × Ty)}, UnrollsFields r B cur fs gs → AlikeFields F fs fs' →
    UnrollsFields r' B' cur' fs' gs' → Option.Rel (AlikeRefs F) cur cur' →
    AlikeFields (OrBinders F B B') gs gs'
  | _, _, _, _, _, _, .nil, .nil, .nil, _ => .nil
  | _, _, _, _, _, _, .cons name h hs, .cons _ a as, .cons _ h' hs', hcur =>
      .cons name (h.alike m a h' hcur) (hs.alike m as hs' hcur)

end

end RowTypes
