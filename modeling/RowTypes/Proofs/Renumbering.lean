import RowTypes.Proofs.Tables
import RowTypes.Ty.Normal

/-!
# Types that differ in their numbers

The numbers of unknowns come from a supply, so the same work done at another time gives the same
types with other numbers.  `Alike` is that relation: two types have the same shape, part by part and
in the same order, and the numbers at the same places correspond.  Unlike equivalence it says
nothing about the order of alternatives, and it treats the numbers of binders like any others.

Where numbers correspond one to one, whatever looks at numbers only to compare them cannot tell the
two sides apart: equivalence, and with it what is kept when unions and intersections are built.
-/

namespace RowTypes

/-- Numbers that correspond do so one to one. -/
def OneToOne (F : Int → Int → Prop) : Prop :=
  ∀ ⦃a b a' b' : Int⦄, F a b → F a' b' → (a = a' ↔ b = b')

/-- Correspondences that share no number, on either side, are one to one together. -/
theorem OneToOne.or {F G : Int → Int → Prop} (hF : OneToOne F) (hG : OneToOne G)
    (hapart : ∀ {a b a' b'}, F a b → G a' b' → a ≠ a' ∧ b ≠ b') :
    OneToOne fun a b => F a b ∨ G a b := by
  rintro a b a' b' (hab | hab) (hab' | hab')
  · exact hF hab hab'
  · exact iff_of_false (hapart hab hab').1 (hapart hab hab').2
  · exact iff_of_false (hapart hab' hab).1.symm (hapart hab' hab).2.symm
  · exact hG hab hab'

/-- Two unknowns of one level have numbers that correspond. -/
def TyVar.Alike (F : Int → Int → Prop) (v w : TyVar) : Prop := F v.id w.id ∧ v.level = w.level

theorem TyVar.Alike.mono {F G : Int → Int → Prop} (hFG : ∀ a b, F a b → G a b) {v w : TyVar}
    (h : v.Alike F w) : v.Alike G w := ⟨hFG _ _ h.1, h.2⟩

theorem OneToOne.symm {F : Int → Int → Prop} (hF : OneToOne F) : OneToOne fun a b => F b a :=
  fun _ _ _ _ hab hab' => (hF hab hab').symm

theorem TyVar.Alike.symm {F : Int → Int → Prop} {v w : TyVar} (h : v.Alike F w) :
    w.Alike (fun a b => F b a) v := ⟨h.1, h.2.symm⟩

theorem TyVar.Alike.right_unique {F : Int → Int → Prop} (hF : OneToOne F) {v w w' : TyVar}
    (h : v.Alike F w) (h' : v.Alike F w') : w = w' := by
  obtain ⟨id, level⟩ := w
  obtain ⟨id', level'⟩ := w'
  obtain rfl : id = id' := (hF h.1 h'.1).1 rfl
  obtain rfl : level = level' := h.2.symm.trans h'.2
  rfl

namespace Ty

mutual

/-- Two types have the same shape, with numbers that correspond. -/
inductive Alike (F : Int → Int → Prop) : Ty → Ty → Prop
  | var {v w : TyVar} : v.Alike F w → Alike F (.var v) (.var w)
  | prim (name : String) : Alike F (.prim name) (.prim name)
  | lit (value : String) : Alike F (.lit value) (.lit value)
  | fn {p p' r r' : Ty} : Alike F p p' → Alike F r r' → Alike F (.fn p r) (.fn p' r')
  | record {fs fs' : List (String × Ty)} {row row' : Option TyVar} : AlikeFields F fs fs' →
      Option.Rel (TyVar.Alike F) row row' → Alike F (.record fs row) (.record fs' row')
  | tuple {ts ts' : List Ty} : AlikeAll F ts ts' → Alike F (.tuple ts) (.tuple ts')
  | union {ts ts' : List Ty} : AlikeAll F ts ts' → Alike F (.union ts) (.union ts')
  | inter {ts ts' : List Ty} : AlikeAll F ts ts' → Alike F (.inter ts) (.inter ts')
  | named (name : String) {ts ts' : List Ty} : AlikeAll F ts ts' →
      Alike F (.named name ts) (.named name ts')
  | mu {v w : TyVar} {t t' : Ty} : v.Alike F w → Alike F t t' → Alike F (.mu v t) (.mu w t')

inductive AlikeAll (F : Int → Int → Prop) : List Ty → List Ty → Prop
  | nil : AlikeAll F [] []
  | cons {t t' : Ty} {ts ts' : List Ty} : Alike F t t' → AlikeAll F ts ts' →
      AlikeAll F (t :: ts) (t' :: ts')

inductive AlikeFields (F : Int → Int → Prop) : List (String × Ty) → List (String × Ty) → Prop
  | nil : AlikeFields F [] []
  | cons (name : String) {t t' : Ty} {fs fs' : List (String × Ty)} : Alike F t t' →
      AlikeFields F fs fs' → AlikeFields F ((name, t) :: fs) ((name, t') :: fs')

end

variable {F G : Int → Int → Prop}

theorem AlikeAll.append {ts ts' us us' : List Ty} (h : AlikeAll F ts ts')
    (h' : AlikeAll F us us') : AlikeAll F (ts ++ us) (ts' ++ us') := by
  match h with
  | .nil => exact h'
  | .cons ht hts => exact .cons ht (AlikeAll.append hts h')

theorem AlikeAll.length_eq {ts ts' : List Ty} (h : AlikeAll F ts ts') :
    ts.length = ts'.length := by
  match h with
  | .nil => rfl
  | .cons _ hts => rw [List.length_cons, List.length_cons, hts.length_eq]

theorem AlikeFields.length_eq {fs fs' : List (String × Ty)} (h : AlikeFields F fs fs') :
    fs.length = fs'.length := by
  match h with
  | .nil => rfl
  | .cons _ _ hfs => rw [List.length_cons, List.length_cons, hfs.length_eq]

mutual

theorem Alike.mono (hFG : ∀ a b, F a b → G a b) : ∀ {t t' : Ty}, Alike F t t' → Alike G t t'
  | _, _, .var h => .var (h.mono hFG)
  | _, _, .prim name => .prim name
  | _, _, .lit value => .lit value
  | _, _, .fn hp hr => .fn (hp.mono hFG) (hr.mono hFG)
  | _, _, .record hfs hrow => .record (hfs.mono hFG) (by
      cases hrow with
      | some h => exact .some (h.mono hFG)
      | none => exact .none)
  | _, _, .tuple h => .tuple (h.mono hFG)
  | _, _, .union h => .union (h.mono hFG)
  | _, _, .inter h => .inter (h.mono hFG)
  | _, _, .named name h => .named name (h.mono hFG)
  | _, _, .mu hv ht => .mu (hv.mono hFG) (ht.mono hFG)

theorem AlikeAll.mono (hFG : ∀ a b, F a b → G a b) : ∀ {ts ts' : List Ty}, AlikeAll F ts ts' →
    AlikeAll G ts ts'
  | _, _, .nil => .nil
  | _, _, .cons ht hts => .cons (ht.mono hFG) (hts.mono hFG)

theorem AlikeFields.mono (hFG : ∀ a b, F a b → G a b) : ∀ {fs fs' : List (String × Ty)},
    AlikeFields F fs fs' → AlikeFields G fs fs'
  | _, _, .nil => .nil
  | _, _, .cons name ht hfs => .cons name (ht.mono hFG) (hfs.mono hFG)

end

mutual

theorem Alike.symm : ∀ {t t' : Ty}, Alike F t t' → Alike (fun a b => F b a) t' t
  | _, _, .var h => .var h.symm
  | _, _, .prim name => .prim name
  | _, _, .lit value => .lit value
  | _, _, .fn hp hr => .fn hp.symm hr.symm
  | _, _, .record hfs hrow => .record hfs.symm (by
      cases hrow with
      | some h => exact .some h.symm
      | none => exact .none)
  | _, _, .tuple h => .tuple h.symm
  | _, _, .union h => .union h.symm
  | _, _, .inter h => .inter h.symm
  | _, _, .named name h => .named name h.symm
  | _, _, .mu hv ht => .mu hv.symm ht.symm

theorem AlikeAll.symm : ∀ {ts ts' : List Ty}, AlikeAll F ts ts' →
    AlikeAll (fun a b => F b a) ts' ts
  | _, _, .nil => .nil
  | _, _, .cons ht hts => .cons ht.symm hts.symm

theorem AlikeFields.symm : ∀ {fs fs' : List (String × Ty)}, AlikeFields F fs fs' →
    AlikeFields (fun a b => F b a) fs' fs
  | _, _, .nil => .nil
  | _, _, .cons name ht hfs => .cons name ht.symm hfs.symm

end

mutual

/-- Where numbers correspond one to one, no two types are like the same one. -/
theorem Alike.right_unique (hF : OneToOne F) : ∀ {t u u' : Ty}, Alike F t u → Alike F t u' →
    u = u'
  | _, _, _, .var h, .var h' => by rw [h.right_unique hF h']
  | _, _, _, .prim _, .prim _ => rfl
  | _, _, _, .lit _, .lit _ => rfl
  | _, _, _, .fn hp hr, .fn hp' hr' => by rw [hp.right_unique hF hp', hr.right_unique hF hr']
  | _, _, _, .record hfs hrow, .record hfs' hrow' => by
      rw [hfs.right_unique hF hfs']
      congr 1
      cases hrow with
      | none => cases hrow'; rfl
      | some h =>
          cases hrow' with
          | some h' => rw [h.right_unique hF h']
  | _, _, _, .tuple h, .tuple h' => by rw [h.right_unique hF h']
  | _, _, _, .union h, .union h' => by rw [h.right_unique hF h']
  | _, _, _, .inter h, .inter h' => by rw [h.right_unique hF h']
  | _, _, _, .named _ h, .named _ h' => by rw [h.right_unique hF h']
  | _, _, _, .mu hv ht, .mu hv' ht' => by rw [hv.right_unique hF hv', ht.right_unique hF ht']

theorem AlikeAll.right_unique (hF : OneToOne F) : ∀ {ts us us' : List Ty}, AlikeAll F ts us →
    AlikeAll F ts us' → us = us'
  | _, _, _, .nil, .nil => rfl
  | _, _, _, .cons ht hts, .cons ht' hts' => by
      rw [ht.right_unique hF ht', hts.right_unique hF hts']

theorem AlikeFields.right_unique (hF : OneToOne F) : ∀ {fs gs gs' : List (String × Ty)},
    AlikeFields F fs gs → AlikeFields F fs gs' → gs = gs'
  | _, _, _, .nil, .nil => rfl
  | _, _, _, .cons _ ht hfs, .cons _ ht' hfs' => by
      rw [ht.right_unique hF ht', hfs.right_unique hF hfs']

end

/-! ## Equivalence -/

/-- Renamings whose pairs correspond. -/
def RenamesAlike (F : Int → Int → Prop) (m m' : Renaming) : Prop :=
  List.Forall₂ (fun p q => F p.1 q.1 ∧ F p.2 q.2) m m'

variable {m m' : Renaming}

/-- A number is found in two renamings at the same place, or in neither. -/
theorem RenamesAlike.lookup (hF : OneToOne F) (hm : RenamesAlike F m m') {a a' : Int}
    (ha : F a a') : Option.Rel F (m.lookup a) (m'.lookup a') := by
  induction hm with
  | nil => exact .none
  | @cons p q m m' hpq _ ih =>
      obtain ⟨x, y⟩ := p
      obtain ⟨x', y'⟩ := q
      have hx := hF ha hpq.1
      by_cases h : a = x
      · have h' : a' = x' := hx.1 h
        rw [h, h', List.lookup_cons_self, List.lookup_cons_self]
        exact .some hpq.2
      · have h' : a' ≠ x' := fun h' => h (hx.2 h')
        rw [List.lookup_cons, List.lookup_cons, beq_false_of_ne h, beq_false_of_ne h']
        exact ih

theorem sameUnder_congr (hF : OneToOne F) (hm : RenamesAlike F m m') {v v' w w' : TyVar}
    (hv : v.Alike F v') (hw : w.Alike F w') : v.sameUnder m w = v'.sameUnder m' w' := by
  have hlookup := hm.lookup hF hv.1
  have hbeq : ∀ {a a' : Int}, F a a' → (a == w.id) = (a' == w'.id) := fun ha => by
    rw [Bool.eq_iff_iff, beq_iff_eq, beq_iff_eq]
    exact hF ha hw.1
  unfold TyVar.sameUnder
  generalize m.lookup v.id = x at hlookup ⊢
  generalize m'.lookup v'.id = x' at hlookup ⊢
  cases hlookup with
  | none => exact hbeq hv.1
  | some h => exact hbeq h

theorem sameRow_congr (hF : OneToOne F) (hm : RenamesAlike F m m') {x x' y y' : Option TyVar}
    (hx : Option.Rel (TyVar.Alike F) x x')
    (hy : Option.Rel (TyVar.Alike F) y y') : sameRow m x y = sameRow m' x' y' := by
  cases hx with
  | none => cases hy <;> rfl
  | some hv =>
      cases hy with
      | none => rfl
      | some hw => exact sameUnder_congr hF hm hv hw

/-- Fields that are alike are tables with the same keys. -/
theorem alikeFields_iff_paired {fs fs' : List (String × Ty)} :
    AlikeFields F fs fs' ↔ Table.Paired (Alike F) fs fs' := by
  constructor
  · intro h
    match h with
    | .nil => exact .nil
    | .cons _ ht hfs => exact .cons ⟨rfl, ht⟩ (alikeFields_iff_paired.1 hfs)
  · intro h
    induction h with
    | nil => exact .nil
    | @cons e e' fs fs' he _ ih =>
        obtain ⟨name, t⟩ := e
        obtain ⟨name', t'⟩ := e'
        obtain ⟨hname, ht⟩ := he
        dsimp only at hname ht
        subst hname
        exact .cons name ht ih

theorem AlikeFields.get? (name : String) {fs fs' : List (String × Ty)}
    (h : AlikeFields F fs fs') :
    Option.Rel (Alike F) (Table.get? name fs) (Table.get? name fs') :=
  (alikeFields_iff_paired.1 h).get? name

theorem AlikeFields.insert (name : String) {t t' : Ty} (ht : Alike F t t')
    {fs fs' : List (String × Ty)} (h : AlikeFields F fs fs') :
    AlikeFields F (Table.insert name t fs) (Table.insert name t' fs') :=
  alikeFields_iff_paired.2 ((alikeFields_iff_paired.1 h).insert name ht)

/-- Asking every type of two lists gives the same. -/
theorem AlikeAll.all_eq {f g : Ty → Bool} (hfg : ∀ {t t' : Ty}, Alike F t t' → f t = g t')
    {ts ts' : List Ty} (h : AlikeAll F ts ts') : ts.all f = ts'.all g := by
  match h with
  | .nil => rfl
  | .cons ht hts => rw [List.all_cons, List.all_cons, hfg ht, hts.all_eq hfg]

theorem AlikeAll.any_eq {f g : Ty → Bool} (hfg : ∀ {t t' : Ty}, Alike F t t' → f t = g t')
    {ts ts' : List Ty} (h : AlikeAll F ts ts') : ts.any f = ts'.any g := by
  match h with
  | .nil => rfl
  | .cons ht hts => rw [List.any_cons, List.any_cons, hfg ht, hts.any_eq hfg]

mutual

/-- Equivalence is the same question on both sides. -/
theorem equivUnder_congr (hF : OneToOne F) : ∀ {m m' : Renaming} {a a' b b' : Ty},
    RenamesAlike F m m' → Alike F a a' → Alike F b b' → equivUnder m a b = equivUnder m' a' b'
  | m, m', _, _, _, _, hm, .var hv, hb => by
      cases hb with
      | var hw =>
          rw [equivUnder, equivUnder]
          exact sameUnder_congr hF hm hv hw
      | _ => simp only [equivUnder]
  | m, m', _, _, _, _, _, .prim _, hb => by
      cases hb <;> simp only [equivUnder]
  | m, m', _, _, _, _, _, .lit _, hb => by
      cases hb <;> simp only [equivUnder]
  | m, m', _, _, _, _, hm, .fn hp hr, hb => by
      cases hb with
      | fn hp' hr' =>
          rw [equivUnder, equivUnder, equivUnder_congr hF hm hp hp',
            equivUnder_congr hF hm hr hr']
      | _ => simp only [equivUnder]
  | m, m', _, _, _, _, hm, .record hfs hrow, hb => by
      cases hb with
      | record hgs hrow' =>
          rw [equivUnder, equivUnder, hfs.length_eq, hgs.length_eq,
            sameRow_congr hF hm hrow hrow', equivFields_congr hF hm hfs hgs]
      | _ => simp only [equivUnder]
  | m, m', _, _, _, _, hm, .tuple has, hb => by
      cases hb with
      | tuple hbs => rw [equivUnder, equivUnder, equivAll_congr hF hm has hbs]
      | _ => simp only [equivUnder]
  | m, m', _, _, _, _, hm, .union has, hb => by
      cases hb with
      | union hbs =>
          rw [equivUnder, equivUnder, has.length_eq, hbs.length_eq, allAmong_congr hF hm has hbs,
            hbs.all_eq fun hb => someLike_congr hF hm has hb]
      | _ => simp only [equivUnder]
  | m, m', _, _, _, _, hm, .inter has, hb => by
      cases hb with
      | inter hbs =>
          rw [equivUnder, equivUnder, has.length_eq, hbs.length_eq, allAmong_congr hF hm has hbs,
            hbs.all_eq fun hb => someLike_congr hF hm has hb]
      | _ => simp only [equivUnder]
  | m, m', _, _, _, _, hm, .named _ has, hb => by
      cases hb with
      | named _ hbs => rw [equivUnder, equivUnder, equivAll_congr hF hm has hbs]
      | _ => simp only [equivUnder]
  | m, m', _, _, _, _, hm, .mu hv ht, hb => by
      cases hb with
      | mu hw hu =>
          rw [equivUnder, equivUnder]
          exact equivUnder_congr hF (.cons ⟨hv.1, hw.1⟩ hm) ht hu
      | _ => simp only [equivUnder]

theorem equivAll_congr (hF : OneToOne F) : ∀ {m m' : Renaming} {as as' bs bs' : List Ty},
    RenamesAlike F m m' → AlikeAll F as as' → AlikeAll F bs bs' →
    equivAll m as bs = equivAll m' as' bs'
  | m, m', _, _, _, _, _, .nil, hbs => by
      cases hbs <;> simp only [equivAll]
  | m, m', _, _, _, _, hm, .cons ha has, hbs => by
      cases hbs with
      | nil => simp only [equivAll]
      | cons hb hbs =>
          rw [equivAll, equivAll, equivUnder_congr hF hm ha hb, equivAll_congr hF hm has hbs]

theorem equivFields_congr (hF : OneToOne F) : ∀ {m m' : Renaming}
    {fs fs' gs gs' : List (String × Ty)}, RenamesAlike F m m' → AlikeFields F fs fs' →
    AlikeFields F gs gs' → equivFields m fs gs = equivFields m' fs' gs'
  | m, m', _, _, _, _, _, .nil, _ => by rw [equivFields, equivFields]
  | m, m', _, _, gs, gs', hm, .cons name ht hfs, hgs => by
      rw [equivFields, equivFields, equivFields_congr hF hm hfs hgs]
      congr 1
      have hget := AlikeFields.get? name hgs
      generalize Table.get? name gs = x at hget ⊢
      generalize Table.get? name gs' = x' at hget ⊢
      cases hget with
      | none => rfl
      | some hb => exact equivUnder_congr hF hm ht hb

theorem allAmong_congr (hF : OneToOne F) : ∀ {m m' : Renaming} {as as' bs bs' : List Ty},
    RenamesAlike F m m' → AlikeAll F as as' → AlikeAll F bs bs' →
    allAmong m as bs = allAmong m' as' bs'
  | m, m', _, _, _, _, _, .nil, _ => by rw [allAmong, allAmong]
  | m, m', _, _, _, _, hm, .cons ha has, hbs => by
      rw [allAmong, allAmong, allAmong_congr hF hm has hbs,
        hbs.any_eq fun hb => equivUnder_congr hF hm ha hb]

theorem someLike_congr (hF : OneToOne F) : ∀ {m m' : Renaming} {as as' : List Ty} {b b' : Ty},
    RenamesAlike F m m' → AlikeAll F as as' → Alike F b b' → someLike m as b = someLike m' as' b'
  | m, m', _, _, _, _, _, .nil, _ => by rw [someLike, someLike]
  | m, m', _, _, _, _, hm, .cons ha has, hb => by
      rw [someLike, someLike, equivUnder_congr hF hm ha hb, someLike_congr hF hm has hb]

end

/-! ## Unions and intersections -/

mutual

theorem Alike.alternatives : ∀ {t t' : Ty}, Alike F t t' → AlikeAll F t.alternatives t'.alternatives
  | _, _, .union h => h.alternatives
  | _, _, .var h => .cons (.var h) .nil
  | _, _, .prim name => .cons (.prim name) .nil
  | _, _, .lit value => .cons (.lit value) .nil
  | _, _, .fn hp hr => .cons (.fn hp hr) .nil
  | _, _, .record hfs hrow => .cons (.record hfs hrow) .nil
  | _, _, .tuple h => .cons (.tuple h) .nil
  | _, _, .inter h => .cons (.inter h) .nil
  | _, _, .named name h => .cons (.named name h) .nil
  | _, _, .mu hv ht => .cons (.mu hv ht) .nil

theorem AlikeAll.alternatives : ∀ {ts ts' : List Ty}, AlikeAll F ts ts' →
    AlikeAll F (alternativesAll ts) (alternativesAll ts')
  | _, _, .nil => .nil
  | _, _, .cons ht hts => ht.alternatives.append hts.alternatives

end

mutual

theorem Alike.membersOf : ∀ {t t' : Ty}, Alike F t t' → AlikeAll F t.membersOf t'.membersOf
  | _, _, .inter h => h.membersOf
  | _, _, .var h => .cons (.var h) .nil
  | _, _, .prim name => .cons (.prim name) .nil
  | _, _, .lit value => .cons (.lit value) .nil
  | _, _, .fn hp hr => .cons (.fn hp hr) .nil
  | _, _, .record hfs hrow => .cons (.record hfs hrow) .nil
  | _, _, .tuple h => .cons (.tuple h) .nil
  | _, _, .union h => .cons (.union h) .nil
  | _, _, .named name h => .cons (.named name h) .nil
  | _, _, .mu hv ht => .cons (.mu hv ht) .nil

theorem AlikeAll.membersOf : ∀ {ts ts' : List Ty}, AlikeAll F ts ts' →
    AlikeAll F (membersOfAll ts) (membersOfAll ts')
  | _, _, .nil => .nil
  | _, _, .cons ht hts => ht.membersOf.append hts.membersOf

end

theorem AlikeAll.addDistinct (hF : OneToOne F) {seen seen' : List Ty} {t t' : Ty}
    (hseen : AlikeAll F seen seen') (ht : Alike F t t') :
    AlikeAll F (addDistinct seen t) (addDistinct seen' t') := by
  have hany : (seen.any fun s => equiv s t) = seen'.any fun s => equiv s t' :=
    hseen.any_eq fun hs => equivUnder_congr hF .nil hs ht
  unfold Ty.addDistinct
  rw [hany]
  split
  · exact hseen
  · exact hseen.append (.cons ht .nil)

theorem AlikeAll.distinct (hF : OneToOne F) {ts ts' : List Ty} (h : AlikeAll F ts ts') :
    AlikeAll F (distinct ts) (distinct ts') := by
  have general : ∀ {ts ts' seen seen' : List Ty}, AlikeAll F ts ts' → AlikeAll F seen seen' →
      AlikeAll F (ts.foldl Ty.addDistinct seen) (ts'.foldl Ty.addDistinct seen') := by
    intro ts
    induction ts with
    | nil => intro ts' seen seen' h hseen; cases h; exact hseen
    | cons t ts ih =>
        intro ts' seen seen' h hseen
        cases h with
        | cons ht hts =>
            rw [List.foldl_cons, List.foldl_cons]
            exact ih hts (hseen.addDistinct hF ht)
  exact general h .nil

theorem AlikeAll.unionOf? (hF : OneToOne F) {ts ts' : List Ty} (h : AlikeAll F ts ts') :
    Option.Rel (Alike F) (unionOf? ts) (unionOf? ts') := by
  have hdistinct := h.alternatives.distinct hF
  unfold Ty.unionOf?
  generalize Ty.distinct (alternativesAll ts) = us at hdistinct ⊢
  generalize Ty.distinct (alternativesAll ts') = us' at hdistinct ⊢
  cases hdistinct with
  | nil => exact .none
  | cons ht hts =>
      cases hts with
      | nil => exact .some ht
      | cons ht' hts => exact .some (.union (.cons ht (.cons ht' hts)))

theorem AlikeAll.interOf? (hF : OneToOne F) {ts ts' : List Ty} (h : AlikeAll F ts ts') :
    Option.Rel (Alike F) (interOf? ts) (interOf? ts') := by
  have hdistinct := h.membersOf.distinct hF
  unfold Ty.interOf?
  generalize Ty.distinct (membersOfAll ts) = us at hdistinct ⊢
  generalize Ty.distinct (membersOfAll ts') = us' at hdistinct ⊢
  cases hdistinct with
  | nil => exact .none
  | cons ht hts =>
      cases hts with
      | nil => exact .some ht
      | cons ht' hts => exact .some (.inter (.cons ht (.cons ht' hts)))

end Ty

end RowTypes
