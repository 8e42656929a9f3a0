import RowTypes.Proofs.Alternatives
import RowTypes.Proofs.Equivalence

/-!
# What stands at the head of an instance

A definition with parameters has a body, and each of its instances is the body with arguments put
in.  How far do the references at the head of an instance follow those of the body?  Where the body
has a reference the instance has it too, with the arguments of the reference instantiated; where the
body ends in a parameter the instance goes on with an argument.  `Covers` is that relation: every
reference at the head of the instance is one of the body, with arguments that are covered again, or
it satisfies a predicate that the arguments brought along.

The references do not match one by one.  Putting arguments in builds intersections anew, and of
members that have become equivalent the first is kept; so the relation is a covering and not an
equality, and equivalent types cover each other.  Unions are the other way round: nothing is at the
head behind one, but a union whose alternatives have become the same is no union any more.  That is
excluded for the anchored ones: one alternative is no reference and no parameter, or two are
references to different names.
-/

namespace RowTypes

namespace Ty

/-! ## The references at the head of a type -/

theorem mem_headRefsAll {ref : String × List Ty} {ts : List Ty} :
    ref ∈ headRefsAll ts ↔ ∃ t ∈ ts, ref ∈ t.headRefs := by
  induction ts with
  | nil => simp [headRefsAll]
  | cons t ts ih => rw [headRefsAll, List.mem_append, ih, List.exists_mem_cons_iff]

/-- Whether a type starts with a constructor of values. -/
def isConstructed : Ty → Bool
  | .prim _ | .lit _ | .fn _ _ | .record _ _ | .tuple _ => true
  | _ => false

/-- Whether two types are references to different names. -/
def namedApart : Ty → Ty → Bool
  | .named m _, .named n _ => m != n
  | _, _ => false

/-- Whether some alternatives can never become one reference. -/
def anchored (ts : List Ty) : Bool :=
  ts.any isConstructed || ts.any fun t => ts.any fun u => namedApart t u

mutual

/-- Whether no union at the head of a type, or of an argument there, can become a reference. -/
def steady : Ty → Bool
  | .union ts => anchored ts
  | .inter ts | .named _ ts => steadyAll ts
  | .mu _ t => steady t
  | _ => true

def steadyAll : List Ty → Bool
  | [] => true
  | t :: ts => steady t && steadyAll ts

end

mutual

/-- Every reference at the head of the second type is one of the first, with arguments that are
covered again, or satisfies `P`. -/
def Covers (P : Ty → Prop) : Ty → Ty → Prop
  | u, .named name bs => P (.named name bs) ∨ ∃ as, (name, as) ∈ u.headRefs ∧ CoversAll P as bs
  | u, .inter ts => CoversEach P u ts
  | u, .mu _ t => Covers P u t
  | _, _ => True

def CoversEach (P : Ty → Prop) : Ty → List Ty → Prop
  | _, [] => True
  | u, t :: ts => Covers P u t ∧ CoversEach P u ts

def CoversAll (P : Ty → Prop) : List Ty → List Ty → Prop
  | [], [] => True
  | a :: as, b :: bs => Covers P a b ∧ CoversAll P as bs
  | _, _ => False

end

section Covers

variable {P : Ty → Prop} {u v t : Ty} {ts : List Ty}

theorem coversEach_iff : CoversEach P u ts ↔ ∀ t ∈ ts, Covers P u t := by
  induction ts with
  | nil => simp [CoversEach]
  | cons t ts ih => rw [CoversEach, ih, List.forall_mem_cons]

theorem coversAll_iff : ∀ {as bs : List Ty},
    CoversAll P as bs ↔ List.Forall₂ (Covers P) as bs
  | [], [] => by simp [CoversAll]
  | [], b :: bs => by simp [CoversAll]
  | a :: as, [] => by simp [CoversAll]
  | a :: as, b :: bs => by rw [CoversAll, coversAll_iff, List.forall₂_cons]

theorem covers_inter : Covers P u (.inter ts) ↔ ∀ t ∈ ts, Covers P u t := by
  rw [Covers, coversEach_iff]

mutual

theorem covers_iff : ∀ {t : Ty}, Covers P u t ↔ ∀ name bs, (name, bs) ∈ t.headRefs →
    P (.named name bs) ∨ ∃ as, (name, as) ∈ u.headRefs ∧ List.Forall₂ (Covers P) as bs
  | .named name bs => by simp [Covers, headRefs, coversAll_iff]
  | .inter ts => by rw [covers_inter, headRefs]; exact covers_all_iff
  | .mu v t => by rw [Covers, headRefs]; exact covers_iff
  | .var _ | .prim _ | .lit _ | .fn _ _ | .record _ _ | .tuple _ | .union _ => by
      simp [Covers, headRefs]

theorem covers_all_iff : ∀ {ts : List Ty}, (∀ t ∈ ts, Covers P u t) ↔
    ∀ name bs, (name, bs) ∈ headRefsAll ts →
    P (.named name bs) ∨ ∃ as, (name, as) ∈ u.headRefs ∧ List.Forall₂ (Covers P) as bs
  | [] => by simp [headRefsAll]
  | t :: ts => by
      rw [List.forall_mem_cons, covers_iff, covers_all_iff]
      simp only [headRefsAll, List.mem_append, or_imp, forall_and]

end

theorem covers_of_headRefs_nil (h : t.headRefs = []) : Covers P u t :=
  covers_iff.2 fun name bs hmem => by rw [h] at hmem; cases hmem

theorem Covers.of_subset (h : Covers P u t) (hsub : ∀ ref ∈ u.headRefs, ref ∈ v.headRefs) :
    Covers P v t := by
  refine covers_iff.2 fun name bs hmem => ?_
  refine (covers_iff.1 h name bs hmem).imp_right ?_
  rintro ⟨as, has, hcov⟩
  exact ⟨as, hsub _ has, hcov⟩

mutual

/-- The arguments of the references at the head of a type are smaller than the type. -/
theorem size_arg_lt {name : String} {args : List Ty} {a : Ty} : ∀ {t : Ty},
    (name, args) ∈ t.headRefs → a ∈ args → sizeOf a < sizeOf t
  | .named _ bs, href, ha => by
      rw [headRefs, List.mem_singleton] at href
      cases href
      have := List.sizeOf_lt_of_mem ha
      simp only [named.sizeOf_spec]
      omega
  | .inter ts, href, ha => by
      have := size_arg_lt_all href ha
      simp only [inter.sizeOf_spec]
      omega
  | .mu v t, href, ha => by
      have := size_arg_lt (t := t) href ha
      simp only [mu.sizeOf_spec]
      omega
  | .var _, href, _ | .prim _, href, _ | .lit _, href, _ | .fn _ _, href, _ | .record _ _, href, _
  | .tuple _, href, _ | .union _, href, _ => by cases href

theorem size_arg_lt_all {name : String} {args : List Ty} {a : Ty} : ∀ {ts : List Ty},
    (name, args) ∈ headRefsAll ts → a ∈ args → sizeOf a < sizeOf ts
  | t :: ts, href, ha => by
      rw [headRefsAll, List.mem_append] at href
      simp only [List.cons.sizeOf_spec]
      rcases href with href | href
      · have := size_arg_lt href ha
        omega
      · have := size_arg_lt_all href ha
        omega

end

/-- What holds of a type when it holds of all arguments at its head holds of every type. -/
theorem head_induction {Q : Ty → Prop}
    (h : ∀ t, (∀ name args, (name, args) ∈ t.headRefs → ∀ a ∈ args, Q a) → Q t) (t : Ty) : Q t :=
  h t fun _ _ _ a _ => head_induction h a
termination_by sizeOf t
decreasing_by exact size_arg_lt ‹_› ‹_›

theorem covers_refl (t : Ty) : Covers P t t := by
  induction t using head_induction with
  | h t ih =>
      refine covers_iff.2 fun name bs hmem => .inr ⟨bs, hmem, ?_⟩
      exact List.forall₂_same.2 fun b hb => ih name bs hmem b hb

/-- What is covered by a type is covered by a type that covers all of it. -/
theorem Covers.trans (h : Covers P u t) (h' : Covers (fun _ => False) v u) : Covers P v t := by
  induction t using head_induction generalizing u v with
  | h t ih =>
      refine covers_iff.2 fun name cs hmem => ?_
      refine (covers_iff.1 h name cs hmem).imp_right ?_
      rintro ⟨bs, hbs, hcov⟩
      obtain ⟨as, has, hcov'⟩ := (covers_iff.1 h' name bs hbs).resolve_left id
      refine ⟨as, has, ?_⟩
      have hall := ih name cs hmem
      clear hbs has hmem
      induction hcov generalizing as with
      | nil => cases hcov'; exact .nil
      | cons hbc _ ihl =>
          cases hcov' with
          | cons hab htail =>
              obtain ⟨hc, hcs⟩ := List.forall_mem_cons.1 hall
              exact .cons (hc hbc hab) (ihl _ htail hcs)

mutual

/-- A type covers the types it is equivalent to, since unknowns count for nothing at the head. -/
theorem covers_of_equivUnder {m : Renaming} : ∀ {a b : Ty}, equivUnder m a b = true → Covers P a b
  | .named _ as, .named _ bs, h => by
      rw [equivUnder, Bool.and_eq_true, beq_iff_eq] at h
      obtain ⟨rfl, h⟩ := h
      exact .inr ⟨as, List.mem_singleton.2 rfl, coversAll_of_equivAll h⟩
  | .inter as, .inter bs, h => by
      rw [equivUnder, Bool.and_eq_true, List.all_eq_true] at h
      exact coversEach_iff.2 (covers_of_someLike h.2)
  | .mu v t, .mu w u, h => by
      rw [equivUnder] at h
      rw [Covers]
      exact (covers_of_equivUnder h).of_subset fun _ href => href
  | _, .var _, _ | _, .prim _, _ | _, .lit _, _ | _, .fn _ _, _ | _, .record _ _, _
  | _, .tuple _, _ | _, .union _, _ => covers_of_headRefs_nil rfl
  | .var _, .named _ _, h | .prim _, .named _ _, h | .lit _, .named _ _, h
  | .fn _ _, .named _ _, h | .record _ _, .named _ _, h | .tuple _, .named _ _, h
  | .union _, .named _ _, h | .inter _, .named _ _, h | .mu _ _, .named _ _, h
  | .var _, .inter _, h | .prim _, .inter _, h | .lit _, .inter _, h
  | .fn _ _, .inter _, h | .record _ _, .inter _, h | .tuple _, .inter _, h
  | .union _, .inter _, h | .named _ _, .inter _, h | .mu _ _, .inter _, h
  | .var _, .mu _ _, h | .prim _, .mu _ _, h | .lit _, .mu _ _, h
  | .fn _ _, .mu _ _, h | .record _ _, .mu _ _, h | .tuple _, .mu _ _, h
  | .union _, .mu _ _, h | .named _ _, .mu _ _, h | .inter _, .mu _ _, h => by
      simp [equivUnder] at h

theorem coversAll_of_equivAll {m : Renaming} : ∀ {as bs : List Ty}, equivAll m as bs = true →
    CoversAll P as bs
  | [], [], _ => trivial
  | a :: as, b :: bs, h => by
      rw [equivAll, Bool.and_eq_true] at h
      exact ⟨covers_of_equivUnder h.1, coversAll_of_equivAll h.2⟩
  | [], b :: bs, h | a :: as, [], h => by simp [equivAll] at h

theorem covers_of_someLike {m : Renaming} {as : List Ty} : ∀ {bs : List Ty},
    (∀ b ∈ bs, someLike m as b = true) → ∀ b ∈ bs, Covers P (.inter as) b
  | [], _ => by simp
  | b :: bs, h => by
      obtain ⟨hb, hbs⟩ := List.forall_mem_cons.1 h
      refine List.forall_mem_cons.2 ⟨?_, covers_of_someLike hbs⟩
      obtain ⟨a, ha, hab⟩ := someLike_iff.1 hb
      refine (covers_of_equivUnder hab).of_subset fun ref href => ?_
      exact mem_headRefsAll.2 ⟨a, ha, href⟩

end

theorem StandsFor.covers (h : StandsFor u t) : Covers P u t := by
  rcases h with rfl | h
  · exact covers_refl u
  · exact covers_of_equivUnder h

/-! ## Intersections and unions after a substitution -/

mutual

theorem covers_membersOf : ∀ {t : Ty}, (∀ m ∈ t.membersOf, Covers P u m) → Covers P u t
  | .inter _, h => covers_inter.2 (covers_membersOfAll h)
  | .var _, h | .prim _, h | .lit _, h | .fn _ _, h | .record _ _, h | .tuple _, h | .union _, h
  | .named _ _, h | .mu _ _, h => h _ (List.mem_singleton.2 rfl)

theorem covers_membersOfAll : ∀ {ts : List Ty}, (∀ m ∈ membersOfAll ts, Covers P u m) →
    ∀ t ∈ ts, Covers P u t
  | [], _ => by simp
  | t :: ts, h => by
      rw [membersOfAll] at h
      refine List.forall_mem_cons.2 ⟨covers_membersOf fun m hm => ?_, covers_membersOfAll fun m hm => ?_⟩
      · exact h m (List.mem_append_left _ hm)
      · exact h m (List.mem_append_right _ hm)

end

theorem headRefs_subset_interOf {a : Ty} (ha : a ∈ distinct (membersOfAll ts)) :
    ∀ ref ∈ a.headRefs, ref ∈ (interOf ts).headRefs := by
  intro ref href
  unfold interOf interOf?
  split
  · next hnil => rw [hnil] at ha; cases ha
  · next b hb =>
      rw [hb, List.mem_singleton] at ha
      exact ha ▸ href
  · exact mem_headRefsAll.2 ⟨a, ha, href⟩

/-- An intersection covers what it was built from. -/
theorem covers_interOf_mem (ht : t ∈ ts) : Covers P (interOf ts) t := by
  refine covers_membersOf fun m hm => ?_
  obtain ⟨a, ha, ham⟩ := exists_mem_distinct (mem_membersOfAll.2 ⟨t, ht, hm⟩)
  exact ham.covers.of_subset (headRefs_subset_interOf ha)

theorem covers_apply_inter_mem (s : Subst) (ht : t ∈ ts) :
    Covers P (s.apply (.inter ts)) (s.apply t) := by
  by_cases hs : s.isEmpty = true
  · rw [Subst.apply_of_isEmpty hs, Subst.apply_of_isEmpty hs]
    exact (covers_refl t).of_subset fun ref href => mem_headRefsAll.2 ⟨t, ht, href⟩
  · rw [Subst.apply_inter (by simpa using hs)]
    exact covers_interOf_mem (List.mem_map_of_mem ht)

theorem covers_apply_inter {s : Subst} (h : ∀ t ∈ ts, Covers P u (s.apply t)) :
    Covers P u (s.apply (.inter ts)) := by
  by_cases hs : s.isEmpty = true
  · rw [Subst.apply_of_isEmpty hs]
    simp only [Subst.apply_of_isEmpty hs] at h
    exact covers_inter.2 h
  · rw [Subst.apply_inter (by simpa using hs)]
    exact of_interOf (fun _ => covers_inter) (List.forall_mem_map.2 h)

theorem headRefs_of_isConstructed (h : t.isConstructed = true) : t.headRefs = [] := by
  cases t <;> simp_all [isConstructed, headRefs]

theorem isConstructed_apply {s : Subst} (h : t.isConstructed = true) :
    (s.apply t).isConstructed = true := by
  cases t with
  | prim name => rw [Subst.apply_prim]; rfl
  | lit value => rw [Subst.apply_lit]; rfl
  | fn p r => rw [Subst.apply_fn]; rfl
  | tuple ts => rw [Subst.apply_tuple]; rfl
  | record fs row =>
      cases row with
      | none => rw [Subst.apply_closed]; rfl
      | some row => rw [Subst.apply_open]; rfl
  | _ => simp [isConstructed] at h

theorem StandsFor.isConstructed (h : StandsFor u t) (ht : t.isConstructed = true) :
    u.isConstructed = true := by
  rcases h with rfl | h
  · exact ht
  · cases u <;> cases t <;> simp_all [Ty.isConstructed, equiv, equivUnder]

theorem StandsFor.name_eq {name : String} {args : List Ty} (h : StandsFor u (.named name args)) :
    ∃ args', u = .named name args' := by
  rcases h with rfl | h
  · exact ⟨args, rfl⟩
  · exact exists_named_of_equiv_named h

/-- A union that is anchored has no reference at its head after any substitution. -/
theorem headRefs_apply_union {s : Subst} (h : anchored ts = true) :
    (s.apply (.union ts)).headRefs = [] := by
  by_cases hs : s.isEmpty = true
  · rw [Subst.apply_of_isEmpty hs]; rfl
  rw [Subst.apply_union (by simpa using hs), unionOf, unionOf?]
  split
  · rfl
  · next a ha =>
      -- The one type that is left stands for all the alternatives.
      have hstands : ∀ t ∈ ts, (s.apply t).alternatives = [s.apply t] → StandsFor a (s.apply t) := by
        intro t ht halt
        obtain ⟨b, hb, hbt⟩ := exists_mem_distinct (t := s.apply t) (mem_alternativesAll.2
          ⟨s.apply t, List.mem_map_of_mem ht, by rw [halt]; exact List.mem_singleton.2 rfl⟩)
        rw [ha, List.mem_singleton] at hb
        exact hb ▸ hbt
      rw [anchored, Bool.or_eq_true, List.any_eq_true, List.any_eq_true] at h
      rcases h with ⟨t, ht, hcons⟩ | ⟨t, ht, happ⟩
      · have hcons' := isConstructed_apply (s := s) hcons
        have halt : (s.apply t).alternatives = [s.apply t] := by
          generalize s.apply t = t' at hcons'
          cases t' <;> first | rfl | simp [isConstructed] at hcons'
        exact headRefs_of_isConstructed ((hstands t ht halt).isConstructed hcons')
      · obtain ⟨w, hw, happ⟩ := List.any_eq_true.1 happ
        cases t with
        | named m as =>
            cases w with
            | named n bs =>
                have hm := hstands _ ht (by rw [Subst.apply_named]; rfl)
                have hn := hstands _ hw (by rw [Subst.apply_named]; rfl)
                rw [Subst.apply_named] at hm hn
                obtain ⟨as', rfl⟩ := hm.name_eq
                obtain ⟨bs', heq⟩ := hn.name_eq
                injection heq with hmn
                simp [namedApart, hmn] at happ
            | _ => simp [namedApart] at happ
        | _ => simp [namedApart] at happ
  · rfl

mutual

/-- Of two instances of a steady type, one covers the other if its arguments cover the other's. -/
theorem covers_apply : ∀ {b : Ty} {s s' : Subst}, b.steady = true →
    (∀ v : TyVar, Covers P (s.apply (.var v)) (s'.apply (.var v))) →
    Covers P (s.apply b) (s'.apply b)
  | .var v, _, _, _, h => h v
  | .named name ts, s, s', hb, h => by
      rw [Subst.apply_named, Subst.apply_named]
      refine .inr ⟨_, List.mem_singleton.2 rfl, coversAll_iff.2 ?_⟩
      rw [List.forall₂_map_left_iff, List.forall₂_map_right_iff, List.forall₂_same]
      exact covers_applyAll hb h
  | .inter ts, s, s', hb, h => by
      refine covers_apply_inter fun t ht => ?_
      exact (covers_applyAll hb h t ht).trans (covers_apply_inter_mem s ht)
  | .mu v t, s, s', hb, h => by
      rw [Subst.apply_mu, Subst.apply_mu, Covers]
      refine (covers_apply (b := t) hb fun w => ?_).of_subset fun _ href => href
      rw [Subst.apply_var, Subst.apply_var, Subst.get?_erase, Subst.get?_erase]
      by_cases hw : w.id = v.id
      · rw [if_pos hw, if_pos hw]
        exact covers_of_headRefs_nil rfl
      · rw [if_neg hw, if_neg hw, ← Subst.apply_var, ← Subst.apply_var]
        exact h w
  | .union _, s, s', hb, _ => covers_of_headRefs_nil (headRefs_apply_union hb)
  | .prim _, _, _, _, _ | .lit _, _, _, _, _ | .fn _ _, _, _, _, _ | .record _ _, _, _, _, _
  | .tuple _, _, _, _, _ => covers_of_headRefs_nil
      (headRefs_of_isConstructed (isConstructed_apply rfl))

theorem covers_applyAll : ∀ {ts : List Ty} {s s' : Subst}, steadyAll ts = true →
    (∀ v : TyVar, Covers P (s.apply (.var v)) (s'.apply (.var v))) →
    ∀ t ∈ ts, Covers P (s.apply t) (s'.apply t)
  | [], _, _, _, _ => by simp
  | t :: ts, s, s', hts, h => by
      rw [steadyAll, Bool.and_eq_true] at hts
      exact List.forall_mem_cons.2 ⟨covers_apply hts.1 h, covers_applyAll hts.2 h⟩

end

end Covers

end Ty

namespace Subst

variable {P : Ty → Prop}

/-- Arguments that cover others do so wherever they are put in. -/
theorem covers_ofList {params : List TyVar} {as bs : List Ty}
    (h : List.Forall₂ (Ty.Covers P) as bs) (v : TyVar) :
    Ty.Covers P ((ofList (params.zip as)).apply (.var v))
      ((ofList (params.zip bs)).apply (.var v)) := by
  refine related_ofList (V := Eq) (C := fun s s' => ∀ v : TyVar,
    Ty.Covers P (s.apply (.var v)) (s'.apply (.var v))) (fun v => Ty.covers_refl _) ?_
    (List.forall₂_same.2 fun _ _ => rfl) h v
  rintro p _ a b s s' rfl hab hs v
  simp only [apply_var, get?_bind]
  by_cases hv : v.id = p.id
  · rw [if_pos hv, if_pos hv]
    -- Binding a parameter to itself leaves it unbound, and nothing stands at its head.
    cases hb : held p.id b with
    | none => exact Ty.covers_of_headRefs_nil rfl
    | some b' =>
        obtain ⟨rfl, -⟩ := held_eq_some hb
        refine Ty.Covers.of_subset hab fun ref href => ?_
        cases ha : held p.id a with
        | some a' => obtain ⟨rfl, -⟩ := held_eq_some ha; exact href
        | none =>
            unfold held at ha
            split at ha
            · cases href
            · cases ha
  · rw [if_neg hv, if_neg hv, ← apply_var, ← apply_var]
    exact hs v

/-- Parameters that stand for themselves bind nothing. -/
theorem ofList_self (params : List TyVar) : ofList (params.zip (params.map .var)) = empty := by
  unfold ofList
  induction params with
  | nil => rfl
  | cons p params ih =>
      have hbind : empty.bind p (.var p) = empty := by
        simp only [bind, if_pos]
        rfl
      rw [List.map_cons, List.zip_cons_cons, List.foldl_cons, hbind, ih]

end Subst

namespace Definition

variable {P : Ty → Prop} {d : Definition} {as bs : List Ty} {t : Ty}

/-- Instances of the definition follow its body: it has no parameters, or its unions are
anchored. -/
def Steady (d : Definition) : Prop := d.params = [] ∨ d.body.steady = true

theorem Steady.covers_expand? (hd : d.Steady) (h : List.Forall₂ (Ty.Covers P) as bs)
    (ht : d.expand? bs = some t) : ∃ u, d.expand? as = some u ∧ Ty.Covers P u t := by
  unfold expand? at ht ⊢
  split at ht
  · next hlen =>
      cases ht
      rw [if_pos (h.length_eq.trans hlen)]
      refine ⟨_, rfl, ?_⟩
      rcases hd with hnil | hsteady
      · rw [hnil]
        exact Ty.covers_refl _
      · exact Ty.covers_apply hsteady (Subst.covers_ofList h)
  · cases ht

/-- The body covers its instances at arguments that settle. -/
theorem Steady.covers_body (hd : d.Steady) (h : ∀ b ∈ bs, ∀ u, Ty.Covers P u b)
    (ht : d.expand? bs = some t) : Ty.Covers P d.body t := by
  have hlen : (d.params.map Ty.var).length = bs.length := by
    unfold expand? at ht
    split at ht
    · next hlen => rw [List.length_map, hlen]
    · cases ht
  have hcov : List.Forall₂ (Ty.Covers P) (d.params.map .var) bs := by
    rw [List.forall₂_iff_get]
    exact ⟨hlen, fun i _ hi => h _ (List.get_mem _ _) _⟩
  obtain ⟨u, hu, hut⟩ := hd.covers_expand? hcov ht
  rw [expand?, if_pos (List.length_map ..), Subst.ofList_self,
    Subst.apply_of_isEmpty rfl] at hu
  cases hu
  exact hut

end Definition

end RowTypes
