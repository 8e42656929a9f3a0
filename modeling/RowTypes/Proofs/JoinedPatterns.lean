import RowTypes.Proofs.Agreement
import RowTypes.Proofs.SolvedJoins

/-!
# What patterns are joined into

Joining two types always gives one.  What goes with the first of them goes with that one, too: it is
the first type with more alternatives at most, or `String` where the first type is a literal.  The
second type goes with it because it was unified with the first, or with one of its alternatives, or
is an alternative itself.

This is so for types that are no unions, and the elements of tuples are types on their own here,
since tuples are joined element by element.  A union goes with another one only if each alternative
of both finds a partner, and a join may add some without one.

As for unification, nothing is said where an unknown of the types comes to stand for a union: joined
with another type, it may end up as an alternative.
-/

namespace RowTypes

open Ty

variable {row : Int → Prop} {S s : Subst} {a b t x β : Ty} {ts us : List Ty} {value : String}

/-! ## What related types have in common -/

/-- Two types that are no unions are related by their constructors. -/
inductive Related.Layer : Ty → Ty → Prop where
  | same {a b : Ty} : a.equiv b = true ∨ b.equiv a = true → Layer a b
  | asString (value : String) : Layer (.lit value) .string
  | asLit (value : String) : Layer .string (.lit value)
  | fn (p r p' r' : Ty) : Layer (.fn p r) (.fn p' r')
  | tuple {ts us : List Ty} : List.Forall₂ Related ts us → Layer (.tuple ts) (.tuple us)
  | record (fs gs : List (String × Ty)) (rest rest' : Option TyVar) :
      Layer (.record fs rest) (.record gs rest')

namespace Related

theorem Layer.symm (h : Layer a b) : Layer b a := by
  cases h with
  | same h => exact .same h.symm
  | asString value => exact .asLit value
  | asLit value => exact .asString value
  | fn p r p' r' => exact .fn p' r' p r
  | tuple h => exact .tuple (h.flip.imp fun _ _ h => Related.symm h)
  | record fs gs rest rest' => exact .record gs fs rest' rest

/-- Types are related, and if none is a union, then by their constructors. -/
def Layered (a b : Ty) : Prop :=
  Related a b ∧ ((∀ ts, a ≠ .union ts) → (∀ us, b ≠ .union us) → Layer a b)

theorem widening_layered : Widening Layered where
  symm h := ⟨h.1.symm, fun ha hb => (h.2 hb ha).symm⟩
  equiv h := ⟨widening_related.equiv h, fun _ _ => .same (.inl h)⟩
  literal value := ⟨widening_related.literal value, fun _ _ => .asString value⟩
  fn hp hr := ⟨widening_related.fn hp.1 hr.1, fun _ _ => .fn ..⟩
  tuple h := by
    have hrelated := h.imp fun _ _ h => h.1
    exact ⟨widening_related.tuple hrelated, fun _ _ => .tuple hrelated⟩
  record h hid := ⟨widening_related.record (fun name => rel_imp (fun _ _ h => h.1) (h name)) hid,
    fun _ _ => .record ..⟩
  alternative hne hu h := ⟨widening_related.alternative hne hu h.1, fun _ h => absurd rfl (h _)⟩
  unions hts hus := ⟨widening_related.unions (fun t ht => (hts t ht).imp fun _ h => ⟨h.1, h.2.1⟩)
    (fun u hu => (hus u hu).imp fun _ h => ⟨h.1, h.2.1⟩), fun h => absurd rfl (h _)⟩

theorem layer (h : Related a b) (ha : ∀ ts, a ≠ .union ts) (hb : ∀ us, b ≠ .union us) :
    Layer a b := (h Layered widening_layered).2 ha hb

theorem equiv_of_either (ha : a.Structural row) (hb : b.Structural row)
    (h : a.equiv b = true ∨ b.equiv a = true) : b.equiv a = true :=
  h.elim (equiv_symm ha.tame hb.tame) id

/-- What goes with a tuple and is no union is a tuple, and its elements go with the others. -/
theorem exists_tuple (hx : x.Structural row) (hus : (Ty.tuple us).Structural row)
    (hunion : ∀ ts, x ≠ .union ts) (h : Related x (.tuple us)) :
    ∃ xs, x = .tuple xs ∧ List.Forall₂ Related xs us := by
  generalize ht : Ty.tuple us = t at h hus
  cases h.layer hunion (by rintro vs rfl; cases ht) with
  | same h =>
      subst ht
      obtain ⟨xs, rfl, helems⟩ := exists_tuple_of_equiv (equiv_of_either hx hus h)
      exact ⟨xs, rfl, List.Forall₂.flip (helems.imp fun _ _ h => (widening_related.equiv h).symm)⟩
  | tuple hall =>
      cases ht
      exact ⟨_, rfl, hall⟩
  | _ => cases ht

theorem lit_or_string (hx : x.Structural row) (hunion : ∀ ts, x ≠ .union ts)
    (h : Related x (.lit value)) : x = .lit value ∨ x = .string := by
  generalize ht : Ty.lit value = t at h
  cases h.layer hunion (by rintro vs rfl; cases ht) with
  | same h =>
      subst ht
      exact .inl (eq_lit_of_equiv (equiv_of_either hx (.lit value) h))
  | asLit value =>
      cases ht
      exact .inr rfl
  | _ => cases ht

/-- What goes with a literal goes with whatever that goes with. -/
theorem of_literal (hx : x.Structural row) (hb : b.Structural row) (hunion : ∀ ts, x ≠ .union ts)
    (h : Related x (.lit value)) (hb' : Related (.lit value) b) : Related x b := by
  obtain ⟨β, hβ, hrelated⟩ := (iff_alternatives (a := .lit value) (by simp) hb).1 hb'
  refine (iff_alternatives hunion hb).2 ⟨β, hβ, ?_⟩
  have hβb : β = .lit value ∨ β = .string :=
    lit_or_string (hb.alternatives β hβ) (fun us => ne_union_of_mem_alternatives us hβ)
      hrelated.symm
  rcases lit_or_string hx hunion h with rfl | rfl
  · exact hrelated
  · rcases hβb with rfl | rfl
    · exact h
    · exact widening_related.equiv (equiv_refl (.prim _))

/-- What goes with a type goes with every type that has an alternative of that form. -/
theorem of_option (ht : t.Structural row) (hβ : β.Structural row) (hx : x.Structural row)
    (hunion : ∀ ts, x ≠ .union ts) (h : Related x β) (hmem : β.form ∈ t.options) :
    Related x t := by
  obtain ⟨γ, hγ, hform⟩ := hmem
  exact (iff_alternatives hunion ht).2 ⟨γ, hγ, h.congr hx.tame hβ.tame hx.tame
    (ht.alternatives γ hγ).tame rfl hform.symm⟩

end Related

/-! ## Types that take others -/

/-- A type that is no union, and neither are the elements of a tuple, and so on. -/
inductive Ty.Single : Ty → Prop where
  | var (v : TyVar) : Single (.var v)
  | prim (name : String) : Single (.prim name)
  | lit (value : String) : Single (.lit value)
  | fn (p r : Ty) : Single (.fn p r)
  | record (fs : List (String × Ty)) (rest : Option TyVar) : Single (.record fs rest)
  | tuple {ts : List Ty} : (∀ t ∈ ts, Single t) → Single (.tuple ts)

theorem Ty.Single.ne_union (h : x.Single) : ∀ ts, x ≠ .union ts := by
  rintro ts rfl
  cases h

/-- What two types are joined into under a substitution: it goes with what goes with the first, and
with the second. -/
structure Takes (row : Int → Prop) (a b t : Ty) (S : Subst) : Prop where
  first : ∀ {x : Ty}, x.Structural row → x.Single → Related x (S.apply a) → Related x (S.apply t)
  second : ∀ {x : Ty}, x.Structural row → x.Single → x.form = (S.apply b).form →
    Related x (S.apply t)

namespace Takes

variable (hS : S.Structural row)

include hS

/-- What takes types that something was applied to takes the types. -/
theorem of_apply (hs : s.Structural row) (hext : S.Extends s) (ha : a.Structural row)
    (hb : b.Structural row) (h : Takes row (s.apply a) (s.apply b) t S) : Takes row a b t S where
  first hx hsingle hrelated := h.first hx hsingle (hrelated.congr hx.tame (ha.apply hS).tame hx.tame
    ((ha.apply hs).apply hS).tame rfl (hext.form_apply_apply hS hs ha).symm)
  second hx hsingle hform := h.second hx hsingle
    (hform.trans (hext.form_apply_apply hS hs hb).symm)

/-- Applying what is extended to the joined type makes no difference. -/
theorem under (hs : s.Structural row) (hext : S.Extends s) (ht : t.Structural row)
    (h : Takes row a b t S) : Takes row a b (s.apply t) S := by
  have hform := (hext.form_apply_apply hS hs ht).symm
  have htame := ((ht.apply hs).apply hS).tame
  exact ⟨fun hx hsingle hrelated => (h.first hx hsingle hrelated).congr hx.tame (ht.apply hS).tame
      hx.tame htame rfl hform,
    fun hx hsingle hxb => (h.second hx hsingle hxb).congr hx.tame (ht.apply hS).tame hx.tame htame
      rfl hform⟩

/-- Of types that are related, the wider one takes both. -/
theorem widest (ha : a.Structural row) (hb : b.Structural row)
    (h : Related (S.apply a) (S.apply b)) : Takes row a b (Relate.widest a b) S := by
  have hsecond : ∀ {x : Ty}, x.Structural row → x.form = (S.apply b).form →
      Related x (S.apply a) := fun hx hform =>
    h.symm.congr (hb.apply hS).tame (ha.apply hS).tame hx.tame (ha.apply hS).tame hform.symm rfl
  unfold Relate.widest
  split
  · next value =>
      rw [Subst.apply_lit] at h
      refine ⟨fun hx hsingle hrelated => ?_, fun hx _ hform =>
        .of_form hx.tame (hb.apply hS).tame hform⟩
      rw [Subst.apply_lit] at hrelated
      exact hrelated.of_literal hx (hb.apply hS) hsingle.ne_union h
  · exact ⟨fun _ _ hrelated => hrelated, fun hx _ hform => hsecond hx hform⟩

/-- A union takes two types if it has what there is to choose from both. -/
theorem unionOf (ha : a.Structural row) (hb : b.Structural row) (hne : ts ≠ [])
    (hts : ∀ t ∈ ts, t.Structural row)
    (hleft : ∀ f ∈ (S.apply a).options, ∃ t ∈ ts, f ∈ (S.apply t).options)
    (hright : ∀ f ∈ (S.apply b).options, ∃ t ∈ ts, f ∈ (S.apply t).options) :
    Takes row a b (Ty.unionOf ts) S := by
  have hunion := structural_unionOf hne hts
  have hmem : ∀ {f : Form}, (∃ t ∈ ts, f ∈ (S.apply t).options) →
      f ∈ (S.apply (Ty.unionOf ts)).options :=
    (mem_options_apply_of hS hunion hts fun _ => mem_options_unionOf hts).2
  refine ⟨fun hx hsingle hrelated => ?_, fun {x} hx hsingle hform => ?_⟩
  · obtain ⟨β, hβ, hrelated⟩ :=
      (Related.iff_alternatives hsingle.ne_union (ha.apply hS)).1 hrelated
    exact hrelated.of_option (hunion.apply hS) ((ha.apply hS).alternatives β hβ) hx hsingle.ne_union
      (hmem (hleft _ ⟨β, hβ, rfl⟩))
  · have hx' : x.form ∈ (S.apply b).options := by
      rw [← (form_eq_iff_options hx (hb.apply hS)).1 hform, options_of_ne_union hsingle.ne_union]
      rfl
    exact Related.of_option (hunion.apply hS) hx hx hsingle.ne_union (.of_form hx.tame hx.tame rfl)
      (hmem (hright _ hx'))

theorem pair (ha : a.Structural row) (hb : b.Structural row) :
    Takes row a b (Ty.unionOf [a, b]) S :=
  unionOf hS ha hb (by simp) (by simp [ha, hb]) (fun f hf => ⟨a, by simp, hf⟩)
    fun f hf => ⟨b, by simp, hf⟩

/-- A union takes one more alternative. -/
theorem append (hts : (Ty.union ts).Structural row) (hb : b.Structural row) :
    Takes row (.union ts) b (Ty.unionOf (ts ++ [b])) S := by
  refine unionOf hS hts hb (by simp) (fun t ht => ?_) (fun f hf => ?_) fun f hf => ⟨b, by simp, hf⟩
  · rcases List.mem_append.1 ht with ht | ht
    · exact hts.of_union t ht
    · exact List.mem_singleton.1 ht ▸ hb
  · rw [mem_options_apply hS hts, hts.alternatives_union] at hf
    obtain ⟨t, ht, hf⟩ := hf
    exact ⟨t, List.mem_append_left _ ht, hf⟩

/-- A union takes what is related to an alternative. -/
theorem alternative (hts : (Ty.union ts).Structural row) (hb : b.Structural row) (ht : t ∈ ts)
    (h : Related (S.apply t) (S.apply b)) : Takes row (.union ts) b (.union ts) S := by
  refine ⟨fun _ _ hrelated => hrelated, fun hx hsingle hform => ?_⟩
  have htS := ((hts.of_union t ht).apply hS).tame
  exact Related.apply_union hS hx hsingle.ne_union hts ht
    (h.symm.congr (hb.apply hS).tame htS hx.tame htS hform.symm rfl)

omit hS in
/-- Types that go with the elements of tuples go with the types that take these. -/
theorem forall₂_related {R : Ty → Ty × Ty → Prop} (hR : ∀ {x e t}, x.Structural row → x.Single →
    R x e → Takes row e.1 e.2 t S → Related x (S.apply t)) : ∀ {xs : List Ty}
    {pairs : List (Ty × Ty)} {ts : List Ty}, List.Forall₂ R xs pairs →
    List.Forall₂ (fun e t => Takes row e.1 e.2 t S) pairs ts →
    (∀ x ∈ xs, x.Structural row ∧ x.Single) → List.Forall₂ Related xs (ts.map S.apply)
  | [], [], [], .nil, .nil, _ => .nil
  | x :: xs, e :: pairs, t :: ts, .cons hx hxs, .cons ht hts, hall => by
      obtain ⟨⟨hstructural, hsingle⟩, hall⟩ := List.forall_mem_cons.1 hall
      exact .cons (hR hstructural hsingle hx ht) (forall₂_related hR hxs hts hall)

/-- The tuple of what takes the elements takes the tuples. -/
theorem tuple {as bs : List Ty} (hlen : as.length = bs.length)
    (has : (Ty.tuple as).Structural row) (hbs : (Ty.tuple bs).Structural row)
    (h : List.Forall₂ (fun e t => Takes row e.1 e.2 t S) (as.zip bs) ts) :
    Takes row (.tuple as) (.tuple bs) (.tuple ts) S := by
  have hfirst := congrArg (List.map S.apply) (List.map_fst_zip (Nat.le_of_eq hlen))
  have hsecond := congrArg (List.map S.apply) (List.map_snd_zip (Nat.le_of_eq hlen.symm))
  rw [List.map_map] at hfirst hsecond
  have hparts : ∀ {xs : List Ty}, (Ty.tuple xs).Structural row → (Ty.tuple xs).Single →
      ∀ x ∈ xs, x.Structural row ∧ x.Single := by
    intro xs hxs hsingle
    cases hxs with
    | tuple hxs =>
        cases hsingle with
        | tuple hsingles => exact fun x hx => ⟨hxs x hx, hsingles x hx⟩
  have hasS := has.apply hS
  have hbsS := hbs.apply hS
  rw [Subst.apply_tuple] at hasS hbsS
  constructor
  · intro x hx hsingle hrelated
    rw [Subst.apply_tuple] at hrelated ⊢
    obtain ⟨xs, rfl, hxs⟩ := hrelated.exists_tuple hx hasS hsingle.ne_union
    rw [← hfirst, List.forall₂_map_right_iff] at hxs
    exact widening_related.tuple (forall₂_related (fun hx hsingle hrelated htakes =>
      htakes.first hx hsingle hrelated) hxs h (hparts hx hsingle))
  · intro x hx hsingle hform
    rw [Subst.apply_tuple] at hform ⊢
    obtain ⟨xs, rfl, -, hforms⟩ := exists_tuple_of_form hbsS hx hform.symm
    rw [← hsecond, List.map_map, ← List.forall₂_eq_eq_eq, List.forall₂_map_left_iff,
      List.forall₂_map_right_iff] at hforms
    exact widening_related.tuple (forall₂_related (fun hx hsingle hform htakes =>
      htakes.second hx hsingle hform.symm) hforms.flip h (hparts hx hsingle))

end Takes

/-! ## Runs -/

/-- None of some unknowns is bound to a union. -/
def Subst.Whole (P : Int → Prop) (S : Subst) : Prop :=
  ∀ id, P id → ∀ us, S.get? id ≠ some (.union us)

/-- Where no unknown of a type is bound to a union, none of its alternatives is. -/
theorem Ty.Structural.firm (ht : t.Structural row) (h : S.Whole t.Mentions) : t.Firm S := by
  induction ht with
  | @var v _ => exact .var v
  | prim name => exact .prim name
  | lit value => exact .lit value
  | fn _ _ ihp ihr =>
      exact .fn (ihp fun id hid => h id (mentions_fn.2 (.inl hid)))
        (ihr fun id hid => h id (mentions_fn.2 (.inr hid)))
  | @record fs rest _ _ _ ih =>
      exact .record rest fun f hf => ih f hf fun id hid =>
        h id (mentions_record.2 (.inl ⟨f, hf, hid⟩))
  | tuple _ ih =>
      exact .tuple fun t ht => ih t ht fun id hid => h id (mentions_tuple.2 ⟨t, ht, hid⟩)
  | union _ _ _ _ ih =>
      refine .union (fun t ht => ih t ht fun id hid => h id (mentions_union.2 ⟨t, ht, hid⟩))
        fun v hv => h v.id (mentions_union.2 ⟨_, hv, mentions_var.2 rfl⟩)

namespace Relate

variable {P : Int → Prop} {n : Nat} {p q : Progress} {ctx : Context} {unify : Relation}
  {join : Ty → Ty → StateM Progress Joined}

/-- The unknowns that are made on the way are rows, and those are bound to records. -/
theorem whole_known (st : (structuralTypes row).Started P n) (hS : S.Structural row)
    (h : S.Whole P) (m : Nat) : S.Whole (Known P n m) := by
  rintro id (hid | ⟨hid, -⟩) us hus
  · exact h id hid us hus
  · obtain ⟨fs, rest, heq⟩ := hS.rows id _ (st.rows id hid) hus
    cases heq

/-- What joining two types finds: a solved form, and a type that takes both in the end. -/
structure FindsJoin (row P : Int → Prop) (a b : Ty) (Q : Int → Prop) (j : Joined) : Prop where
  within : (structuralTypes row).Within Q j.1
  finds : Finds row .empty (Subst.Whole P) (Takes row a b j.1) Q j.2

def SoundJoin (row : Int → Prop) (join : Ty → Ty → StateM Progress Joined) : Prop :=
  ∀ {P : Int → Prop} {n : Nat} {p : Progress} {a b : Ty}, (structuralTypes row).Started P n →
    n ≤ p.supply.count → (structuralTypes row).Sees P n p a → (structuralTypes row).Sees P n p b →
    Traced P n (FindsJoin row P a b) (join a b) p

variable (st : (structuralTypes row).Started P n)

include st

theorem firm_of_sees (hS : S.Structural row) (h : S.Whole P)
    (ht : (structuralTypes row).Sees P n p t) : t.Firm S :=
  ht.ok.firm fun id hid => whole_known st hS h _ id (ht.free id hid)

/-- Joining two types under a substitution, and composing what is found with it. -/
theorem SoundJoin.next (hjoin : SoundJoin row join) (hn : n ≤ p.supply.count)
    (hs : (structuralTypes row).Has P n p s) (ha : (structuralTypes row).Sees P n p a)
    (hb : (structuralTypes row).Sees P n p b) :
    Traced P n (fun Q j => (structuralTypes row).Within Q j.1 ∧
      Finds row s (Subst.Whole P) (Takes row a b j.1) Q (j.2.after s))
      (join (s.apply a) (s.apply b)) p := by
  refine Grammar.traced_resume (hjoin (st.resume hn) (Nat.le_refl _) (ha.resume hs)
    (hb.resume hs)) fun q j hq hj => ⟨hj.within.mono (Grammar.known_of_remaining hn hq),
      hs.resume st hn hq hj.finds.solved, ?_⟩
  have hleads : Leads row s (j.2.after s) (Subst.Whole P) (Takes row (s.apply a) (s.apply b) j.1) :=
    .after (hs.later hq) hj.finds.solved (hs.apart st.older hn hj.finds.solved) hj.finds.leads
      fun hS _ _ hwhole id hid => whole_known st hS hwhole _ id hid.1
  exact hleads.mono id fun hS hext _ htakes =>
    htakes.of_apply hS hs.structural (hleads.before hS hext) ha.ok hb.ok

omit st in
/-- What was found is applied to the type that takes both. -/
theorem findsJoin_under {Q : Int → Prop} (hs : (structuralTypes row).Solved Q s)
    (ht : (structuralTypes row).Within Q t)
    (h : Leads row .empty s (Subst.Whole P) (Takes row a b t)) :
    FindsJoin row P a b Q (s.apply t, s) :=
  ⟨ht.apply' hs, hs, h.mono id fun hS hext _ htakes => htakes.under hS hs.structural hext ht.ok⟩

omit st in
/-- Types are put side by side without finding anything. -/
theorem findsJoin_empty {Q : Int → Prop} (ht : (structuralTypes row).Within Q t)
    (h : ∀ {S : Subst}, S.Structural row → Takes row a b t S) :
    FindsJoin row P a b Q (t, .empty) :=
  ⟨ht, Grammar.solved_empty, .refl fun hS _ _ => h hS⟩

theorem sound_joinOrUnion (hunify : Sound row unify) (hn : n ≤ p.supply.count)
    (ha : (structuralTypes row).Sees P n p a) (hb : (structuralTypes row).Sees P n p b) :
    Traced P n (FindsJoin row P a b) (joinOrUnion unify a b) p := by
  unfold joinOrUnion
  refine (traced_attempt (hunify st hn ha hb)).bind fun o q hq ho => ?_
  replace ha := ha.later hq
  replace hb := hb.later hq
  cases o with
  | some s =>
      obtain ⟨hs, hleads⟩ := ho s rfl
      refine traced_pure (findsJoin_under hs (Grammar.within_widest ha hb) ?_)
      refine ⟨hleads.before, fun hS hext hfirm hwhole => ?_⟩
      exact (hleads.holds hS hext hfirm ⟨firm_of_sees st hS hwhole ha,
        firm_of_sees st hS hwhole hb⟩).imp_right (Takes.widest hS ha.ok hb.ok)
  | none =>
      exact traced_pure (findsJoin_empty (Grammar.within_unionOf_pair ha hb) fun hS =>
        .pair hS ha.ok hb.ok)

/-- Joining an alternative to a union. -/
theorem sound_joinUnion (hunify : Sound row unify) (hn : n ≤ p.supply.count)
    (hts : (structuralTypes row).Sees P n p (.union ts)) (hb : (structuralTypes row).Sees P n p b) :
    Traced P n (FindsJoin row P (.union ts) b) (do
      match ← firstOf (fun t => unify t b) ts with
      | some s => pure (s.apply (.union ts), s)
      | none => pure (Ty.unionOf (ts ++ [b]), .empty)) p := by
  have hfirst : Traced P n (fun Q o => ∀ s, o = some s → ∃ t ∈ ts,
      Finds row .empty (fun S => t.Firm S ∧ b.Firm S) (RelatedUnder t b) Q s)
      (firstOf (fun t => unify t b) ts) p := traced_firstOf fun t ht q hq =>
    (hunify st (Nat.le_trans hn hq) ((hts.union t ht).later hq) (hb.later hq)).weaken
      fun _ _ h => ⟨t, ht, h⟩
  refine hfirst.bind fun o q hq ho => ?_
  replace hts := hts.later hq
  replace hb := hb.later hq
  cases o with
  | some s =>
      obtain ⟨t, ht, hs, hleads⟩ := ho s rfl
      refine traced_pure (findsJoin_under hs hts ⟨hleads.before, fun hS hext hfirm hwhole => ?_⟩)
      exact (hleads.holds hS hext hfirm ⟨firm_of_sees st hS hwhole (hts.union t ht),
        firm_of_sees st hS hwhole hb⟩).imp_right (Takes.alternative hS hts.ok hb.ok ht)
  | none =>
      exact traced_pure (findsJoin_empty (Grammar.within_unionOf_append hts hb) fun hS =>
        .append hS hts.ok hb.ok)

/-- Pairs are joined one after the other, and what each is joined into still takes it in the end. -/
theorem finds_joinAll (hjoin : SoundJoin row join) : ∀ {pairs : List (Ty × Ty)} {done : List Ty}
    {s : Subst} {p : Progress}, n ≤ p.supply.count → (∀ pair ∈ pairs,
      (structuralTypes row).Sees P n p pair.1 ∧ (structuralTypes row).Sees P n p pair.2) →
    (∀ t ∈ done, (structuralTypes row).Sees P n p t) → (structuralTypes row).Has P n p s →
    Traced P n (fun Q j => ∃ ts, j.1 = j.2.apply (.tuple (done ++ ts)) ∧
      (∀ t ∈ done ++ ts, (structuralTypes row).Within Q t) ∧
      Finds row s (Subst.Whole P)
        (fun S => List.Forall₂ (fun e t => Takes row e.1 e.2 t S) pairs ts) Q j.2)
      (joinAll join pairs done s) p
  | [], done, s, p, _, _, hdone, hs => by
      refine traced_pure ⟨[], ?_, by rwa [List.append_nil], hs, .refl fun _ _ _ => .nil⟩
      rw [List.append_nil, Subst.apply_tuple, Subst.applyAll_eq_map]
  | (a, b) :: pairs, done, s, p, hn, h, hdone, hs => by
      obtain ⟨⟨ha, hb⟩, h⟩ := List.forall_mem_cons.1 h
      rw [joinAll]
      refine (hjoin.next st hn hs ha hb).bind ?_
      rintro ⟨t, next⟩ q hq ⟨ht, hnext⟩
      have hdone' : ∀ u ∈ done ++ [t], (structuralTypes row).Sees P n q u :=
        List.forall_mem_append.2 ⟨fun u hu => (hdone u hu).later hq,
          List.forall_mem_singleton.2 ht⟩
      refine (finds_joinAll hjoin (Nat.le_trans hn hq) (fun pair hpair =>
        ⟨(h pair hpair).1.later hq, (h pair hpair).2.later hq⟩) hdone' hnext.solved).weaken ?_
      rintro Q j ⟨ts, hj, hts, hfinds⟩
      rw [List.append_assoc, List.singleton_append] at hj hts
      exact ⟨t :: ts, hj, hts, hfinds.solved, (hnext.leads.trans hfinds.leads).mono id
        fun _ _ _ hboth => .cons hboth.1 hboth.2⟩

theorem sound_joinTuples (hjoin : SoundJoin row join) (hn : n ≤ p.supply.count) {as bs : List Ty}
    (has : (structuralTypes row).Sees P n p (.tuple as))
    (hbs : (structuralTypes row).Sees P n p (.tuple bs)) (hlen : as.length = bs.length) :
    Traced P n (FindsJoin row P (.tuple as) (.tuple bs))
      (joinAll join (as.zip bs) [] .empty) p := by
  have hpairs : ∀ pair ∈ as.zip bs, (structuralTypes row).Sees P n p pair.1 ∧
      (structuralTypes row).Sees P n p pair.2 := fun pair hpair =>
    ⟨Grammar.within_tuple.1 has _ (List.of_mem_zip hpair).1,
      Grammar.within_tuple.1 hbs _ (List.of_mem_zip hpair).2⟩
  refine (finds_joinAll st hjoin hn hpairs (List.forall_mem_nil _) Grammar.solved_empty).weaken ?_
  rintro Q ⟨t, s⟩ ⟨ts, ht, hts, hs, hleads⟩
  obtain rfl : t = s.apply (.tuple ts) := ht
  rw [List.nil_append] at hts
  exact findsJoin_under hs (Grammar.within_tuple.2 hts) (hleads.mono id fun hS _ _ htakes =>
    .tuple hS hlen has.ok hbs.ok htakes)

omit st

theorem sound_joinPatternsStep (hunify : Sound row unify) (hjoin : SoundJoin row join) :
    SoundJoin row (joinPatternsStep unify join) := by
  intro P n p a b st hn ha hb
  have hunified := sound_joinOrUnion st hunify hn ha hb
  have hpair : FindsJoin row P a b (Known P n p.supply.count) (Ty.unionOf [a, b], .empty) :=
    findsJoin_empty (Grammar.within_unionOf_pair ha hb) fun hS => .pair hS ha.ok hb.ok
  unfold joinPatternsStep
  split
  · split
    · exact traced_pure hpair
    · exact hunified
  · split
    · next hlen => exact sound_joinTuples st hjoin hn ha hb hlen
    · exact hunified
  · split
    · exact hunified
    · exact traced_pure hpair
  · exact sound_joinUnion st hunify hn ha hb
  · exact hunified

theorem sound_joinPatterns (hunify : Sound row unify) :
    ∀ depth : Nat, SoundJoin row (joinPatterns unify depth)
  | 0 => fun st hn ha hb => sound_joinOrUnion st hunify hn ha hb
  | depth + 1 => sound_joinPatternsStep hunify (sound_joinPatterns hunify depth)

/-- What goes with the type that patterns were joined into so far goes with the one in the end, and
so do the patterns that are joined to it. -/
structure TakesAll (row : Int → Prop) (a : Ty) (bs : List Ty) (t : Ty) (S : Subst) : Prop where
  first : ∀ {x : Ty}, x.Structural row → x.Single → Related x (S.apply a) → Related x (S.apply t)
  rest : ∀ b ∈ bs, ∀ {x : Ty}, x.Structural row → x.Single → x.form = (S.apply b).form →
    Related x (S.apply t)

theorem finds_joinList (hjoin : SoundJoin row join) (st : (structuralTypes row).Started P n) :
    ∀ {bs : List Ty} {t : Ty} {s : Subst} {p : Progress}, n ≤ p.supply.count →
    (∀ b ∈ bs, (structuralTypes row).Sees P n p b) → (structuralTypes row).Sees P n p t →
    (structuralTypes row).Has P n p s →
    Traced P n (fun Q j => (structuralTypes row).Within (Grammar.Left Q j.2) j.1 ∧
      Finds row s (Subst.Whole P) (TakesAll row t bs j.1) Q j.2) (joinList join bs (t, s)) p
  | [], t, s, p, _, _, ht, hs => by
      refine traced_pure ⟨ht.apply hs, hs, .refl fun hS hext _ =>
        ⟨fun hx _ hrelated => ?_, by simp⟩⟩
      exact hrelated.congr hx.tame (ht.ok.apply hS).tame hx.tame
        ((ht.ok.apply hs.structural).apply hS).tame rfl
        (hext.form_apply_apply hS hs.structural ht.ok).symm
  | b :: bs, t, s, p, hn, hbs, ht, hs => by
      obtain ⟨hb, hbs⟩ := List.forall_mem_cons.1 hbs
      rw [joinList]
      refine (hjoin.next st hn hs ht hb).bind ?_
      rintro ⟨u, next⟩ q hq ⟨hu, hnext⟩
      have hrest := finds_joinList hjoin st (Nat.le_trans hn hq) (fun b hb => (hbs b hb).later hq)
        hu hnext.solved
      refine hrest.weaken fun Q j h => ⟨h.1, h.2.solved, ?_⟩
      refine (hnext.leads.trans h.2.leads).mono id fun _ _ _ hboth => ?_
      exact ⟨fun hx hsingle hrelated =>
          hboth.2.first hx hsingle (hboth.1.first hx hsingle hrelated),
        List.forall_mem_cons.2 ⟨fun hx hsingle hform =>
          hboth.2.first hx hsingle (hboth.1.second hx hsingle hform), hboth.2.rest⟩⟩

end Relate

end RowTypes
