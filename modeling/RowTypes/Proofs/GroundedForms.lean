import RowTypes.Proofs.FaithfulForms
import RowTypes.Proofs.GroundedTypes

/-!
# Normal forms are grounded

The recursive types that normalising makes have no binder at the head of their bodies, if no
reference comes back to itself at the head.  A binder at the head of a normal form comes from a
reference that was met again while it was being expanded, and it was met at the head: expanding the
reference comes back to it before any constructor.

A type that is normalised may have recursive types of its own.  These have to be guarded themselves,
in a stronger sense: a reference may bring a binder to the head, as `F[t]` does in `μt.F[t]` if `F`
stands for its argument.  So `Faces` looks through recursive types as well as through references,
and what comes to a head by it is said to surface.  Where looking for a head by expanding references
ends, no type surfaces at itself: each recursive type that is looked through has fewer binders in
its body, and expanding references makes none.

What holds of a normal form is said under the expansions that are going on: what stands at its head
surfaces in the type that it was made of.  Of the forms that are remembered this is an invariant.
Only references that do not come back to themselves are spoken of, so that it does not matter what
else was normalised before.
-/

namespace RowTypes

open Ty

/-! ## Definitions without recursive types -/

/-- The body of a definition has no recursive types in it, and no free unknowns, rows apart, other
than the parameters. -/
def Definition.Parametric (d : Definition) : Prop :=
  d.body.Formed (fun _ _ => False) fun id => ∃ v ∈ d.params, v.id = id

namespace Registry

/-- All definitions are parametric. -/
def Parametric (r : Registry) : Prop := ∀ name d, r.lookup? name = some d → d.Parametric

variable {r : Registry} {P : Int → Prop} {M : TyVar → Ty → Prop} {V : Int → Prop} {t u x : Ty}
  {ts xs : List Ty} {k : Compound} {v : TyVar} {name : String} {args : List Ty} {id : Int}

/-- What a reference expands to is formed as its arguments are. -/
theorem Parametric.formed_expand? (hr : r.Parametric) (hargs : ∀ a ∈ args, a.Formed M V)
    (hu : r.expand? name args = some u) : u.Formed M V := by
  obtain ⟨d, hd, hu⟩ := Option.bind_eq_some_iff.1 hu
  unfold Definition.expand? at hu
  split at hu
  · next hlen =>
      cases hu
      refine (hr name d hd).apply (S := fun _ => True) (fun _ _ => id) (fun _ _ _ _ h => h.elim)
        trivial (fun id hid hnone => ?_) fun id u hu => ?_
      · -- A parameter that is not replaced is among the arguments itself.
        obtain ⟨_, hu, v, rfl, rfl⟩ := Definition.exists_arg_of_get? hlen hid hnone
        exact formed_var.1 (hargs _ hu)
      · obtain ⟨b, hb, -, rfl⟩ := Subst.mem_of_get?_ofList hu
        exact hargs _ (List.of_mem_zip hb).2
  · cases hu

/-! ## What comes to the head of a type -/

/-- The first type is come to in one step on the way to a head of the second one. -/
inductive Faces (r : Registry) : Ty → Ty → Prop where
  | opens {t u : Ty} : r.Opens u t → Faces r u t
  | mu (v : TyVar) (t : Ty) : Faces r t (.mu v t)

/-- The first type is come to on the way to a head of the second one. -/
def Surfaces (r : Registry) (u t : Ty) : Prop := Relation.ReflTransGen r.Faces u t

theorem Faces.formed (hr : r.Parametric) (hM : ∀ v b, M v b → V v.id) (hu : r.Faces u t)
    (h : t.Formed M V) : u.Formed M V := by
  cases hu with
  | opens hu =>
      cases hu with
      | union hu => exact formed_of (k := .union).1 h u hu
      | inter hu => exact formed_of (k := .inter).1 h u hu
      | expand hu => exact hr.formed_expand? (formed_named.1 h) hu
  | mu v _ =>
      obtain ⟨hv, ht⟩ := formed_mu.1 h
      refine ht.mono (fun _ _ h => h) fun id hid => hid.elim ?_ fun h => h
      rintro rfl
      exact hM v u hv

theorem Surfaces.formed (hr : r.Parametric) (hM : ∀ v b, M v b → V v.id) (hu : r.Surfaces u t)
    (h : t.Formed M V) : u.Formed M V := by
  induction hu with
  | refl => exact h
  | tail _ hstep ih => exact ih (hstep.formed hr hM h)

theorem surfaces_of_bare (h : t.Bare id) : ∃ v : TyVar, v.id = id ∧ r.Surfaces (.var v) t := by
  induction h with
  | @var v hv => exact ⟨v, hv, .refl⟩
  | union ht _ ih => exact ih.imp fun v h => ⟨h.1, h.2.tail (.opens (.union ht))⟩
  | inter ht _ ih => exact ih.imp fun v h => ⟨h.1, h.2.tail (.opens (.inter ht))⟩
  | mu w _ ih => exact ih.imp fun v h => ⟨h.1, h.2.tail (.mu w _)⟩

/-- No type surfaces at itself if looking for a head by expanding references ends. -/
theorem wellFounded_faces (hr : r.Parametric) (hg : r.Guarded) : WellFounded r.Faces := by
  -- A recursive type that is looked through has a body with fewer binders.
  have hacc : ∀ n t, t.Formed (fun _ b => b.binders.length < n) (fun _ => True) →
      Acc r.Faces t := by
    intro n
    induction n using Nat.strong_induction_on with
    | _ n ih =>
      intro t ht
      induction hg.apply t with
      | intro t _ ihopens =>
          refine Acc.intro t fun u hu => ?_
          have hformed := hu.formed hr (fun _ _ _ => trivial) ht
          cases hu with
          | opens hu => exact ihopens u hu hformed
          | mu v _ =>
              exact ih _ (formed_mu.1 ht).1 u
                ((formed_binders u).mono (fun _ _ h => h.length_le) fun _ h => h)
  exact ⟨fun t => hacc _ t ((formed_binders t).mono (fun _ _ h => h.length_le) fun _ h => h)⟩

/-! ## Forms of a type -/

/-- A binder does not have the number of a free unknown, and does not surface in its body. -/
def Guards (r : Registry) (P : Int → Prop) (v : TyVar) (t : Ty) : Prop :=
  ¬ P v.id ∧ ∀ w : TyVar, w.id = v.id → ¬ r.Surfaces (.var w) t

theorem Guards.grounds (h : r.Guards P v t) : Grounds P v t :=
  ⟨h.1, fun hid => let ⟨w, hw, hsurfaces⟩ := surfaces_of_bare hid; h.2 w hw hsurfaces⟩

/-- In a type an unknown of a number surfaces, or a reference that is being expanded with a binder
of that number. -/
def Exposes (r : Registry) (stack : Stack) (t : Ty) (id : Int) : Prop :=
  (∃ v : TyVar, v.id = id ∧ r.Surfaces (.var v) t) ∨
    ∃ e ∈ stack, e.2.id = id ∧ r.Surfaces e.1.ty t

/-- No reference of a kind surfaces in its own expansion, and such references show no others. -/
structure Unknotted (r : Registry) (L : Reference → Prop) : Prop where
  shows : ∀ {R S}, L R → r.Shows R S → L S
  not_surfaces : ∀ {R e}, L R → r.expand? R.1 R.2 = some e → ¬ r.Surfaces R.ty e

/-- A sufficient condition: looking for a head by expanding references ends. -/
theorem unknotted_of_guarded {L : Reference → Prop} (hr : r.Parametric) (hg : r.Guarded)
    (hL : ∀ {R S}, L R → r.Shows R S → L S) : r.Unknotted L :=
  ⟨hL, fun _ he h =>
    (wellFounded_faces hr hg).transGen.irrefl.irrefl _ (.tail' h (.opens (.expand he)))⟩

/-- What a type becomes while some references are being expanded.  If the recursive types inside the
type are guarded and its references of a kind, then the recursive types inside the form are
grounded, its free unknowns are those of the type and binders of expansions, and what stands at its
head surfaces in the type. -/
def GroundedForm (r : Registry) (L : Reference → Prop) (P : Int → Prop) (stack : Stack)
    (t x : Ty) : Prop :=
  ∀ V, t.Formed (r.Guards P) V → (∀ R ∈ r.visible t, L R) →
    x.Formed (Grounds P) (fun id => V id ∨ stack.Pending id) ∧
      ∀ id, x.Bare id → r.Exposes stack t id

variable {L : Reference → Prop} {stack : Stack} {R : Reference} {b : TyVar} {e p q p' q' : Ty}
  {row : Option TyVar} {fs gs : List (String × Ty)} {c : Nat}

theorem Exposes.step (h : r.Exposes stack u id) (hstep : r.Faces u t) : r.Exposes stack t id :=
  h.imp (fun ⟨v, hv, h⟩ => ⟨v, hv, h.tail hstep⟩) fun ⟨e, he, hid, h⟩ => ⟨e, he, hid, h.tail hstep⟩

theorem visible_subset_visibleAll (h : t ∈ ts) : r.visible t ⊆ r.visibleAll ts := by
  induction ts with
  | nil => cases h
  | cons u ts ih =>
      rw [visibleAll]
      rcases List.mem_cons.1 h with rfl | h
      · exact List.subset_append_left _ _
      · exact List.Subset.trans (ih h) (List.subset_append_right _ _)

theorem visible_subset_visibleFields {f : String × Ty} (h : f ∈ fs) :
    r.visible f.2 ⊆ r.visibleFields fs := by
  induction fs with
  | nil => cases h
  | cons g fs ih =>
      rw [visibleFields]
      rcases List.mem_cons.1 h with rfl | h
      · exact List.subset_append_left _ _
      · exact List.Subset.trans (ih h) (List.subset_append_right _ _)

theorem groundedForm_var (v : TyVar) : r.GroundedForm L P stack (.var v) (.var v) := fun _ h _ =>
  ⟨.var (.inl (formed_var.1 h)), fun _ hid => by
    cases hid with | var hv => exact .inl ⟨v, hv, .refl⟩⟩

theorem groundedForm_prim (name : String) : r.GroundedForm L P stack (.prim name) (.prim name) :=
  fun _ _ _ => ⟨.prim name, by rintro _ ⟨⟩⟩

theorem groundedForm_lit (value : String) : r.GroundedForm L P stack (.lit value) (.lit value) :=
  fun _ _ _ => ⟨.lit value, by rintro _ ⟨⟩⟩

theorem groundedForm_fn (hp : r.GroundedForm L P stack p p')
    (hq : r.GroundedForm L P stack q q') : r.GroundedForm L P stack (.fn p q) (.fn p' q') := by
  intro V h hL
  obtain ⟨hp₁, hq₁⟩ := formed_fn.1 h
  obtain ⟨hp₂, hq₂⟩ := List.forall_mem_append.1 hL
  exact ⟨.fn (hp V hp₁ hp₂).1 (hq V hq₁ hq₂).1, by rintro _ ⟨⟩⟩

theorem groundedForm_record (h : ∀ g ∈ gs, ∃ f ∈ fs, r.GroundedForm L P stack f.2 g.2) :
    r.GroundedForm L P stack (.record fs row) (.record gs row) := by
  refine fun V hfs hL => ⟨.record row fun g hg => ?_, by rintro _ ⟨⟩⟩
  obtain ⟨f, hf, hform⟩ := h g hg
  exact (hform V (formed_record.1 hfs f hf) fun R hR => hL R (visible_subset_visibleFields hf hR)).1

/-- Parts become grounded. -/
theorem formed_of_parts (h : ∀ x ∈ xs, ∃ t ∈ ts, r.GroundedForm L P stack t x)
    (hts : ∀ t ∈ ts, t.Formed (r.Guards P) V) (hL : ∀ R ∈ r.visibleAll ts, L R) :
    ∀ x ∈ xs, x.Formed (Grounds P) fun id => V id ∨ stack.Pending id := by
  intro x hx
  obtain ⟨t, ht, hform⟩ := h x hx
  exact (hform V (hts t ht) fun R hR => hL R (visible_subset_visibleAll ht hR)).1

theorem groundedForm_tuple (h : ∀ x ∈ xs, ∃ t ∈ ts, r.GroundedForm L P stack t x) :
    r.GroundedForm L P stack (.tuple ts) (.tuple xs) := fun _ hts hL =>
  ⟨.tuple (formed_of_parts h (formed_tuple.1 hts) hL), by rintro _ ⟨⟩⟩

/-- A reference to a name that is not defined. -/
theorem groundedForm_named (hname : r.lookup? name = none)
    (h : ∀ x ∈ xs, ∃ t ∈ ts, r.GroundedForm L P stack t x) :
    r.GroundedForm L P stack (.named name ts) (.named name xs) := by
  intro V hts hL
  rw [visible, hname] at hL
  exact ⟨.named name (formed_of_parts h (formed_named.1 hts) (List.forall_mem_cons.1 hL).2),
    by rintro _ ⟨⟩⟩

theorem groundedForm_build (h : ∀ x ∈ xs, ∃ t ∈ ts, r.GroundedForm L P stack t x) :
    r.GroundedForm L P stack (k.of ts) (k.build xs) := by
  intro V hts hL
  have hts := formed_of.1 hts
  have hL : ∀ R ∈ r.visibleAll ts, L R := by cases k <;> exact hL
  refine ⟨formed_build (formed_of_parts h hts hL), fun id hid => ?_⟩
  obtain ⟨x, hx, hid⟩ := Compound.bare_build hid
  obtain ⟨t, ht, hform⟩ := h x hx
  exact ((hform V (hts t ht) fun R hR => hL R (visible_subset_visibleAll ht hR)).2 id hid).step
    (.opens (opens_of ht))

/-- A reference that is left as it is. -/
theorem groundedForm_left (R : Reference) : r.GroundedForm L P stack R.ty R.ty := fun _ h _ =>
  ⟨h.mono (fun _ _ h => h.grounds) fun _ => .inl, by rintro _ ⟨⟩⟩

/-- The binder of a reference that is being expanded. -/
theorem groundedForm_again (h : L R → (R, b) ∈ stack) :
    r.GroundedForm L P stack R.ty (.var b) := by
  intro V _ hL
  have hmem := h (hL R List.mem_cons_self)
  exact ⟨.var (.inr ⟨_, hmem, rfl⟩), fun _ hid => by
    cases hid with | var hb => exact .inr ⟨_, hmem, hb, .refl⟩⟩

/-- A recursive type whose binder has none of the numbers of the binders of expansions. -/
theorem groundedForm_mu (hv : ¬ stack.Pending v.id) (h : r.GroundedForm L P stack t x) :
    r.GroundedForm L P stack (.mu v t) (.mu v x) := by
  intro V ht hL
  obtain ⟨hguards, ht⟩ := formed_mu.1 ht
  obtain ⟨hx, hbare⟩ := h _ ht hL
  refine ⟨.mu ⟨hguards.1, fun hid => ?_⟩ (hx.mono (fun _ _ h => h) fun id => ?_), fun id hid => ?_⟩
  · rcases hbare _ hid with ⟨w, hw, hsurfaces⟩ | ⟨e, he, hid, -⟩
    · exact hguards.2 w hw hsurfaces
    · exact hv ⟨e, he, hid⟩
  · exact or_assoc.1
  · cases hid with
    | mu _ hid => exact (hbare id hid).step (.mu v t)

/-- An expansion that ends.  Its binder does not stand at the head of what the reference became: it
is new, so nothing but the reference itself could have brought it there. -/
theorem groundedForm_tied (hr : r.Parametric) (hknots : r.Unknotted L)
    (he : r.expand? R.1 R.2 = some e) (hgiven : e.Given c) (hc : (c : Int) < b.id)
    (hP : ¬ P b.id) (hb : ¬ stack.Pending b.id)
    (h : r.GroundedForm L P ((R, b) :: stack) e x) :
    r.GroundedForm L P stack R.ty (x.tied b) := by
  intro V hV hL
  have hR : L R := hL R List.mem_cons_self
  have hface : r.Faces e R.ty := .opens (.expand he)
  obtain ⟨hx, hbare⟩ := h V (hr.formed_expand? (formed_named.1 hV) he)
    fun S hS => hknots.shows hR ⟨e, he, hS⟩
  have hnot : ¬ x.Bare b.id := by
    intro hid
    rcases hbare _ hid with ⟨w, hw, hsurfaces⟩ | ⟨e', he', hid, hsurfaces⟩
    · have := formed_var.1 (hsurfaces.formed (V := (· ≤ (c : Int))) hr (fun _ _ h => h) hgiven)
      omega
    · rcases List.mem_cons.1 he' with rfl | he'
      · exact hknots.not_surfaces hR he hsurfaces
      · exact hb ⟨e', he', hid⟩
  have hexposes : ∀ id, x.Bare id → r.Exposes stack R.ty id := by
    intro id hid
    rcases hbare id hid with h | ⟨e', he', rfl, hsurfaces⟩
    · exact Exposes.step (.inl h) hface
    · rcases List.mem_cons.1 he' with rfl | he'
      · exact absurd hid hnot
      · exact Exposes.step (.inr ⟨e', he', rfl, hsurfaces⟩) hface
  have hpending : ∀ id, V id ∨ Stack.Pending ((R, b) :: stack) id →
      id = b.id ∨ V id ∨ stack.Pending id := by
    rintro id (hid | ⟨e', he', rfl⟩)
    · exact .inr (.inl hid)
    · rcases List.mem_cons.1 he' with rfl | he'
      · exact .inl rfl
      · exact .inr (.inr ⟨e', he', rfl⟩)
  unfold Ty.tied
  split
  · refine ⟨.mu ⟨hP, hnot⟩ (hx.mono (fun _ _ h => h) hpending), fun id hid => ?_⟩
    cases hid with
    | mu _ hid => exact hexposes id hid
  · next hoccurs =>
      refine ⟨hx.restrict fun id hid hV => (hpending id hV).resolve_left ?_, hexposes⟩
      rintro rfl
      exact hoccurs (occurs_iff_mentions.2 hid)

theorem not_pending_nil : ¬ Stack.Pending [] id := fun ⟨_, he, _⟩ => nomatch he

theorem GroundedForm.anywhere (h : r.GroundedForm L P [] t x) (stack : Stack) :
    r.GroundedForm L P stack t x := by
  intro V ht hL
  obtain ⟨hx, hbare⟩ := h V ht hL
  refine ⟨hx.mono (fun _ _ h => h) fun id hid => .inl (hid.resolve_right not_pending_nil),
    fun id hid => .inl ((hbare id hid).resolve_right ?_)⟩
  rintro ⟨e, he, -⟩
  cases he

/-- A form that mentions no binder of an expansion is one for good. -/
theorem GroundedForm.of_not_mentions (h : r.GroundedForm L P stack t x)
    (hnone : ∀ id, stack.Pending id → ¬ x.Mentions id) : r.GroundedForm L P [] t x := by
  intro V ht hL
  obtain ⟨hx, hbare⟩ := h V ht hL
  refine ⟨hx.restrict fun id hid hV =>
      .inl (hV.resolve_right fun hpending => hnone id hpending hid),
    fun id hid => .inl ((hbare id hid).resolve_right ?_)⟩
  rintro ⟨e, he, rfl, -⟩
  exact hnone _ ⟨e, he, rfl⟩ (hx.mentions_of_bare hid)

/-! ## The invariant -/

variable {roots : Ty → Prop} {s : Session} {α β : Type}

/-- References of a kind have other digests than any other references that are looked up. -/
def Distinguished (r : Registry) (roots : Ty → Prop) (L : Reference → Prop) : Prop :=
  ∀ R S, L R → r.Involved roots R → r.Involved roots S → R.digest = S.digest → R = S

/-- Everything that is remembered is a grounded form of its reference.  The binders of expansions
have numbers that were given out after a moment. -/
structure Grounding (r : Registry) (roots : Ty → Prop) (L : Reference → Prop) (P : Int → Prop)
    (c : Nat) (stack : Stack) (s : Session) : Prop where
  definitions : s.registry.definitions = r.definitions
  base : c ≤ s.supply.count
  pending : ∀ id, stack.Pending id → (c : Int) < id ∧ id ≤ (s.supply.count : Int)
  memo : ∀ R u, r.Involved roots R → Table.get? R.digest s.registry.memo = some u →
    r.GroundedForm L P [] R.ty u

/-- A step keeps the invariant, and its result has a property. -/
def Grounded (r : Registry) (roots : Ty → Prop) (L : Reference → Prop) (P : Int → Prop) (c : Nat)
    (stack : Stack) (Q : α → Prop) (m : StateM Session α) : Prop :=
  ∀ s, r.Grounding roots L P c stack s → Regular.Clean P s (m.run s).2 →
    r.Grounding roots L P c stack (m.run s).2 ∧ Q (m.run s).1

variable {Q : α → Prop} {Q' : β → Prop}

theorem grounded_pure {a : α} (h : Q a) : r.Grounded roots L P c stack Q (pure a) :=
  fun _ hs _ => ⟨hs, h⟩

theorem Grounded.bind {m : StateM Session α} {f : α → StateM Session β} (hm : Quiet m)
    (hf : ∀ a, Quiet (f a)) (h : r.Grounded roots L P c stack Q m)
    (hnext : ∀ a, Q a → r.Grounded roots L P c stack Q' (f a)) :
    r.Grounded roots L P c stack Q' (m >>= f) := by
  intro s hs hclean
  have hcount := (hf (m.run s).1 (m.run s).2).2
  obtain ⟨hs₁, ha⟩ := h s hs (hclean.of_le (Nat.le_refl _) hcount)
  exact hnext _ ha _ hs₁ (hclean.of_le (hm s).2 (Nat.le_refl _))

/-! ## Normalising -/

/-- What becomes of a reference is a grounded form of it.  If it is left to itself, its name is not
defined. -/
structure BecomesGrounded (r : Registry) (L : Reference → Prop) (P : Int → Prop) (stack : Stack)
    (R : Reference) (o : Option Ty) : Prop where
  kept : o = none → r.lookup? R.1 = none
  form : ∀ u, o = some u → r.GroundedForm L P stack R.ty u

/-- What becomes of references. -/
def GroundedRefs (r : Registry) (roots : Ty → Prop) (L : Reference → Prop) (P : Int → Prop)
    (c : Nat) (stack : Stack) (onRef : String → List Ty → StateM Session (Option Ty)) : Prop :=
  ∀ R, Regular.At r roots stack R → R.ty.Given c →
    r.Grounded roots L P c stack (r.BecomesGrounded L P stack R) (onRef R.1 R.2)

variable {onRef : String → List Ty → StateM Session (Option Ty)}

mutual

theorem grounded_normalizeWith (hquiet : ∀ name args, Quiet (onRef name args))
    (hrefs : r.GroundedRefs roots L P c stack onRef)
    (hpending : ∀ id, stack.Pending id → (c : Int) < id) : ∀ {t : Ty},
    (∀ R ∈ r.visible t, Regular.At r roots stack R) → t.Given c →
    r.Grounded roots L P c stack (r.GroundedForm L P stack t) (normalizeWith onRef t)
  | .var v, _, _ => by
      rw [normalizeWith]
      exact grounded_pure (groundedForm_var v)
  | .prim name, _, _ => by
      rw [normalizeWith]
      exact grounded_pure (groundedForm_prim name)
  | .lit value, _, _ => by
      rw [normalizeWith]
      exact grounded_pure (groundedForm_lit value)
  | .fn p q, h, hgiven => by
      simp only [visible, List.forall_mem_append] at h
      obtain ⟨hp, hq⟩ := formed_fn.1 hgiven
      rw [normalizeWith]
      refine (grounded_normalizeWith hquiet hrefs hpending h.1 hp).bind
        (quiet_normalizeWith hquiet p)
        (fun _ => (quiet_normalizeWith hquiet q).bind fun _ => quiet_pure _) fun p' hp' => ?_
      exact (grounded_normalizeWith hquiet hrefs hpending h.2 hq).bind
        (quiet_normalizeWith hquiet q) (fun _ => quiet_pure _)
        fun q' hq' => grounded_pure (groundedForm_fn hp' hq')
  | .record fs row, h, hgiven => by
      simp only [visible] at h
      rw [normalizeWith]
      exact (grounded_normalizeFields hquiet hrefs hpending h (formed_record.1 hgiven)).bind
        (quiet_normalizeFields hquiet fs) (fun _ => quiet_pure _)
        fun gs hgs => grounded_pure (groundedForm_record hgs)
  | .tuple ts, h, hgiven => by
      simp only [visible] at h
      rw [normalizeWith]
      exact (grounded_normalizeAll hquiet hrefs hpending h (formed_tuple.1 hgiven)).bind
        (quiet_normalizeAll hquiet ts) (fun _ => quiet_pure _)
        fun xs hxs => grounded_pure (groundedForm_tuple hxs)
  | .union ts, h, hgiven => by
      simp only [visible] at h
      rw [normalizeWith]
      exact (grounded_normalizeAll hquiet hrefs hpending h (formed_of (k := .union).1 hgiven)).bind
        (quiet_normalizeAll hquiet ts) (fun _ => quiet_pure _)
        fun xs hxs => grounded_pure (groundedForm_build (k := .union) hxs)
  | .inter ts, h, hgiven => by
      simp only [visible] at h
      rw [normalizeWith]
      exact (grounded_normalizeAll hquiet hrefs hpending h (formed_of (k := .inter).1 hgiven)).bind
        (quiet_normalizeAll hquiet ts) (fun _ => quiet_pure _)
        fun xs hxs => grounded_pure (groundedForm_build (k := .inter) hxs)
  | .named name args, h, hgiven => by
      simp only [visible, List.forall_mem_cons] at h
      rw [normalizeWith]
      refine (hrefs (name, args) h.1 hgiven).bind (hquiet name args) (fun o => ?_) fun o ho => ?_
      · cases o with
        | some _ => exact quiet_pure _
        | none => exact (quiet_normalizeAll hquiet args).bind fun _ => quiet_pure _
      cases o with
      | some u => exact grounded_pure (ho.form u rfl)
      | none =>
          have hname : r.lookup? name = none := ho.kept rfl
          have hargs := h.2
          simp only [hname, Option.isSome_none, Bool.false_eq_true, if_false] at hargs
          exact (grounded_normalizeAll hquiet hrefs hpending hargs (formed_named.1 hgiven)).bind
            (quiet_normalizeAll hquiet args) (fun _ => quiet_pure _)
            fun xs hxs => grounded_pure (groundedForm_named hname hxs)
  | .mu v t, h, hgiven => by
      simp only [visible] at h
      obtain ⟨hv, ht⟩ := formed_mu.1 hgiven
      have hgiven : t.Given c := ht.mono (fun _ _ h => h) fun id hid => hid.elim (· ▸ hv) fun h => h
      rw [normalizeWith]
      refine (grounded_normalizeWith hquiet hrefs hpending h hgiven).bind
        (quiet_normalizeWith hquiet t) (fun _ => quiet_pure _)
        fun x hx => grounded_pure (groundedForm_mu (fun hid => ?_) hx)
      have := hpending _ hid
      omega

theorem grounded_normalizeAll (hquiet : ∀ name args, Quiet (onRef name args))
    (hrefs : r.GroundedRefs roots L P c stack onRef)
    (hpending : ∀ id, stack.Pending id → (c : Int) < id) : ∀ {ts : List Ty},
    (∀ R ∈ r.visibleAll ts, Regular.At r roots stack R) → (∀ t ∈ ts, t.Given c) →
    r.Grounded roots L P c stack (fun xs => ∀ x ∈ xs, ∃ t ∈ ts, r.GroundedForm L P stack t x)
      (normalizeAll onRef ts)
  | [], _, _ => by
      rw [normalizeAll]
      exact grounded_pure (List.forall_mem_nil _)
  | t :: ts, h, hgiven => by
      simp only [visibleAll, List.forall_mem_append] at h
      rw [List.forall_mem_cons] at hgiven
      rw [normalizeAll]
      refine (grounded_normalizeWith hquiet hrefs hpending h.1 hgiven.1).bind
        (quiet_normalizeWith hquiet t)
        (fun _ => (quiet_normalizeAll hquiet ts).bind fun _ => quiet_pure _) fun x hx => ?_
      refine (grounded_normalizeAll hquiet hrefs hpending h.2 hgiven.2).bind
        (quiet_normalizeAll hquiet ts) (fun _ => quiet_pure _) fun xs hxs => grounded_pure ?_
      refine List.forall_mem_cons.2 ⟨⟨t, List.mem_cons_self, hx⟩, fun y hy => ?_⟩
      exact (hxs y hy).imp fun u hu => ⟨List.mem_cons_of_mem _ hu.1, hu.2⟩

theorem grounded_normalizeFields (hquiet : ∀ name args, Quiet (onRef name args))
    (hrefs : r.GroundedRefs roots L P c stack onRef)
    (hpending : ∀ id, stack.Pending id → (c : Int) < id) : ∀ {fs : List (String × Ty)},
    (∀ R ∈ r.visibleFields fs, Regular.At r roots stack R) → (∀ f ∈ fs, f.2.Given c) →
    r.Grounded roots L P c stack (fun gs => ∀ g ∈ gs, ∃ f ∈ fs, r.GroundedForm L P stack f.2 g.2)
      (normalizeFields onRef fs)
  | [], _, _ => by
      rw [normalizeFields]
      exact grounded_pure (List.forall_mem_nil _)
  | (name, t) :: fs, h, hgiven => by
      simp only [visibleFields, List.forall_mem_append] at h
      rw [List.forall_mem_cons] at hgiven
      rw [normalizeFields]
      refine (grounded_normalizeWith hquiet hrefs hpending h.1 hgiven.1).bind
        (quiet_normalizeWith hquiet t)
        (fun _ => (quiet_normalizeFields hquiet fs).bind fun _ => quiet_pure _) fun x hx => ?_
      refine (grounded_normalizeFields hquiet hrefs hpending h.2 hgiven.2).bind
        (quiet_normalizeFields hquiet fs) (fun _ => quiet_pure _) fun gs hgs => grounded_pure ?_
      refine List.forall_mem_cons.2 ⟨⟨(name, t), List.mem_cons_self, hx⟩, fun g hg => ?_⟩
      exact (hgs g hg).imp fun f hf => ⟨List.mem_cons_of_mem _ hf.1, hf.2⟩

end

/-! ## Expanding a reference -/

theorem pending_cons : Stack.Pending ((R, b) :: stack) id ↔ b.id = id ∨ stack.Pending id := by
  simp [Stack.Pending]

/-- An expansion begins, with a new binder. -/
theorem Grounding.begin (h : r.Grounding roots L P c stack s) (R : Reference)
    (hb : b.id = (s.supply.count : Int) + 1) :
    r.Grounding roots L P c ((R, b) :: stack) { s with supply := ⟨s.supply.count + 1⟩ } where
  definitions := h.definitions
  base := Nat.le_succ_of_le h.base
  pending id hid := by
    have := h.base
    show (c : Int) < id ∧ id ≤ ((s.supply.count + 1 : Nat) : Int)
    rcases pending_cons.1 hid with rfl | hid
    · omega
    · have := h.pending id hid
      omega
  memo := h.memo

/-- An expansion ends, and what became of the reference is remembered, unless it mentions the binder
of an expansion around it. -/
theorem Grounding.close (h : r.Grounding roots L P c ((R, b) :: stack) s)
    (hdigests : r.Distinguished roots L) (hinvolved : r.Involved roots R) {body : Ty}
    (hform : r.GroundedForm L P stack R.ty (body.tied b)) :
    r.Grounding roots L P c stack ((closeExpansion stack.expanding R.digest b body).run s).2 := by
  have hpending := fun id hid => h.pending id (pending_cons.2 (.inr hid))
  rw [run_closeExpansion]
  dsimp only
  split
  · exact ⟨h.definitions, h.base, hpending, h.memo⟩
  · next hnone =>
      refine ⟨h.definitions, h.base, hpending, fun S u hS hu => ?_⟩
      dsimp only at hu
      by_cases hdigest : S.digest = R.digest
      · intro V hV hL
        obtain rfl := hdigests S R (hL S List.mem_cons_self) hS hinvolved hdigest
        rw [Table.get?_insert_self] at hu
        cases hu
        refine hform.of_not_mentions ?_ V hV hL
        rintro id ⟨e, he, rfl⟩
        exact not_mentions_of_mentionsBinder (Bool.eq_false_of_not_eq_true hnone)
          (List.mem_map_of_mem he)
      · rw [Table.get?_insert_of_ne hdigest] at hu
        exact h.memo S u hS hu

/-- A reference is expanded while others are. -/
theorem Grounding.expand (h : r.Grounding roots L P c stack s) (hr : r.Parametric)
    (hknots : r.Unknotted L) (hdigests : r.Distinguished roots L) (hat : Regular.At r roots stack R)
    (hgiven : R.ty.Given c) (hroom : stack.refs.length < expansionLimit)
    (he : r.expand? R.1 R.2 = some e)
    {onRef : TyVar → String → List Ty → StateM Session (Option Ty)}
    (hquiet : ∀ v name args, Quiet (onRef v name args))
    (hrefs : ∀ v, r.GroundedRefs roots L P c ((R, v) :: stack) (onRef v)) :
    let out := (expandWith onRef stack.expanding R.digest e).run s
    Regular.Clean P s out.2 →
      r.Grounding roots L P c stack out.2 ∧ r.BecomesGrounded L P stack R out.1 := by
  intro out hclean
  let v : TyVar := ⟨(s.supply.count : Int) + 1, 0⟩
  obtain ⟨hv, hclean'⟩ := hclean.inside hquiet
  have hbase := h.base
  have hc : (c : Int) < v.id := by show _ < (s.supply.count : Int) + 1; omega
  have hnew : ¬ stack.Pending v.id := fun hid => by
    have : (s.supply.count : Int) + 1 ≤ s.supply.count := (h.pending _ hid).2
    omega
  have hbegin := h.begin (b := v) R rfl
  have hvisible : ∀ S ∈ r.visible e, Regular.At r roots ((R, v) :: stack) S := fun S hS =>
    ⟨.next hat.1 ⟨e, he, hS⟩, hroom⟩
  have hexpanded : e.Given c := hr.formed_expand? (formed_named.1 hgiven) he
  obtain ⟨hs, hform⟩ := grounded_normalizeWith (hquiet v) (hrefs v)
    (fun id hid => (hbegin.pending id hid).1) hvisible hexpanded _ hbegin hclean'
  have htied := groundedForm_tied hr hknots he hexpanded hc hv hnew hform
  refine ⟨hs.close hdigests hat.involved htied, by rintro ⟨⟩, fun u hu => ?_⟩
  obtain rfl := Option.some.inj hu
  show r.GroundedForm L P stack R.ty ((closeExpansion _ _ v _).run _).1
  rw [run_closeExpansion]
  exact htied

/-- References are dealt with while others are being expanded. -/
theorem grounded_normalizeRefStep (hr : r.Parametric) (hknots : r.Unknotted L)
    (hdigests : r.Distinguished roots L)
    {below : Option (Expanding → String → List Ty → StateM Session (Option Ty))}
    (hquiet : ∀ b, below = some b → ∀ expanding name args, Quiet (b expanding name args))
    (hbelow : ∀ b, below = some b → stack.refs.length < expansionLimit ∧
      ∀ R v, r.GroundedRefs roots L P c ((R, v) :: stack) (b ((R.digest, v) :: stack.expanding))) :
    r.GroundedRefs roots L P c stack (normalizeRefStep below stack.expanding) := by
  intro R hat hgiven s hs
  generalize hout : (normalizeRefStep below stack.expanding R.1 R.2).run s = out
  have hself : ∀ {o}, r.BecomesGrounded L P stack R o → Regular.Clean P s s →
      r.Grounding roots L P c stack s ∧ r.BecomesGrounded L P stack R o := fun ho _ => ⟨hs, ho⟩
  have hform : ∀ {u}, r.GroundedForm L P stack R.ty u → r.BecomesGrounded L P stack R (some u) :=
    fun hu => ⟨nofun, by rintro _ ⟨⟩; exact hu⟩
  have hdealt : r.Dealt below stack R s out := hout ▸ dealt_normalizeRefStep hs.definitions
  cases hdealt with
  | @again S b hmem hdigest =>
      refine hself (hform (groundedForm_again fun hR => ?_))
      obtain rfl := hdigests R S hR hat.involved (hat.involved_of_mem hmem) hdigest.symm
      exact hmem
  | remembered _ hmemo => exact hself (hform ((hs.memo R _ hat.involved hmemo).anywhere stack))
  | unknown _ hd => exact hself ⟨fun _ => hd, by rintro _ ⟨⟩⟩
  | deep => exact hself (hform (groundedForm_left R))
  | misfit => exact hself (hform (groundedForm_left R))
  | expanded _ _ hb he =>
      exact hs.expand hr hknots hdigests hat hgiven (hbelow _ hb).1 he (fun _ => hquiet _ hb _)
        ((hbelow _ hb).2 R)

theorem grounded_normalizeRef (hr : r.Parametric) (hknots : r.Unknotted L)
    (hdigests : r.Distinguished roots L) : ∀ (allowed : Nat) (stack : Stack),
    stack.refs.length + allowed = expansionLimit →
    r.GroundedRefs roots L P c stack (normalizeRef allowed stack.expanding)
  | 0, stack, _ => by
      rw [normalizeRef]
      exact grounded_normalizeRefStep hr hknots hdigests (by rintro b ⟨⟩) (by rintro b ⟨⟩)
  | allowed + 1, stack, hlength => by
      rw [normalizeRef]
      refine grounded_normalizeRefStep hr hknots hdigests ?_ ?_
      · rintro b ⟨⟩
        exact quiet_normalizeRef allowed
      · rintro b ⟨⟩
        refine ⟨by omega, fun R v =>
          grounded_normalizeRef hr hknots hdigests allowed ((R, v) :: stack) ?_⟩
        simp only [Stack.refs, List.map_cons, List.length_cons] at hlength ⊢
        omega

/-- Normalising one of the types keeps the invariant, and makes a grounded form of it. -/
theorem grounded_normalize (hr : r.Parametric) (hknots : r.Unknotted L)
    (hdigests : r.Distinguished roots L) (ht : roots t) (hgiven : t.Given c) :
    r.Grounded roots L P c [] (r.GroundedForm L P [] t) (normalize t) :=
  grounded_normalizeWith (quiet_normalizeRef expansionLimit [])
    (grounded_normalizeRef hr hknots hdigests expansionLimit [] (Nat.zero_add _))
    (fun _ hid => absurd hid not_pending_nil) (fun _ hR => ⟨.start ht hR, Nat.zero_le _⟩) hgiven

end Registry

end RowTypes
