import RowTypes.Proofs.NormalForms
import RowTypes.Proofs.Unrolling

/-!
# What normalising remembers

A normal form that was remembered while one type was normalised turns up in others.  For it to make
no difference, it has to be the form that would have been made on the spot.  So it is, of a
reference that a type leads to, if three things hold.  No other reference that the type leads to
comes back to this one, or else what is tied inside depends on where the expansion began.  No
reference that was looked up has its digest, or else a form of another one is found.  And no way to
it is as long as expansions may nest, or else references are left inside as they are.

Of references that the type does not lead to nothing is known, and nothing has to be: whatever is
remembered of them is remembered under other digests.  `Knows` is the invariant, and `Learns` says
of a step that it keeps the invariant, while more references get binders.
-/

namespace RowTypes

open Ty

namespace Registry

/-- A type leads to a reference. -/
def Reaches (r : Registry) (t : Ty) (R : Reference) : Prop := ∃ Rs, r.Path (· = t) R Rs

/-- What was remembered of some types makes no difference to a type that is one of them. -/
structure Insulated (r : Registry) (roots : Ty → Prop) (t : Ty) : Prop where
  root : roots t
  /-- References that the type leads to do not come back to each other. -/
  apart : ∀ {R S}, r.Reaches t R → Relation.TransGen r.Shows R S → Relation.TransGen r.Shows S R →
    R = S
  digests : ∀ {R S Ss}, r.Reaches t R → r.Path roots S Ss → R.digest = S.digest → R = S
  shallow : ∀ {R Rs}, r.Reaches t R → r.Path roots R Rs → (R :: Rs).Nodup →
    Rs.length < expansionLimit

variable {r : Registry} {roots : Ty → Prop} {t : Ty}

theorem Path.mono {roots' : Ty → Prop} (h : ∀ u, roots u → roots' u) {R : Reference}
    {Rs : List Reference} (hpath : r.Path roots R Rs) : r.Path roots' R Rs := by
  induction hpath with
  | start ht hR => exact .start (h _ ht) hR
  | next _ hshows ih => exact .next ih hshows

/-- A sufficient condition: the types use few references, with different digests, each of which
uses none but itself and lower ones. -/
theorem insulated_of_rank (refs : List Reference) (rank : Reference → Nat) (ht : roots t)
    (hroots : ∀ u, roots u → ∀ R ∈ r.visible u, R ∈ refs)
    (hstep : ∀ R ∈ refs, ∀ e, r.expand? R.1 R.2 = some e →
      ∀ S ∈ r.visible e, S ∈ refs ∧ (S = R ∨ rank S < rank R))
    (hdigests : ∀ R ∈ refs, ∀ S ∈ refs, R.digest = S.digest → R = S)
    (hlength : refs.length ≤ expansionLimit) : r.Insulated roots t := by
  have hmem : ∀ {roots' : Ty → Prop} {R Rs}, (∀ u, roots' u → roots u) → r.Path roots' R Rs →
      ∀ S ∈ R :: Rs, S ∈ refs := by
    intro roots' R Rs hroots' hpath
    induction hpath with
    | start hu hR => simpa using hroots _ (hroots' _ hu) _ hR
    | next _ hshows ih =>
        obtain ⟨e, he, hS⟩ := hshows
        exact List.forall_mem_cons.2 ⟨(hstep _ (ih _ List.mem_cons_self) e he _ hS).1, ih⟩
  have hpath : ∀ {R Rs}, r.Path roots R Rs → R ∈ refs := fun h =>
    hmem (fun _ => id) h _ List.mem_cons_self
  have hreach : ∀ {R}, r.Reaches t R → R ∈ refs := fun ⟨_, h⟩ =>
    hmem (by rintro u rfl; exact ht) h _ List.mem_cons_self
  have hrank : ∀ {R S}, R ∈ refs → Relation.TransGen r.Shows R S →
      S ∈ refs ∧ (S = R ∨ rank S < rank R) := by
    intro R S hR h
    induction h with
    | single h =>
        obtain ⟨e, he, hS⟩ := h
        exact hstep _ hR e he _ hS
    | tail _ h ih =>
        obtain ⟨e, he, hS⟩ := h
        obtain ⟨hmem, hlt⟩ := hstep _ ih.1 e he _ hS
        refine ⟨hmem, ?_⟩
        rcases hlt with rfl | hlt
        · exact ih.2
        · rcases ih.2 with rfl | hlt'
          · exact .inr hlt
          · exact .inr (Nat.lt_trans hlt hlt')
  refine ⟨ht, fun hR h h' => ?_, fun hR hS => hdigests _ (hreach hR) _ (hpath hS),
    fun _ h hnodup => ?_⟩
  · obtain ⟨hS, hlt⟩ := hrank (hreach hR) h
    rcases hlt with rfl | hlt
    · rfl
    · rcases (hrank hS h').2 with rfl | hlt'
      · rfl
      · omega
  · have := (List.subperm_of_subset hnodup (hmem (fun _ => id) h)).length_le
    rw [List.length_cons] at this
    omega

theorem Reaches.next {R S : Reference} (h : r.Reaches t R) (hS : r.Shows R S) : r.Reaches t S := by
  obtain ⟨Rs, hpath⟩ := h
  exact ⟨_, hpath.next hS⟩

theorem Reaches.trans {R S : Reference} (h : r.Reaches t R)
    (hS : Relation.TransGen r.Shows R S) : r.Reaches t S := by
  induction hS with
  | single hS => exact h.next hS
  | tail _ hS ih => exact ih.next hS

mutual

/-- The arguments of the references of a type are made of the type's numbers. -/
theorem over_of_mem_visible {P : Int → Prop} : ∀ {u : Ty}, u.Over P →
    ∀ R ∈ r.visible u, ∀ a ∈ R.2, a.Over P
  | .var _, _ | .prim _, _ | .lit _, _ => by rw [visible]; simp
  | .fn p q, h => by
      rw [visible, List.forall_mem_append]
      exact ⟨over_of_mem_visible (over_fn.1 h).1, over_of_mem_visible (over_fn.1 h).2⟩
  | .record fs _, h => by
      rw [visible]
      exact over_of_mem_visibleFields (over_record.1 h).1
  | .tuple ts, h => by
      rw [visible]
      exact over_of_mem_visibleAll (over_tuple.1 h)
  | .union ts, h => by
      rw [visible]
      exact over_of_mem_visibleAll (over_union.1 h)
  | .inter ts, h => by
      rw [visible]
      exact over_of_mem_visibleAll (over_inter.1 h)
  | .named name args, h => by
      rw [visible, List.forall_mem_cons]
      refine ⟨over_named.1 h, ?_⟩
      split
      · simp
      · exact over_of_mem_visibleAll (over_named.1 h)
  | .mu _ u, h => by
      rw [visible]
      exact over_of_mem_visible (over_mu.1 h).2

theorem over_of_mem_visibleAll {P : Int → Prop} : ∀ {us : List Ty}, (∀ u ∈ us, u.Over P) →
    ∀ R ∈ r.visibleAll us, ∀ a ∈ R.2, a.Over P
  | [], _ => by rw [visibleAll]; simp
  | u :: us, h => by
      rw [List.forall_mem_cons] at h
      rw [visibleAll, List.forall_mem_append]
      exact ⟨over_of_mem_visible h.1, over_of_mem_visibleAll h.2⟩

theorem over_of_mem_visibleFields {P : Int → Prop} : ∀ {fs : List (String × Ty)},
    (∀ f ∈ fs, f.2.Over P) → ∀ R ∈ r.visibleFields fs, ∀ a ∈ R.2, a.Over P
  | [], _ => by rw [visibleFields]; simp
  | (_, u) :: fs, h => by
      rw [List.forall_mem_cons] at h
      rw [visibleFields, List.forall_mem_append]
      exact ⟨over_of_mem_visible h.1, over_of_mem_visibleFields h.2⟩

end

end Registry

/-! ## Any session -/

/-- A session goes on: it has the same definitions, and no fewer unknowns were given out. -/
def Session.GoesOn (s q : Session) : Prop :=
  q.registry.definitions = s.registry.definitions ∧ s.supply.count ≤ q.supply.count

theorem Session.GoesOn.refl (s : Session) : s.GoesOn s := ⟨rfl, Nat.le_refl _⟩

theorem Session.GoesOn.trans {s p q : Session} (h : s.GoesOn p) (h' : p.GoesOn q) : s.GoesOn q :=
  ⟨h'.1.trans h.1, Nat.le_trans h.2 h'.2⟩

namespace Registry

section Quiet

variable {α β : Type}

/-- A step makes unknowns and remembers normal forms, and does nothing else to a session. -/
def Quiet (m : StateM Session α) : Prop := ∀ s : Session, s.GoesOn (m.run s).2

theorem quiet_pure (a : α) : Quiet (pure a) := .refl

theorem Quiet.bind {m : StateM Session α} {f : α → StateM Session β} (h : Quiet m)
    (hf : ∀ a, Quiet (f a)) : Quiet (m >>= f) := fun s => (h s).trans (hf _ _)

end Quiet

variable {onRef : String → List Ty → StateM Session (Option Ty)}

mutual

theorem quiet_normalizeWith (h : ∀ name args, Quiet (onRef name args)) :
    ∀ t : Ty, Quiet (normalizeWith onRef t)
  | .var _ | .prim _ | .lit _ => by
      rw [normalizeWith]
      exact quiet_pure _
  | .fn p q => by
      rw [normalizeWith]
      exact (quiet_normalizeWith h p).bind fun _ =>
        (quiet_normalizeWith h q).bind fun _ => quiet_pure _
  | .record fs _ => by
      rw [normalizeWith]
      exact (quiet_normalizeFields h fs).bind fun _ => quiet_pure _
  | .tuple ts | .union ts | .inter ts => by
      rw [normalizeWith]
      exact (quiet_normalizeAll h ts).bind fun _ => quiet_pure _
  | .named name args => by
      rw [normalizeWith]
      refine (h name args).bind fun o => ?_
      cases o with
      | some _ => exact quiet_pure _
      | none => exact (quiet_normalizeAll h args).bind fun _ => quiet_pure _
  | .mu _ t => by
      rw [normalizeWith]
      exact (quiet_normalizeWith h t).bind fun _ => quiet_pure _

theorem quiet_normalizeAll (h : ∀ name args, Quiet (onRef name args)) :
    ∀ ts : List Ty, Quiet (normalizeAll onRef ts)
  | [] => by
      rw [normalizeAll]
      exact quiet_pure _
  | t :: ts => by
      rw [normalizeAll]
      exact (quiet_normalizeWith h t).bind fun _ =>
        (quiet_normalizeAll h ts).bind fun _ => quiet_pure _

theorem quiet_normalizeFields (h : ∀ name args, Quiet (onRef name args)) :
    ∀ fs : List (String × Ty), Quiet (normalizeFields onRef fs)
  | [] => by
      rw [normalizeFields]
      exact quiet_pure _
  | (_, t) :: fs => by
      rw [normalizeFields]
      exact (quiet_normalizeWith h t).bind fun _ =>
        (quiet_normalizeFields h fs).bind fun _ => quiet_pure _

end

theorem run_closeExpansion (expanding : Expanding) (key : Digest) (b : TyVar) (body : Ty)
    (s : Session) :
    (closeExpansion expanding key b body).run s =
      (body.tied b, if mentionsBinder expanding (body.tied b) then s else
        { s with registry :=
          { s.registry with memo := Table.insert key (body.tied b) s.registry.memo } }) := by
  unfold closeExpansion
  dsimp only
  rw [← Ty.tied]
  cases mentionsBinder expanding (body.tied b) <;> rfl

theorem quiet_closeExpansion (expanding : Expanding) (key : Digest) (b : TyVar) (body : Ty) :
    Quiet (closeExpansion expanding key b body) := by
  intro s
  rw [run_closeExpansion]
  dsimp only
  split
  · exact .refl s
  · exact ⟨rfl, Nat.le_refl _⟩

theorem quiet_normalizeRefStep
    {below : Option (Expanding → String → List Ty → StateM Session (Option Ty))}
    (hbelow : ∀ b, below = some b → ∀ expanding name args, Quiet (b expanding name args))
    (expanding : Expanding) (name : String) (args : List Ty) :
    Quiet (normalizeRefStep below expanding name args) := by
  unfold normalizeRefStep
  dsimp only
  split
  · exact quiet_pure _
  · refine Quiet.bind (m := get) .refl fun s => ?_
    split
    · exact quiet_pure _
    · split
      · exact quiet_pure _
      · exact quiet_pure _
      · next b _ =>
          split
          · exact quiet_pure _
          · refine Quiet.bind (fun s => ⟨rfl, Nat.le_succ _⟩) fun v => ?_
            refine (quiet_normalizeWith (hbelow b rfl _) _).bind fun body => ?_
            rw [← bind_pure_comp]
            exact (quiet_closeExpansion _ _ _ _).bind fun _ => quiet_pure _

theorem quiet_normalizeRef : ∀ (allowed : Nat) (expanding : Expanding) (name : String)
    (args : List Ty), Quiet (normalizeRef allowed expanding name args)
  | 0 => by
      rw [normalizeRef]
      exact quiet_normalizeRefStep (by rintro b ⟨⟩)
  | allowed + 1 => by
      rw [normalizeRef]
      refine quiet_normalizeRefStep ?_
      rintro b ⟨⟩
      exact quiet_normalizeRef allowed

theorem quiet_normalize (t : Ty) : Quiet (normalize t) :=
  quiet_normalizeWith (quiet_normalizeRef expansionLimit []) t

variable {r : Registry} {roots : Ty → Prop} {t : Ty}

/-! ## The invariant -/

/-- Definitions, the types that are normalised under them, one of these to which the others make no
difference, and a bound of the numbers that it and the definitions are made of. -/
structure Setting where
  r : Registry
  roots : Ty → Prop
  t : Ty
  base : Nat
  insulated : r.Insulated roots t
  bounded : t.Over (· ≤ (base : Int))
  bodies : ∀ name d, r.lookup? name = some d → d.body.Over (· ≤ (base : Int))

/-- References that are being expanded, with their binders, the innermost first. -/
abbrev Stack := List (Reference × TyVar)

def Stack.refs (stack : Stack) : List Reference := stack.map (·.1)

/-- The innermost expansion. -/
def Stack.current (stack : Stack) : Option Reference := stack.refs.head?

def Stack.expanding (stack : Stack) : Expanding := stack.map fun e => (e.1.digest, e.2)

/-! ## Dealing with a reference -/

section Dealing

variable {stack : Stack} {R : Reference} {s : Session} {u : Ty}
  {below : Option (Expanding → String → List Ty → StateM Session (Option Ty))}

/-- Puts its definition in the place of a reference, with a new binder for where it comes up again. -/
def expandWith (onRef : TyVar → String → List Ty → StateM Session (Option Ty))
    (expanding : Expanding) (key : Digest) (e : Ty) : StateM Session (Option Ty) := do
  let v ← freshVar 0
  let body ← normalizeWith (onRef v) e
  some <$> closeExpansion expanding key v body

/-- What is done about a reference that is neither being expanded nor remembered. -/
theorem run_normalizeRefStep
    {expanding : Expanding} {name : String} {args : List Ty}
    (hexpanding : expanding.lookup (Ty.named name args).digest = none)
    (hmemo : Table.get? (Ty.named name args).digest s.registry.memo = none) :
    (normalizeRefStep below expanding name args).run s =
      match s.registry.lookup? name, below with
      | none, _ => (none, s)
      | some _, none => (some (.named name args), s)
      | some d, some below =>
        match d.expand? args with
        | none => (some (.named name args), s)
        | some expanded =>
          (expandWith (fun v => below (((Ty.named name args).digest, v) :: expanding)) expanding
            (Ty.named name args).digest expanded).run s := by
  unfold normalizeRefStep
  dsimp only
  rw [hexpanding]
  dsimp only
  rw [StateM.run_bind, show (get : StateM Session Session).run s = (s, s) from rfl]
  dsimp only
  rw [hmemo]
  dsimp only
  cases s.registry.lookup? name with
  | none => rfl
  | some d =>
      cases below with
      | none => rfl
      | some below =>
          dsimp only
          cases d.expand? args <;> rfl

/-- One that is being expanded stands for its binder. -/
theorem run_normalizeRefStep_of_lookup
    {expanding : Expanding} {name : String} {args : List Ty} {v : TyVar}
    (h : expanding.lookup (Ty.named name args).digest = some v) :
    (normalizeRefStep below expanding name args).run s = (some (.var v), s) := by
  unfold normalizeRefStep
  dsimp only
  rw [h]
  rfl

/-- One that is remembered stands for what is remembered. -/
theorem run_normalizeRefStep_of_get?
    {expanding : Expanding} {name : String} {args : List Ty}
    (hexpanding : expanding.lookup (Ty.named name args).digest = none)
    (hmemo : Table.get? (Ty.named name args).digest s.registry.memo = some u) :
    (normalizeRefStep below expanding name args).run s = (some u, s) := by
  unfold normalizeRefStep
  dsimp only
  rw [hexpanding]
  dsimp only
  rw [StateM.run_bind, show (get : StateM Session Session).run s = (s, s) from rfl]
  dsimp only
  rw [hmemo]
  rfl

/-- An entry under the digest of a reference is that of a reference with this digest. -/
theorem Stack.mem_of_lookup {key : Digest} {b : TyVar} (h : stack.expanding.lookup key = some b) :
    ∃ S, (S, b) ∈ stack ∧ S.digest = key := by
  obtain ⟨before, later, hsplit, -⟩ := List.lookup_eq_some_iff.1 h
  have hentry : (key, b) ∈ stack.expanding := hsplit ▸ List.mem_append_cons_self
  obtain ⟨⟨S, b⟩, hmem, heq⟩ := List.mem_map.1 hentry
  obtain ⟨hdigest, rfl⟩ := Prod.mk.inj heq
  exact ⟨S, hmem, hdigest⟩

theorem Stack.not_mem_of_lookup (h : stack.expanding.lookup R.digest = none) : R ∉ stack.refs := by
  intro href
  obtain ⟨⟨S, b⟩, hmem, rfl⟩ := List.mem_map.1 href
  have hentry : (S.digest, b) ∈ stack.expanding :=
    List.mem_map_of_mem (f := fun e => (e.1.digest, e.2)) hmem
  simpa using List.lookup_eq_none_iff.1 h _ hentry

/-- The ways in which a reference is dealt with under some definitions, with what comes of it: one
that has the digest of a reference that is being expanded stands for the binder of that, and one
that is remembered for what is remembered.  Of the others those with an unknown name are not dealt
with, and those that may not or cannot be expanded stay as they are. -/
inductive Dealt (r : Registry)
    (below : Option (Expanding → String → List Ty → StateM Session (Option Ty))) (stack : Stack)
    (R : Reference) (s : Session) : Option Ty × Session → Prop where
  | again {S : Reference} {b : TyVar} : (S, b) ∈ stack → S.digest = R.digest →
      Dealt r below stack R s (some (.var b), s)
  | remembered {u : Ty} : R ∉ stack.refs → Table.get? R.digest s.registry.memo = some u →
      Dealt r below stack R s (some u, s)
  | unknown : R ∉ stack.refs → r.lookup? R.1 = none → Dealt r below stack R s (none, s)
  | deep : R ∉ stack.refs → below = none →
      Dealt r below stack R s (some (.named R.1 R.2), s)
  | misfit {d : Definition} : R ∉ stack.refs → r.lookup? R.1 = some d → d.expand? R.2 = none →
      Dealt r below stack R s (some (.named R.1 R.2), s)
  | expanded {onRef : Expanding → String → List Ty → StateM Session (Option Ty)} {e : Ty} :
      R ∉ stack.refs → Table.get? R.digest s.registry.memo = none → below = some onRef →
      r.expand? R.1 R.2 = some e →
      Dealt r below stack R s ((expandWith (fun v => onRef ((R.digest, v) :: stack.expanding))
        stack.expanding R.digest e).run s)

theorem lookup?_of_definitions (hdef : s.registry.definitions = r.definitions) (name : String) :
    s.registry.lookup? name = r.lookup? name := by
  unfold lookup?
  rw [hdef]

theorem dealt_normalizeRefStep (hdef : s.registry.definitions = r.definitions) :
    Dealt r below stack R s ((normalizeRefStep below stack.expanding R.1 R.2).run s) := by
  cases hlookup : stack.expanding.lookup R.digest with
  | some b =>
      rw [run_normalizeRefStep_of_lookup hlookup]
      obtain ⟨S, hmem, hdigest⟩ := Stack.mem_of_lookup hlookup
      exact .again hmem hdigest
  | none =>
  have hnew := Stack.not_mem_of_lookup hlookup
  cases hmemo : Table.get? R.digest s.registry.memo with
  | some u =>
      rw [run_normalizeRefStep_of_get? hlookup hmemo]
      exact .remembered hnew hmemo
  | none =>
  rw [run_normalizeRefStep hlookup hmemo, lookup?_of_definitions hdef]
  cases hd : r.lookup? R.1 with
  | none => exact .unknown hnew hd
  | some d =>
  cases hbelow : below with
  | none => exact .deep hnew rfl
  | some onRef =>
  dsimp only
  cases he : d.expand? R.2 with
  | none => exact .misfit hnew hd he
  | some e => exact .expanded hnew hmemo rfl (by rw [expand?, hd, Option.bind_some, he])

end Dealing

namespace Setting

variable (w : Setting) {B B' : Reference → TyVar → Prop} {stack : Stack} {s : Session}
  {α β : Type}

/-- The type leads to the reference. -/
def Leads (R : Reference) : Prop := w.r.Reaches w.t R

/-- A reference is come to while others are being expanded. -/
def At (stack : Stack) (R : Reference) : Prop := w.r.Path w.roots R stack.refs

/-- A form is the one that the reference unrolls to. -/
def Unrolled (B : Reference → TyVar → Prop) (R : Reference) (u : Ty) : Prop :=
  ∃ b e body, w.r.expand? R.1 R.2 = some e ∧ B R b ∧ Unrolls w.r B (some R) e body ∧
    u = body.tied b

/-- What is remembered in a session of the references that the type leads to is what they unroll
to, under some binders; a reference has a binder if it is being expanded or is remembered. -/
structure Knows (B : Reference → TyVar → Prop) (stack : Stack) (s : Session) : Prop where
  definitions : s.registry.definitions = w.r.definitions
  numbering : Numbering w.base B
  base : w.base ≤ s.supply.count
  given : ∀ {R b}, B R b → b.id ≤ s.supply.count
  pending : ∀ {R b}, (R, b) ∈ stack → (w.base : Int) < b.id ∧ b.id ≤ s.supply.count
  binder : ∀ {R b}, (R, b) ∈ stack → w.Leads R → B R b
  known : ∀ {R b}, B R b →
    w.Leads R ∧ ((R, b) ∈ stack ∨ (Table.get? R.digest s.registry.memo).isSome)
  memo : ∀ {R u}, w.Leads R → Table.get? R.digest s.registry.memo = some u → w.Unrolled B R u

/-- A step keeps the invariant, and its result has a property under the binders that there are
then. -/
def Learns (B : Reference → TyVar → Prop) (stack : Stack)
    (Q : (Reference → TyVar → Prop) → α → Prop) (m : StateM Session α) : Prop :=
  ∀ s : Session, w.Knows B stack s → ∃ B', (∀ R b, B R b → B' R b) ∧
    w.Knows B' stack (m.run s).2 ∧ Q B' (m.run s).1

variable {w} {Q : (Reference → TyVar → Prop) → α → Prop}
  {Q' : (Reference → TyVar → Prop) → β → Prop}

theorem Unrolled.mono {R : Reference} {u : Ty} (hB : ∀ R b, B R b → B' R b)
    (h : w.Unrolled B R u) : w.Unrolled B' R u := by
  obtain ⟨b, e, body, he, hb, hbody, rfl⟩ := h
  exact ⟨b, e, body, he, hB _ _ hb, hbody.mono hB, rfl⟩

theorem learns_pure {a : α} (h : Q B a) : w.Learns B stack Q (pure a) :=
  fun _ hs => ⟨B, fun _ _ => id, hs, h⟩

theorem Learns.bind {m : StateM Session α} {f : α → StateM Session β}
    (h : w.Learns B stack Q m)
    (hf : ∀ a B', (∀ R b, B R b → B' R b) → Q B' a → w.Learns B' stack Q' (f a)) :
    w.Learns B stack Q' (m >>= f) := by
  intro s hs
  obtain ⟨B₁, hB₁, hs₁, ha⟩ := h s hs
  obtain ⟨B₂, hB₂, hs₂, hb⟩ := hf _ B₁ hB₁ ha _ hs₁
  exact ⟨B₂, fun R b hb => hB₂ R b (hB₁ R b hb), hs₂, hb⟩

/-! ## Normalising -/

/-- What becomes of a reference that is not being expanded, or is innermost: of one that the type
leads to, what it unrolls to.  If it is left to itself, its name is not defined. -/
structure Becomes (w : Setting) (B : Reference → TyVar → Prop) (stack : Stack) (R : Reference)
    (o : Option Ty) : Prop where
  kept : o = none → stack.current ≠ some R ∧ w.r.lookup? R.1 = none
  unrolls : ∀ u, o = some u → w.Leads R → Unrolls w.r B stack.current (.named R.1 R.2) u

/-- What becomes of references. -/
def LearnsRefs (w : Setting) (stack : Stack)
    (onRef : String → List Ty → StateM Session (Option Ty)) : Prop :=
  ∀ B R, w.At stack R → w.Learns B stack (fun B o => w.Becomes B stack R o) (onRef R.1 R.2)

variable {onRef : String → List Ty → StateM Session (Option Ty)}

mutual

theorem learns_normalizeWith (hrefs : w.LearnsRefs stack onRef) : ∀ {u : Ty}
    {B : Reference → TyVar → Prop}, (∀ R ∈ w.r.visible u, w.At stack R) →
    w.Learns B stack (fun B u' => (∀ R ∈ w.r.visible u, w.Leads R) →
      Unrolls w.r B stack.current u u') (normalizeWith onRef u)
  | .var v, B, _ => by
      rw [normalizeWith]
      exact learns_pure fun _ => .var v
  | .prim name, B, _ => by
      rw [normalizeWith]
      exact learns_pure fun _ => .prim name
  | .lit value, B, _ => by
      rw [normalizeWith]
      exact learns_pure fun _ => .lit value
  | .fn p q, B, h => by
      simp only [visible, List.forall_mem_append] at h ⊢
      rw [normalizeWith]
      refine (learns_normalizeWith hrefs h.1).bind fun p' B₁ _ hp => ?_
      refine (learns_normalizeWith hrefs h.2).bind fun q' B₂ hB hq => learns_pure fun hlead => ?_
      exact .fn ((hp hlead.1).mono hB) (hq hlead.2)
  | .record fs row, B, h => by
      simp only [visible] at h ⊢
      rw [normalizeWith]
      exact (learns_normalizeFields hrefs h).bind fun fs' _ _ hfs =>
        learns_pure fun hlead => .record row (hfs hlead)
  | .tuple ts, B, h => by
      simp only [visible] at h ⊢
      rw [normalizeWith]
      exact (learns_normalizeAll hrefs h).bind fun ts' _ _ hts =>
        learns_pure fun hlead => .tuple (hts hlead)
  | .union ts, B, h => by
      simp only [visible] at h ⊢
      rw [normalizeWith]
      exact (learns_normalizeAll hrefs h).bind fun ts' _ _ hts =>
        learns_pure fun hlead => .union (hts hlead)
  | .inter ts, B, h => by
      simp only [visible] at h ⊢
      rw [normalizeWith]
      exact (learns_normalizeAll hrefs h).bind fun ts' _ _ hts =>
        learns_pure fun hlead => .inter (hts hlead)
  | .named name args, B, h => by
      simp only [visible, List.forall_mem_cons] at h ⊢
      rw [normalizeWith]
      refine (hrefs B (name, args) h.1).bind fun o B₁ _ ho => ?_
      cases o with
      | some u => exact learns_pure fun hlead => ho.unrolls u rfl hlead.1
      | none =>
          obtain ⟨hcur, hname⟩ := ho.kept rfl
          have hargs := h.2
          simp only [show w.r.lookup? name = none from hname, Option.isSome_none,
            Bool.false_eq_true, if_false] at hargs ⊢
          exact (learns_normalizeAll hrefs hargs).bind fun args' _ _ hargs' =>
            learns_pure fun hlead => .undefined hcur hname (hargs' hlead.2)
  | .mu v u, B, h => by
      simp only [visible] at h ⊢
      rw [normalizeWith]
      exact (learns_normalizeWith hrefs h).bind fun u' _ _ hu =>
        learns_pure fun hlead => .mu v (hu hlead)

theorem learns_normalizeAll (hrefs : w.LearnsRefs stack onRef) : ∀ {us : List Ty}
    {B : Reference → TyVar → Prop}, (∀ R ∈ w.r.visibleAll us, w.At stack R) →
    w.Learns B stack (fun B us' => (∀ R ∈ w.r.visibleAll us, w.Leads R) →
      UnrollsAll w.r B stack.current us us') (normalizeAll onRef us)
  | [], B, _ => by
      rw [normalizeAll]
      exact learns_pure fun _ => .nil
  | u :: us, B, h => by
      simp only [visibleAll, List.forall_mem_append] at h ⊢
      rw [normalizeAll]
      refine (learns_normalizeWith hrefs h.1).bind fun u' B₁ _ hu => ?_
      refine (learns_normalizeAll hrefs h.2).bind fun us' B₂ hB hus => learns_pure fun hlead => ?_
      exact .cons ((hu hlead.1).mono hB) (hus hlead.2)

theorem learns_normalizeFields (hrefs : w.LearnsRefs stack onRef) : ∀ {fs : List (String × Ty)}
    {B : Reference → TyVar → Prop}, (∀ R ∈ w.r.visibleFields fs, w.At stack R) →
    w.Learns B stack (fun B fs' => (∀ R ∈ w.r.visibleFields fs, w.Leads R) →
      UnrollsFields w.r B stack.current fs fs') (normalizeFields onRef fs)
  | [], B, _ => by
      rw [normalizeFields]
      exact learns_pure fun _ => .nil
  | (name, u) :: fs, B, h => by
      simp only [visibleFields, List.forall_mem_append] at h ⊢
      rw [normalizeFields]
      refine (learns_normalizeWith hrefs h.1).bind fun u' B₁ _ hu => ?_
      refine (learns_normalizeFields hrefs h.2).bind fun fs' B₂ hB hfs =>
        learns_pure fun hlead => ?_
      exact .cons name ((hu hlead.1).mono hB) (hfs hlead.2)

end

/-! ## Expanding a reference -/

/-- What the type leads to is made of the numbers of the type and of the definitions. -/
theorem over_args {R : Reference} (h : w.Leads R) : ∀ a ∈ R.2, a.Over (· ≤ (w.base : Int)) := by
  obtain ⟨Rs, hpath⟩ := h
  induction hpath with
  | start ht hR =>
      subst ht
      exact over_of_mem_visible w.bounded _ hR
  | next _ hshows ih =>
      obtain ⟨e, he, hS⟩ := hshows
      exact over_of_mem_visible (over_expand? w.bodies ih he) _ hS

/-- A reference that the type leads to and that is being expanded is the innermost one. -/
theorem current_of_mem {R : Reference} (hat : w.At stack R) (hlead : w.Leads R)
    (hmem : R ∈ stack.refs) : stack.current = some R := by
  unfold At at hat
  unfold Stack.current
  generalize stack.refs = refs at hat hmem
  cases hat with
  | start => cases hmem
  | next hpath hshows =>
      rcases List.mem_cons.1 hmem with rfl | hmem
      · rfl
      · rw [w.insulated.apart hlead (hpath.of_mem hmem).2 (.single hshows)]
        rfl

theorem exists_of_mentionsBinder {expanding : Expanding} {u : Ty}
    (h : mentionsBinder expanding u = true) : ∃ e ∈ expanding, u.Mentions e.2.id := by
  obtain ⟨v, hv, hany⟩ := List.any_eq_true.1 h
  obtain ⟨e, he, hid⟩ := List.any_eq_true.1 hany
  refine ⟨e, he, Ty.has_free.1 (List.any_eq_true.2 ⟨v, hv, ?_⟩)⟩
  rw [beq_iff_eq] at hid ⊢
  exact hid.symm

/-- An expansion begins: the reference gets a new binder. -/
theorem Knows.begin (h : w.Knows B stack s) {R : Reference} {v : TyVar}
    (hv : v.id = (s.supply.count : Int) + 1) (hlevel : v.level = 0) (hnew : R ∉ stack.refs)
    (hmemo : Table.get? R.digest s.registry.memo = none) :
    w.Knows (fun S b => B S b ∨ (w.Leads R ∧ S = R ∧ b = v)) ((R, v) :: stack)
      { s with supply := ⟨s.supply.count + 1⟩ } := by
  have hbase := h.base
  have hunnumbered : ∀ b, ¬ B R b := by
    intro b hb
    rcases (h.known hb).2 with hmem | hsome
    · exact hnew (List.mem_map_of_mem (f := (·.1)) hmem)
    · rw [hmemo] at hsome
      cases hsome
  refine ⟨h.definitions, ⟨?_, ?_, ?_, ?_⟩, Nat.le_succ_of_le hbase, ?_, ?_, ?_, ?_, ?_⟩
  · rintro S b (hb | ⟨-, -, rfl⟩)
    · exact h.numbering.level hb
    · exact hlevel
  · rintro S b (hb | ⟨-, -, rfl⟩)
    · exact h.numbering.late hb
    · omega
  · rintro S b c (hb | ⟨-, rfl, rfl⟩) (hc | ⟨-, hS, rfl⟩)
    · exact h.numbering.functional hb hc
    · exact absurd (hS ▸ hb) (hunnumbered b)
    · exact absurd hc (hunnumbered c)
    · rfl
  · rintro S T b c (hb | ⟨-, rfl, rfl⟩) (hc | ⟨-, rfl, rfl⟩) hid
    · exact h.numbering.injective hb hc hid
    · have := h.given hb
      omega
    · have := h.given hc
      omega
    · rfl
  · rintro S b (hb | ⟨-, -, rfl⟩) <;> dsimp only
    · have := h.given hb
      omega
    · omega
  · intro S b hmem
    dsimp only
    rcases List.mem_cons.1 hmem with heq | hmem
    · rw [(Prod.mk.inj heq).2, hv]
      omega
    · have := h.pending hmem
      omega
  · intro S b hmem hlead
    rcases List.mem_cons.1 hmem with heq | hmem
    · obtain ⟨hS, hb⟩ := Prod.mk.inj heq
      exact .inr ⟨hS ▸ hlead, hS, hb⟩
    · exact .inl (h.binder hmem hlead)
  · rintro S b (hb | ⟨hlead, rfl, rfl⟩)
    · exact ⟨(h.known hb).1, (h.known hb).2.imp_left (List.mem_cons_of_mem _)⟩
    · exact ⟨hlead, .inl List.mem_cons_self⟩
  · exact fun hlead hu => (h.memo hlead hu).mono fun _ _ => .inl

/-- An expansion ends: the form is remembered, unless it mentions the binder of an expansion around
it, which it does not for a reference that the type leads to. -/
theorem Knows.close {R : Reference} {v : TyVar} {e body : Ty} (h : w.Knows B ((R, v) :: stack) s)
    (hat : w.At stack R) (he : w.r.expand? R.1 R.2 = some e)
    (hbody : w.Leads R → Unrolls w.r B (some R) e body) :
    w.Knows B stack ((closeExpansion stack.expanding R.digest v body).run s).2 := by
  rw [run_closeExpansion]
  have hopen : w.Leads R → mentionsBinder stack.expanding (body.tied v) = false := by
    intro hlead
    rw [← Bool.not_eq_true]
    intro hmentions
    obtain ⟨entry, hentry, hid⟩ := exists_of_mentionsBinder hmentions
    obtain ⟨⟨S, b⟩, hmem, rfl⟩ := List.mem_map.1 hentry
    obtain ⟨hne, hid⟩ := mentions_tied hid
    have hover := over_expand? w.bodies (over_args hlead) he
    have hpending := (h.pending (List.mem_cons_of_mem _ hmem)).1
    rcases (hbody hlead).loose h.numbering w.bodies hover _ hid with hle | ⟨_, c, ⟨⟩, hc, hcid⟩
    · dsimp only at hle
      omega
    · have hv := h.binder List.mem_cons_self hlead
      exact hne (hcid.symm.trans (congrArg TyVar.id (h.numbering.functional hc hv)))
  dsimp only
  cases hmentions : mentionsBinder stack.expanding (body.tied v) with
  | true =>
      rw [if_pos rfl]
      have hR : ¬ w.Leads R := fun hlead => by rw [hopen hlead] at hmentions; cases hmentions
      refine ⟨h.definitions, h.numbering, h.base, h.given, fun hmem =>
        h.pending (List.mem_cons_of_mem _ hmem), fun hmem => h.binder (List.mem_cons_of_mem _ hmem),
        fun hb => ⟨(h.known hb).1, (h.known hb).2.imp_left fun hmem => ?_⟩, h.memo⟩
      rcases List.mem_cons.1 hmem with heq | hmem
      · exact absurd ((Prod.mk.inj heq).1 ▸ (h.known hb).1) hR
      · exact hmem
  | false =>
      rw [if_neg Bool.false_ne_true]
      refine ⟨h.definitions, h.numbering, h.base, h.given, fun hmem =>
        h.pending (List.mem_cons_of_mem _ hmem), fun hmem => h.binder (List.mem_cons_of_mem _ hmem),
        fun {S b} hb => ⟨(h.known hb).1, ?_⟩, fun {S u} hlead hu => ?_⟩
      · dsimp only
        by_cases hdigest : S.digest = R.digest
        · rw [hdigest, Table.get?_insert_self]
          exact .inr rfl
        · rw [Table.get?_insert_of_ne hdigest]
          refine (h.known hb).2.imp_left fun hmem => ?_
          rcases List.mem_cons.1 hmem with heq | hmem
          · exact absurd (congrArg Reference.digest (Prod.mk.inj heq).1) hdigest
          · exact hmem
      · dsimp only at hu
        by_cases hdigest : S.digest = R.digest
        · obtain rfl := w.insulated.digests hlead hat hdigest
          rw [Table.get?_insert_self] at hu
          cases hu
          exact ⟨v, e, body, he, h.binder List.mem_cons_self hlead, hbody hlead, rfl⟩
        · rw [Table.get?_insert_of_ne hdigest] at hu
          exact h.memo hlead hu

/-- A reference is expanded while others are. -/
theorem Knows.expand (h : w.Knows B stack s) {R : Reference} {e : Ty} (hat : w.At stack R)
    (he : w.r.expand? R.1 R.2 = some e) (hnew : R ∉ stack.refs)
    (hmemo : Table.get? R.digest s.registry.memo = none)
    {onRef : TyVar → String → List Ty → StateM Session (Option Ty)}
    (hrefs : ∀ v, w.LearnsRefs ((R, v) :: stack) (onRef v)) :
    let out := (expandWith onRef stack.expanding R.digest e).run s
    ∃ B', (∀ S b, B S b → B' S b) ∧ w.Knows B' stack out.2 ∧ w.Becomes B' stack R out.1 := by
  let v : TyVar := ⟨(s.supply.count : Int) + 1, 0⟩
  have hshows : ∀ S ∈ w.r.visible e, w.At ((R, v) :: stack) S := fun S hS => .next hat ⟨e, he, hS⟩
  obtain ⟨B', hB, hs', hbody⟩ := learns_normalizeWith (hrefs v) hshows _
    (h.begin (v := v) rfl rfl hnew hmemo)
  have hunrolls : w.Leads R → Unrolls w.r B' (some R) e _ := fun hlead =>
    hbody fun S hS => hlead.next ⟨e, he, hS⟩
  refine ⟨B', fun S b hb => hB S b (.inl hb), ?_, ⟨?_, ?_⟩⟩
  · exact hs'.close hat he hunrolls
  · rintro ⟨⟩
  · rintro u hu hlead
    have hcur : stack.current ≠ some R := fun hcur => hnew (List.mem_of_mem_head? hcur)
    obtain rfl := Option.some.inj hu
    show Unrolls _ _ _ _ ((closeExpansion _ _ v _).run _).1
    rw [run_closeExpansion]
    exact .unrolled hcur he (hB _ _ (.inr ⟨hlead, rfl, rfl⟩)) (hunrolls hlead)

/-- References are dealt with while others are being expanded. -/
theorem learns_normalizeRefStep
    {below : Option (Expanding → String → List Ty → StateM Session (Option Ty))}
    (hnodup : stack.refs.Nodup)
    (hbelow : ∀ b, below = some b → ∀ R v, (R :: stack.refs).Nodup →
      w.LearnsRefs ((R, v) :: stack) (b ((R.digest, v) :: stack.expanding)))
    (hdeep : below = none → expansionLimit ≤ stack.refs.length) :
    w.LearnsRefs stack (normalizeRefStep below stack.expanding) := by
  intro B R hat s hs
  generalize hout : (normalizeRefStep below stack.expanding R.1 R.2).run s = out
  have hself : ∀ {o}, w.Becomes B stack R o → ∃ B', (∀ S b, B S b → B' S b) ∧
      w.Knows B' stack s ∧ w.Becomes B' stack R o := fun ho => ⟨B, fun _ _ => id, hs, ho⟩
  have hcur : R ∉ stack.refs → stack.current ≠ some R := fun hnew hcur =>
    hnew (List.mem_of_mem_head? hcur)
  have hdealt : w.r.Dealt below stack R s out := hout ▸ dealt_normalizeRefStep hs.definitions
  cases hdealt with
  | @again S b hmem hdigest =>
      refine hself ⟨by rintro ⟨⟩, ?_⟩
      rintro u ⟨⟩ hlead
      have href : S ∈ stack.refs := List.mem_map_of_mem (f := (·.1)) hmem
      obtain ⟨Ss, hS⟩ := (Path.of_mem hat href).1
      obtain rfl := w.insulated.digests hlead hS hdigest.symm
      rw [current_of_mem hat hlead href]
      exact .again (hs.binder hmem hlead)
  | remembered hnew hmemo =>
      refine hself ⟨by rintro ⟨⟩, ?_⟩
      rintro _ ⟨⟩ hlead
      obtain ⟨b, e, body, he, hb, hbody, rfl⟩ := hs.memo hlead hmemo
      exact .unrolled (hcur hnew) he hb hbody
  | unknown hnew hd => exact hself ⟨fun _ => ⟨hcur hnew, hd⟩, by rintro _ ⟨⟩⟩
  | deep hnew hbelow =>
      refine hself ⟨by rintro ⟨⟩, ?_⟩
      rintro _ ⟨⟩ hlead
      have := w.insulated.shallow hlead hat (List.nodup_cons.2 ⟨hnew, hnodup⟩)
      exact absurd (hdeep hbelow) (Nat.not_le.2 this)
  | misfit hnew hd hargs =>
      refine hself ⟨by rintro ⟨⟩, ?_⟩
      rintro _ ⟨⟩ -
      exact .misfit (hcur hnew) hd hargs
  | expanded hnew hmemo hb he =>
      exact hs.expand hat he hnew hmemo
        fun v => hbelow _ hb R v (List.nodup_cons.2 ⟨hnew, hnodup⟩)

theorem learns_normalizeRef : ∀ (allowed : Nat) (stack : Stack), stack.refs.Nodup →
    stack.refs.length + allowed = expansionLimit →
    w.LearnsRefs stack (normalizeRef allowed stack.expanding)
  | 0, stack, hnodup, hlength => by
      rw [normalizeRef]
      exact learns_normalizeRefStep hnodup (by rintro b ⟨⟩) fun _ => Nat.le_of_eq hlength.symm
  | allowed + 1, stack, hnodup, hlength => by
      rw [normalizeRef]
      refine learns_normalizeRefStep hnodup ?_ (by rintro ⟨⟩)
      rintro b ⟨⟩ R v hR
      exact learns_normalizeRef allowed ((R, v) :: stack) hR
        (by simp only [Stack.refs, List.map_cons, List.length_cons] at hlength ⊢; omega)

/-- Normalising one of the types keeps what is known, and the type that the others make no
difference to unrolls. -/
theorem learns_normalize {u : Ty} (hu : w.roots u) :
    w.Learns B [] (fun B u' => (∀ R ∈ w.r.visible u, w.Leads R) → Unrolls w.r B none u u')
      (normalize u) :=
  learns_normalizeWith (learns_normalizeRef expansionLimit [] List.nodup_nil (Nat.zero_add _))
    fun _ hR => .start hu hR

end Setting

end Registry

end RowTypes
