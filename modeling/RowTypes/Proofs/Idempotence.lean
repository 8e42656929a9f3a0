import RowTypes.Proofs.BranchResults
import RowTypes.Proofs.KindedTypes
import RowTypes.Proofs.RecursiveUnification
import RowTypes.Proofs.Remembering
import RowTypes.Proofs.SolvedJoins

/-!
# Solving finds solved forms

Whatever a set of constraints demands, the substitution that solving it finds is idempotent: nothing
that it binds is left in what it binds anything to.  That holds where all constraints are met, and
also where one of them ends the solving.  And it mentions nothing but what is free in the set and
unknowns that were made on the way.

A constraint is met under everything that was found before it, each part on its own and then their
composition.  What is left in it then is free, and unknowns that are made from there on are new, so
the run that meets it starts anew as far as solved forms go.
-/

namespace RowTypes

open Session

namespace Grammar

variable {G : Grammar} {P Q : Int → Prop} {n : Nat} {c : Constraint} {s : Subst} {σ : Session}

/-! ## Constraints -/

/-- The types of a constraint are of the grammar, and their free unknowns satisfy a predicate. -/
def Poses (G : Grammar) (Q : Int → Prop) (c : Constraint) : Prop := ∀ t ∈ c.types, G.Within Q t

theorem Poses.mono (hc : G.Poses P c) (hPQ : ∀ id, P id → Q id) : G.Poses Q c :=
  fun t ht => (hc t ht).mono hPQ

/-- What is bound is gone from a constraint once the substitution is applied. -/
theorem Poses.apply (hc : G.Poses Q c) (hs : G.Solved Q s) : G.Poses (Left Q s) (c.apply s) := by
  unfold Poses
  rw [Constraint.types_apply]
  exact List.forall_mem_map.2 fun t ht => (hc t ht).apply hs

theorem poses_foldl_apply {found : List Subst} (hfound : ∀ next ∈ found, G.Solved Q next)
    (hc : G.Poses Q c) : G.Poses Q (found.foldl (fun c next => c.apply next) c) :=
  Constraint.forall_types_foldl_apply
    (fun next hnext _ ht => (ht.apply (hfound next hnext)).mono fun _ h => h.1) hc

/-! ## Meeting constraints -/

theorem Expands.goesOn {τ : Session} (hr : G.Expands σ.registry) (h : σ.GoesOn τ) :
    G.Expands τ.registry := by
  intro name args t ht
  refine hr (Eq.trans ?_ ht)
  rw [Registry.expand?, Registry.expand?, Registry.lookup?, Registry.lookup?, h.1]

/-- What a run in a session has found where it ends. -/
abbrev Finds (G : Grammar) (P : Int → Prop) (n : Nat) (σ : Session) (m : SessionM Subst) : Prop :=
  Ends m σ (fun s τ => σ.GoesOn τ ∧ G.Solved (Known P n τ.supply.count) s)
    fun _ τ => σ.GoesOn τ

/-- Relating types in a session finds what relating them does. -/
theorem finds_relating (hr : G.Expands σ.registry) {span : Span} {m : Context → Relate Subst}
    (hn : n ≤ σ.supply.count)
    (h : ∀ ctx, G.Expands ctx.registry → TracedOk P n G.Solved (m ctx) { supply := σ.supply }) :
    G.Finds P n σ (relating span m) :=
  ends_relating (((h { registry := σ.registry, span } hr).ends hn trivial).imp
    (fun _ _ ⟨hcount, _, hs⟩ => ⟨⟨rfl, hcount⟩, hs⟩) fun _ _ ⟨hcount, _⟩ => ⟨rfl, hcount⟩)

theorem ends_checkClass {ok : Unit → Session → Prop} {err : Diagnostic → Session → Prop}
    (limit : Nat) (span : Span) (t : Ty) (cls : String) (hok : ok () σ) (herr : ∀ e, err e σ) :
    Ends (checkClass limit span t cls) σ ok err := by
  unfold checkClass
  split
  · exact ends_pure hok
  · split
    · exact ends_throw (herr _)
    · refine ends_get ?_
      split
      · exact ends_throw (herr _)
      · exact ends_pure hok

theorem ends_checkExhaustive (span : Span) (t : Ty) (patterns : List Pattern) :
    Ends (checkExhaustive span t patterns) σ (fun _ τ => σ.GoesOn τ) fun _ τ => σ.GoesOn τ := by
  have hgoes := Registry.quiet_normalize t σ
  unfold checkExhaustive
  refine Ends.bind (ends_lift ?_)
  split
  · split
    · exact ends_pure hgoes
    · exact ends_pure hgoes
    · exact ends_throw hgoes
  · exact ends_pure hgoes

/-- Meeting a constraint finds a solved form. -/
theorem finds_discharge (limit : Nat) (st : G.Started P n) (hn : n ≤ σ.supply.count)
    (hr : G.Expands σ.registry) (hc : G.Poses (Known P n σ.supply.count) c) :
    G.Finds P n σ (discharge limit c) := by
  obtain ⟨d, origin, span⟩ := c
  have hempty : ∀ {τ : Session}, σ.GoesOn τ →
      σ.GoesOn τ ∧ G.Solved (Known P n τ.supply.count) .empty := fun h => ⟨h, solved_empty⟩
  have hc : ∀ t ∈ d.types, G.Within (Known P n σ.supply.count) t := hc
  unfold discharge
  split
  · exact ends_pure (hempty (.refl σ))
  · cases d with
    | equal a b =>
        exact finds_relating hr hn fun ctx hctx => solvedRel_unify hctx limit st hn
          (hc a (by simp [Demand.types])) (hc b (by simp [Demand.types]))
    | subtype a b =>
        exact finds_relating hr hn fun ctx hctx => solvedRel_subtype hctx limit st hn
          (hc a (by simp [Demand.types])) (hc b (by simp [Demand.types]))
    | ofClass t cls =>
        exact Ends.bind (ends_checkClass limit span t cls (ends_pure (hempty (.refl σ)))
          fun _ => .refl σ)
    | recordShape t =>
        exact finds_relating hr hn fun ctx hctx => solved_recordShape hctx st hn
          (hc t (by simp [Demand.types]))
    | merge result spreads explicit =>
        have hexplicit := (hc explicit.toTy (by simp [Demand.types])).field
        exact finds_relating hr hn fun ctx hctx => solved_merge hctx (solvedRel_unify hctx limit)
          st hn (hc result (by simp [Demand.types]))
          (fun t ht => hc t (by simp [Demand.types, ht])) hexplicit
    | holds t ts =>
        exact finds_relating hr hn fun ctx hctx => solved_holds hctx limit st hn
          (hc t (by simp [Demand.types])) fun u hu => hc u (by simp [Demand.types, hu])
    | branch t ts =>
        exact finds_relating hr hn fun ctx hctx => solved_branch hctx limit st hn
          (hc t (by simp [Demand.types])) fun u hu => hc u (by simp [Demand.types, hu])
    | exhaustive t ps =>
        exact Ends.bind ((ends_checkExhaustive span t ps).imp
          (fun _ _ h => ends_pure (hempty h)) fun _ _ h => h)

/-- Constraints that are still to be met, and what was found by then. -/
structure Underway (G : Grammar) (P : Int → Prop) (n : Nat) (σ : Session) (cs : List Constraint)
    (found : List Subst) (s : Subst) : Prop where
  count : n ≤ σ.supply.count
  expands : G.Expands σ.registry
  poses : ∀ c ∈ cs, G.Poses (Known P n σ.supply.count) c
  found : ∀ next ∈ found, G.Solved (Known P n σ.supply.count) next
  solved : G.Solved (Known P n σ.supply.count) s

/-- What is found for the next constraint, and where the others go on from there, with or without
it. -/
structure Goes (G : Grammar) (P : Int → Prop) (n : Nat) (σ τ : Session) (cs : List Constraint)
    (found : List Subst) (s next : Subst) : Prop where
  on : σ.GoesOn τ
  kept : G.Underway P n τ cs found s
  grown : G.Underway P n τ cs (found ++ [next]) (next.after s)
  solved : G.Solved (Known P n τ.supply.count) next
  apart : next.Apart s

section Underway

variable {cs : List Constraint} {found : List Subst}

/-- The constraint as it is met. -/
theorem Underway.poses_met (h : G.Underway P n σ (c :: cs) found s) :
    G.Poses (Remaining P n { supply := σ.supply } s)
      ((found.foldl (fun c next => c.apply next) c).apply s) :=
  (poses_foldl_apply h.found (h.poses c List.mem_cons_self)).apply h.solved

theorem Underway.goes (limit : Nat) (st : G.Started P n) (h : G.Underway P n σ (c :: cs) found s) :
    Ends (discharge limit ((found.foldl (fun c next => c.apply next) c).apply s)) σ
      (fun next τ => G.Goes P n σ τ cs found s next) fun _ τ => σ.GoesOn τ := by
  let p : Progress := { supply := σ.supply }
  refine (finds_discharge limit (Started.resume (p := p) (s := s) st h.count) (Nat.le_refl _)
    h.expands (h.poses_met.mono fun _ => .inl)).imp (fun next τ ⟨hgoes, hnext⟩ => ?_) fun _ _ h => h
  have hn := Nat.le_trans h.count hgoes.2
  have hr : G.Expands τ.registry := Expands.goesOn h.expands hgoes
  have hcs : ∀ c ∈ cs, G.Poses (Known P n τ.supply.count) c := fun c hc =>
    (h.poses c (List.mem_cons_of_mem _ hc)).mono (Known.mono hgoes.2)
  have hfound : ∀ u ∈ found, G.Solved (Known P n τ.supply.count) u := fun u hu =>
    (h.found u hu).mono (Known.mono hgoes.2)
  have hnext' := hnext.mono (known_of_remaining h.count hgoes.2)
  refine ⟨hgoes, ⟨hn, hr, hcs, hfound, h.solved.mono (Known.mono hgoes.2)⟩,
    ⟨hn, hr, hcs, fun u hu => ?_, ?_⟩, hnext', h.solved.apart st.older h.count hnext⟩
  · refine (List.mem_append.1 hu).elim (hfound u) fun hu => ?_
    rw [List.mem_singleton.1 hu]
    exact hnext'
  · exact Solved.resume (p := p) (q := { supply := τ.supply }) st h.count h.solved hgoes.2 hnext

end Underway

/-- Each constraint that is met keeps what was found a solved form. -/
theorem solved_solveInOrder (limit : Nat) (st : G.Started P n) : ∀ {cs : List Constraint}
    {found : List Subst} {s : Subst} {σ : Session}, G.Underway P n σ cs found s →
    σ.GoesOn ((solveInOrder limit cs found s).run σ).2 ∧
      G.Solved (Known P n ((solveInOrder limit cs found s).run σ).2.supply.count)
        ((solveInOrder limit cs found s).run σ).1.subst
  | [], _, _, σ, h => ⟨.refl σ, h.solved⟩
  | c :: cs, found, s, σ, h => by
      have hrun := h.goes limit st
      rw [run_solveInOrder]
      unfold Ends at hrun
      generalize (discharge limit ((found.foldl (fun c next => c.apply next) c).apply s)).run σ =
        out at hrun ⊢
      obtain ⟨result, τ⟩ := out
      cases result with
      | error e => exact ⟨hrun, h.solved.mono (Known.mono hrun.2)⟩
      | ok next =>
          have hgoes : G.Goes P n σ τ cs found s next := hrun
          dsimp only
          split
          · obtain ⟨h₁, h₂⟩ := solved_solveInOrder limit st hgoes.kept
            exact ⟨hgoes.on.trans h₁, h₂⟩
          · obtain ⟨h₁, h₂⟩ := solved_solveInOrder limit st hgoes.grown
            exact ⟨hgoes.on.trans h₁, h₂⟩

end Grammar

/-! ## Sets -/

/-- Nothing that a substitution binds is left in what it binds anything to. -/
def Subst.Idempotent (s : Subst) : Prop :=
  ∀ id u, s.get? id = some u → ∀ j, u.Mentions j → s.get? j = none

namespace ConstraintSet

/-- No unknown stands for a row in one place and for a type in another, all of them have been given
out, and definitions are of closed records without other free unknowns than their parameters.  The
binders of recursive types, those in definitions included, are unknowns for types. -/
structure Kinded (isRow : Int → Prop) (σ : Session) (cs : ConstraintSet) : Prop where
  kinded : ∀ c ∈ cs.items, ∀ t ∈ c.types, t.Kinded (fun id => ¬ isRow id) isRow
  given : ∀ c ∈ cs.items, ∀ t ∈ c.types, t.Over fun id => id ≤ σ.supply.count
  closed : σ.registry.Closed
  binders : ∀ entry ∈ σ.registry.definitions, ∀ id ∈ entry.2.body.binders,
    id ≤ σ.supply.count ∧ ¬ isRow id

variable {isRow : Int → Prop} {σ : Session} {cs : ConstraintSet}

/-- The types of a set are of the grammar in which all unknowns that are still to be made are
rows. -/
theorem Kinded.poses (h : cs.Kinded isRow σ) : ∀ c ∈ cs.items,
    (kindedTypes (sortsFrom isRow σ.supply.count).isRow).Poses cs.Mentions c := by
  refine fun c hc t ht => ⟨((h.kinded c hc t ht).and_over (h.given c hc t ht)).mono
    (fun id hid => ?_) fun id hid => .inl hid.1, fun id hid => ⟨c, hc, t, ht, hid⟩⟩
  rintro (hrow | hlt)
  · exact hid.1 hrow
  · have := hid.2
    omega

theorem Kinded.started (h : cs.Kinded isRow σ) :
    (kindedTypes (sortsFrom isRow σ.supply.count).isRow).Started cs.Mentions σ.supply.count where
  older := by
    rintro id ⟨c, hc, t, ht, hid⟩
    exact (h.given c hc t ht).of_mentions hid
  rows _ hid := .inr hid

theorem Kinded.expands (h : cs.Kinded isRow σ) :
    (kindedTypes (sortsFrom isRow σ.supply.count).isRow).Expands σ.registry := by
  refine h.closed.expands fun entry hentry id hid => ?_
  obtain ⟨hle, hrow⟩ := h.binders entry hentry id hid
  rintro (hid | hlt)
  · exact hrow hid
  · omega

end ConstraintSet

namespace Session

variable {isRow : Int → Prop} {σ : Session} {cs : ConstraintSet}

/-- What solving finds is idempotent, whether or not all constraints can be met, and mentions only
what is free in the set and unknowns that were made on the way. -/
theorem idempotent_solve (limit : Nat) (h : cs.Kinded isRow σ) :
    ((solve limit cs).run σ).1.subst.Idempotent ∧
      ∀ id, ((solve limit cs).run σ).1.subst.Mentions id →
        cs.Mentions id ∨ (σ.supply.count < id ∧ id ≤ ((solve limit cs).run σ).2.supply.count) := by
  have hcs : ∀ c ∈ cs.simplify.sorted,
      (kindedTypes (ConstraintSet.sortsFrom isRow σ.supply.count).isRow).Poses
        (Known cs.Mentions σ.supply.count σ.supply.count) c := fun c hc =>
    (h.poses c (ConstraintSet.mem_sorted_simplify.1 hc).1).mono fun _ => .inl
  obtain ⟨-, hsolved⟩ := Grammar.solved_solveInOrder limit h.started
    ⟨Nat.le_refl _, h.expands, hcs, List.forall_mem_nil _, Grammar.solved_empty⟩
  exact ⟨fun _ _ => hsolved.fixed, hsolved.inside⟩

/-- A definition with a recursive type in it, of a parameter. -/
def nest : Definition :=
  ⟨"Nest", [⟨9, 0⟩], .record [("d", .mu ⟨5, 0⟩ (.record [("x", .var ⟨9, 0⟩)] none))] none, {}⟩

/-- A session with that definition, in which so many unknowns have been given out. -/
def withNest (count : Nat) : Session :=
  { supply := ⟨count⟩, registry := { definitions := [("Nest", nest)] } }

/-- A set of one equation. -/
def equation (a b : Ty) : ConstraintSet := .ofList [.equal a b .inference {}]

/-- A record gets a new row, is put into the definition, gets a field, and is taken out again. -/
def nested : ConstraintSet := equation
  (.tuple [.record [("x", .int)] (some ⟨1, 0⟩), .named "Nest" [.record [] (some ⟨1, 0⟩)],
    .record [] (some ⟨1, 0⟩), .var ⟨3, 0⟩])
  (.tuple [.record [("z", .int)] (some ⟨2, 0⟩), .record [("d", .var ⟨3, 0⟩)] none,
    .record [("y", .int), ("z", .int)] none, .record [("x", .var ⟨4, 0⟩)] none])

theorem types_equation {a b : Ty} {p : Ty → Prop} :
    (∀ c ∈ (equation a b).items, ∀ t ∈ c.types, p t) ↔ p a ∧ p b := by
  have hitems : (equation a b).items = [.equal a b .inference {}] := rfl
  rw [hitems]
  simp [Constraint.equal, Constraint.types, Demand.types]

theorem kinded_nested : ∀ c ∈ nested.items, ∀ t ∈ c.types,
    t.Kinded (fun id => ¬ (id = 1 ∨ id = 2)) fun id => id = 1 ∨ id = 2 := by
  refine types_equation.2 ⟨?_, ?_⟩ <;>
  simp [Ty.Kinded, Ty.KindedAll, Ty.KindedFields, Ty.int]

theorem given_nested : ∀ c ∈ nested.items, ∀ t ∈ c.types, t.Over (· ≤ 4) := by
  refine types_equation.2 ⟨?_, ?_⟩ <;> simp [Ty.int]

theorem closed_withNest (count : Nat) : (withNest count).registry.Closed := by
  refine List.forall_mem_singleton.2 (.record (List.forall_mem_singleton.2 (.mu ?_)) nofun)
  exact .record (List.forall_mem_singleton.2 (.var (.inr ⟨⟨9, 0⟩, List.mem_cons_self, rfl⟩))) nofun

/-- Where the binder in the definition is given out first, no row gets its number. -/
theorem idempotent_nested :
    nested.Kinded (fun id => id = 1 ∨ id = 2) (withNest 5) ∧
      ((solve defaultLimit nested).run (withNest 5)).1.subst.Idempotent ∧
      ∀ id, ((solve defaultLimit nested).run (withNest 5)).1.subst.Mentions id →
        nested.Mentions id ∨ ((withNest 5).supply.count < id ∧
          id ≤ ((solve defaultLimit nested).run (withNest 5)).2.supply.count) := by
  have hkinded : nested.Kinded (fun id => id = 1 ∨ id = 2) (withNest 5) :=
    ⟨kinded_nested,
      fun c hc t ht => (given_nested c hc t ht).mono fun id (hid : id ≤ 4) => by
        show id ≤ ((5 : Nat) : Int)
        omega,
      closed_withNest 5, by simp [withNest, nest, Ty.binders, Ty.bindersFields]⟩
  exact ⟨hkinded, idempotent_solve defaultLimit hkinded⟩

/-- A definition whose parameter is the row of its record. -/
def opening : Definition := ⟨"Open", [⟨7, 0⟩], .record [("x", .int)] (some ⟨7, 0⟩), {}⟩

def withOpening : Session := { registry := { definitions := [("Open", opening)] } }

/-- A type is to be a record of two fields. -/
def widened (t : Ty) : ConstraintSet := equation t (.record [("x", .int), ("y", .int)] none)

/-- A row that is made may get the number of a binder in a definition, and be put below it; and a
parameter or a binder that stands for a row is left over. -/
theorem solve_beyond_solved_forms :
    ((∀ c ∈ nested.items, ∀ t ∈ c.types,
        t.Kinded (fun id => ¬ (id = 1 ∨ id = 2)) fun id => id = 1 ∨ id = 2) ∧
      (∀ c ∈ nested.items, ∀ t ∈ c.types, t.Over (· ≤ 4)) ∧ ¬ nested.Mentions 5 ∧
      (withNest 4).registry.Closed ∧
      ¬ ((solve defaultLimit nested).run (withNest 4)).1.subst.Idempotent) ∧
    ((∀ id, opening.body.Mentions id → ∃ v ∈ opening.params, v.id = id) ∧
      (∀ id, ¬ (widened (.named "Open" [.int])).Mentions id) ∧
      ((solve defaultLimit (widened (.named "Open" [.int]))).run withOpening).1.subst.Mentions 7 ∧
      ((solve defaultLimit (widened (.named "Open" [.int]))).run withOpening).2.supply.count = 0) ∧
    (∀ id, ¬ (widened knot).Mentions id) ∧
      ((solve defaultLimit (widened knot)).run { supply := ⟨1⟩ }).1.subst.Mentions 1 ∧
      ((solve defaultLimit (widened knot)).run { supply := ⟨1⟩ }).2.supply.count = 1 := by
  have hmentions : ∀ {cs : ConstraintSet},
      (∀ c ∈ cs.items, ∀ t ∈ c.types, ∀ id, ¬ t.Mentions id) → ∀ id, ¬ cs.Mentions id :=
    fun h id ⟨c, hc, t, ht, hid⟩ => h c hc t ht id hid
  refine ⟨⟨kinded_nested, given_nested, ?_, closed_withNest 4, fun h => ?_⟩,
    ⟨?_, hmentions ?_, .inl ?_, by decide +kernel⟩, hmentions ?_, .inl ?_, by decide +kernel⟩
  · rintro ⟨c, hc, t, ht, hid⟩
    exact absurd ((given_nested c hc t ht).of_mentions hid) (by decide)
  · -- The last unknown is bound to a record whose row is bound, too.
    have hlast : (((solve defaultLimit nested).run (withNest 4)).1.subst.get? 4).any
        (fun u => u.occurs ⟨5, 0⟩) = true := by decide +kernel
    have hrow : (((solve defaultLimit nested).run (withNest 4)).1.subst.get? 5).isSome = true := by
      decide +kernel
    obtain ⟨u, hu, hid⟩ := (Option.any_eq_true _ _).1 hlast
    rw [h 4 u hu 5 hid] at hrow
    cases hrow
  · simp [opening, Ty.int]
  · exact types_equation.2 ⟨by simp [Ty.int], by simp [Ty.int]⟩
  · exact Option.isSome_iff_exists.1 (by decide +kernel)
  · exact types_equation.2 ⟨by simp [knot, Ty.int, Ty.mentions_mu], by simp [Ty.int]⟩
  · exact Option.isSome_iff_exists.1 (by decide +kernel)

end Session

end RowTypes
