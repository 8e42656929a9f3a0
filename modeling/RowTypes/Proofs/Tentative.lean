import RowTypes.Coverage.Analysis
import RowTypes.Proofs.NormalForms
import RowTypes.Proofs.Schemes
import RowTypes.Proofs.Solutions

/-!
# Tentative solving

Inference solves constraints before all of them are known in two places: to close the type of a
definition, and to see what is matched on.  What is found is dropped, and the constraints are
solved again with the rest of the program.

What stays is the scheme of the definition, and the types of the names that patterns bind.  Their
free unknowns come from the environment and from what was solved, with one exception: a row that
solving makes for two open records is free in the environment once a record of the environment
ends in it, so it is not quantified, and what a match tells quantifies nothing at all.  Solving
the constraints again makes such a row anew, under another number, and what is asked of the old one
is asked of nothing.
-/

namespace RowTypes

/-- A number that is free in an environment after a substitution was free before, or is put in the
place of an unknown that was. -/
theorem Env.mentions_or_of_apply {e : Env} {s : Subst} {id : Int} (h : (e.apply s).Mentions id) :
    e.Mentions id ∨ ∃ j u, e.Mentions j ∧ s.get? j = some u ∧ u.Mentions id := by
  obtain ⟨entry, hentry, hid, hbinds⟩ := mentions_apply.1 h
  rcases Subst.yields_of_mentions_apply _ _ hid with hid | ⟨j, u, hj, hu, hid⟩
  · exact .inl ⟨entry, hentry, hid, hbinds⟩
  · rw [Subst.get?_without] at hu
    split at hu
    · cases hu
    · next hnot => exact .inr ⟨j, u, ⟨entry, hentry, hj, hnot⟩, hu, hid⟩

/-- A number occurs in a type or in the constraints under which something has it. -/
def Typed.Uses (typed : Typed) (id : Int) : Prop :=
  typed.ty.Uses id ∨ ∃ c ∈ typed.constraints.items, ∃ t ∈ c.types, t.Uses id

namespace Session

/-- Solving constraints gives out a number. -/
def Makes (limit : Nat) (cs : ConstraintSet) (σ : Session) (id : Int) : Prop :=
  σ.supply.count < id ∧ id ≤ ((solve limit cs).run σ).2.supply.count

/-- Solving constraints finds a type with the second number for the unknown of the first one. -/
def Puts (limit : Nat) (cs : ConstraintSet) (σ : Session) (j id : Int) : Prop :=
  ∃ u, ((solve limit cs).run σ).1.subst.get? j = some u ∧ u.Uses id

end Session

namespace Generate

/-- A number occurs in what is solved: in a type, in its constraints, or in a named type. -/
def Given (typed : Typed) (σ : Session) (id : Int) : Prop := typed.Uses id ∨ σ.registry.Uses id

/-- A number occurs in what is solved, or solving makes it and leaves it in the type or in the
normal form of a named type. -/
def Shown (limit : Nat) (typed : Typed) (σ : Session) (id : Int) : Prop :=
  Given typed σ id ∨ Session.Makes limit typed.constraints σ id ∧
    ((∃ j, typed.ty.Uses j ∧ Session.Puts limit typed.constraints σ j id) ∨
      ((Session.solve limit typed.constraints).run σ).2.registry.Uses id)

/-- What solving finds, and what it remembers, is made of what it is given and of what it makes. -/
theorem over_solve (limit : Nat) (typed : Typed) (σ : Session) :
    ((Session.solve limit typed.constraints).run σ).1.subst.Over (fun id =>
      Given typed σ id ∨ Session.Makes limit typed.constraints σ id) ∧
    ((Session.solve limit typed.constraints).run σ).2.registry.Over (fun id =>
      Given typed σ id ∨ Session.Makes limit typed.constraints σ id) := by
  have hgiven : ∀ c ∈ typed.constraints.items, c.Over
      (Known (Given typed σ) σ.supply.count σ.supply.count) :=
    fun c hc t ht id hid => .inl (.inl (.inr ⟨c, hc, t, ht, hid⟩))
  have htraced := Session.traced_solve limit hgiven
  obtain ⟨-, hregistry, hsubst⟩ := htraced (Nat.le_refl _)
    ((Registry.over_uses σ.registry).mono fun id hid => .inl (.inr hid))
  exact ⟨hsubst, hregistry⟩

theorem mentions_settle (limit : Nat) (e : Env) (typed : Typed) (g : Generating) :
    Ends (settle limit e typed) g (fun scheme _ => ∀ id, scheme.Mentions id →
      e.Mentions id ∨ Given typed g.session id ∨
        Session.Makes limit typed.constraints g.session id ∧
          ∃ j, e.Mentions j ∧ Session.Puts limit typed.constraints g.session j id)
      fun _ _ => False := by
  obtain ⟨hsubst, -⟩ := over_solve limit typed g.session
  unfold settle
  refine Ends.bind (ends_ofSession ?_)
  generalize hrun : (Session.solve limit typed.constraints).run g.session = out at hsubst ⊢
  split
  · refine ends_pure fun id hid => .inr (.inl (.inl (.inl ?_)))
    exact Ty.uses_of_mentions (Scheme.mentions_mono.1 hid)
  · refine ends_pure fun id hid => ?_
    -- What is not quantified is free in the type and in the environment, as solving leaves them.
    obtain ⟨hty, henv⟩ := Env.mentions_generalize.1 hid
    have hknown : Given typed g.session id ∨ Session.Makes limit typed.constraints g.session id :=
      (hsubst.apply fun j hj => .inl (.inl (.inl hj))).of_mentions hty
    rcases Env.mentions_or_of_apply henv with henv | ⟨j, u, hj, hu, hid⟩
    · exact .inl henv
    · refine .inr (hknown.imp_right fun hmade => ⟨hmade, j, hj, u, ?_, Ty.uses_of_mentions hid⟩)
      rw [hrun]
      exact hu

theorem rooted_knownShape (limit : Nat) (typed : Typed) (g : Generating) :
    Ends (knownShape limit typed.ty typed.constraints) g (fun known _ =>
      known.Rooted (Shown limit typed g.session) (Shown limit typed g.session))
      fun _ _ => False := by
  obtain ⟨hsubst, hregistry⟩ := over_solve limit typed g.session
  have hty : typed.ty.Over (Shown limit typed g.session) := fun id hid => .inl (.inl (.inl hid))
  refine ends_ofSession ?_
  rw [StateM.run_bind]
  split
  · exact hty.rooted fun _ hid => hid
  · refine Registry.rooted_normalize (Subst.over_apply hty fun j u hj hu id hid => ?_) ⟨?_, ?_⟩
    · exact (hsubst.get? hu id hid).imp_right fun hmade => ⟨hmade, .inl ⟨j, hj, u, hu, hid⟩⟩
    · exact fun entry hentry id hid => (hregistry.definitions entry hentry id hid).imp_right
        fun hmade => ⟨hmade, .inr (.inl ⟨entry, hentry, hid⟩)⟩
    · exact fun entry hentry id hid => (hregistry.memo entry hentry id hid).imp_right
        fun hmade => ⟨hmade, .inr (.inr ⟨entry, hentry, hid⟩)⟩

theorem ends_analyse {span : Span} {known : Ty} {patterns : List Pattern} {g : Generating}
    {ok : Analysis → Generating → Prop} {err : Diagnostic → Generating → Prop}
    (h : ∀ g', ok (Analysis.ofMatch known patterns) g') :
    Ends (analyse span known patterns) g ok err := by
  unfold analyse
  dsimp only
  split
  · exact h _
  · exact h _

/-- Where the free unknowns of what a name is bound to come from.  The scheme of a definition has
them from the environment and from what was solved, and otherwise only numbers that solving made
and put in the place of unknowns of the environment.  The types that a match gives to names have
them from what was solved, and otherwise only numbers that solving made and left in the type that
is matched on, or in a normal form. -/
theorem mentions_tentative (limit : Nat) (e : Env) (typed : Typed) (g : Generating) :
    Ends (settle limit e typed) g (fun scheme _ => ∀ id, scheme.Mentions id →
      e.Mentions id ∨ Given typed g.session id ∨
        Session.Makes limit typed.constraints g.session id ∧
          ∃ j, e.Mentions j ∧ Session.Puts limit typed.constraints g.session j id)
      (fun _ _ => False) ∧
    ∀ span patterns, Ends (knownShape limit typed.ty typed.constraints >>= fun known =>
      analyse span known patterns) g (fun analysis _ =>
        ∀ refined ∈ analysis.refinements, ∀ entry ∈ refined, ∀ id, entry.2.Mentions id →
          Shown limit typed g.session id) fun _ _ => False := by
  refine ⟨mentions_settle limit e typed g, fun span patterns => Ends.bind ?_⟩
  refine (rooted_knownShape limit typed g).imp (fun known _ hknown => ?_) fun _ _ h => h
  refine ends_analyse fun _ refined hrefined entry hentry id hid => ?_
  obtain ⟨p, -, rfl⟩ := List.mem_map.1 hrefined
  exact ((Ty.inherited_rooted.refine hknown p entry hentry).of_mentions hid).elim (fun h => h) fun h => h

-- A record of the environment gets two fields: the row that solving makes for the rest, the sixth
-- unknown, is not quantified.
example : ((settle 20 (Env.empty.bindMono "r" (.var ⟨1, 0⟩)) ⟨.var ⟨1, 0⟩, .ofList
    [equality (.var ⟨1, 0⟩) (.record [("a", .var ⟨2, 0⟩)] (some ⟨3, 0⟩)) {},
      equality (.var ⟨1, 0⟩) (.record [("b", .var ⟨4, 0⟩)] (some ⟨5, 0⟩)) {}]⟩).run
    { session := { supply := ⟨5⟩ } }).1.toOption.map
      (fun scheme => (scheme.isMono, scheme.body.occurs ⟨6, 0⟩)) = some (true, true) := by cbv

end Generate

end RowTypes
