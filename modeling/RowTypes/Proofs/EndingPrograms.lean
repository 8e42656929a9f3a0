import RowTypes.Proofs.DisciplinedInference
import RowTypes.Proofs.Principality

/-!
# Programs whose checking ends

Checking a program asks for the heads of types in two places: for the record that stands behind a
type, and for the alternatives that a pattern could match.  Nothing bounds either search, and a
session keeps account of whether all of them ended.  Where one did not, nothing comes after it.

They end where constructors show: at the head of every definition, and at that of the body of every
recursive type.  Recursive types are made only by expanding definitions, so this is a discipline,
and it is kept by all that a checker does except declaring named types.  A declaration keeps it if
the type that is written shows constructors, whatever it is that the parameters stand for.
-/

namespace RowTypes

namespace Ty

variable {v : TyVar} {t : Ty}

/-- The bodies of all recursive types inside a type are overt. -/
def Headed (t : Ty) : Prop := t.Formed (fun _ body => body.Overt) fun _ => True

theorem headed_mu : (Ty.mu v t).Headed ↔ t.Overt ∧ t.Headed :=
  formed_mu.trans (and_congr_right fun _ =>
    ⟨fun h => h.mono (fun _ _ hbody => hbody) fun _ _ => trivial,
      fun h => h.mono (fun _ _ hbody => hbody) fun _ _ => .inr trivial⟩)

end Ty

/-- Recursive types and definitions show constructors, and every search for a head ends. -/
def overtness : Discipline where
  Stage := Nat
  count := id
  Before := (· ≤ ·)
  Plain := fun _ _ => True
  Row := fun _ _ => True
  Ok := fun _ t => t.Headed
  headed := True
  Ending := id
  refl := Nat.le_refl
  trans := Nat.le_trans
  plain_later := fun _ _ => trivial
  row_later := fun _ _ => trivial
  ok_later := fun _ h => h
  exists_var := fun w _ => ⟨w + 1, Nat.le_succ w, rfl, .var trivial⟩
  exists_row := Discipline.exists_row_counted
  sorts := fun _ => .inr ⟨fun _ => trivial, fun _ => ⟨fun _ => trivial, fun _ => .var trivial⟩⟩
  plain_of_var := fun _ => trivial
  prim := fun _ name => .prim name
  lit := fun _ value => .lit value
  fn := Ty.formed_fn
  record := ⟨fun h => ⟨Ty.formed_record.1 h, fun _ _ => trivial⟩, fun h => Ty.formed_record.2 h.1⟩
  tuple := Ty.formed_tuple
  named := Ty.formed_named
  mu := ⟨fun h => ⟨.var trivial, (Ty.headed_mu.1 h).2, fun _ => (Ty.headed_mu.1 h).1⟩,
    fun h => Ty.headed_mu.2 ⟨h.2.2 trivial, h.2.1⟩⟩
  union := (Ty.formed_of (k := .union)).1
  inter := (Ty.formed_of (k := .inter)).1
  unionOf := fun _ => Ty.formed_build (k := .union)
  interOf := fun _ => Ty.formed_build (k := .inter)
  ending := fun hends hmore => ⟨hends, hmore trivial⟩

/-- Nothing is asked of types, and some search did not end. -/
def endlessness : Discipline where
  Stage := Nat
  count := id
  Before := (· ≤ ·)
  Plain := fun _ _ => True
  Row := fun _ _ => True
  Ok := fun _ _ => True
  Ending := Not
  refl := Nat.le_refl
  trans := Nat.le_trans
  plain_later := fun _ _ => trivial
  row_later := fun _ _ => trivial
  ok_later := fun _ _ => trivial
  exists_var := fun w _ => ⟨w + 1, Nat.le_succ w, rfl, trivial⟩
  exists_row := Discipline.exists_row_counted
  sorts := fun _ => .inr ⟨fun _ => trivial, fun _ => Iff.rfl⟩
  plain_of_var := fun _ => trivial
  prim := fun _ _ => trivial
  lit := fun _ _ => trivial
  fn := by simp
  record := by simp
  tuple := by simp
  named := by simp
  mu := by simp
  union := by simp
  inter := by simp
  unionOf := by simp
  interOf := by simp
  ending := fun hends _ hmore => hends hmore.1

/-! ## Searches that do not end -/

namespace Session

variable {σ : Session} {c : Constraint} {t : Ty}

/-- Asking for the record behind a type that has no head does not end. -/
theorem not_ends_discharge (hc : c.demand = .recordShape t) (h : σ.registry.head? t = none)
    (limit : Nat) : (∃ e, ((discharge limit c).run σ).1 = .error e) ∧
      ¬ ((discharge limit c).run σ).2.ends := by
  have htrivial : c.isTrivial = false := by
    unfold Constraint.isTrivial
    rw [hc]
    cases t with
    | record fs row => simp [Registry.head?_step] at h
    | _ => rfl
  have hrun : (Relate.recordShape { registry := σ.registry, span := c.span } t).run
        { supply := σ.supply } =
      (.error (Relate.tooDeep { registry := σ.registry, span := c.span } t t),
        { supply := σ.supply, ends := True ∧ (none : Option Ty).isSome }) := by
    unfold Relate.recordShape Relate.head
    dsimp only
    rw [h]
    rfl
  unfold discharge
  rw [htrivial, hc, if_neg Bool.false_ne_true]
  dsimp only
  rw [run_relating _ _ hrun]
  exact ⟨⟨_, rfl⟩, fun hends => Bool.false_ne_true hends.2.2⟩

theorem not_ends_solveInOrder {limit : Nat} {cs : List Constraint} {found : List Subst} {s : Subst}
    (hc : ((found.foldl (fun c next => c.apply next) c).apply s).demand = .recordShape t)
    (h : σ.registry.head? t = none) :
    ¬ ((solveInOrder limit (c :: cs) found s).run σ).2.ends := by
  obtain ⟨⟨e, he⟩, hends⟩ := not_ends_discharge hc h limit
  rw [run_solveInOrder]
  generalize (discharge limit _).run σ = out at he hends
  obtain ⟨r, τ⟩ := out
  obtain rfl : r = .error e := he
  exact hends

end Session

/-! ## Checking -/

namespace Checker

variable {c : Checker} {p : Program}

/-- All searches for heads ended so far, and all that a checker keeps shows constructors where the
next ones will look for them. -/
structure Overt (c : Checker) : Prop where
  ends : c.session.ends
  shown : ∀ entry ∈ c.session.registry.definitions, entry.2.body.Overt
  definitions : ∀ entry ∈ c.session.registry.definitions, entry.2.body.Headed
  remembered : ∀ entry ∈ c.session.registry.memo, entry.2.Headed
  env : ∀ entry ∈ c.env.schemes, entry.2.body.Headed

theorem at_of_overt (h : c.Overt) :
    Discipline.Holding.At (D := overtness) c.session.supply.count c := by
  refine ⟨⟨rfl, ⟨fun entry hentry => ?_, h.remembered⟩, h.ends⟩, fun entry hentry => ?_⟩
  · exact ⟨fun _ _ => trivial, h.definitions entry hentry, fun _ => h.shown entry hentry⟩
  · exact ⟨fun _ _ => .inl trivial, h.env entry hentry⟩

theorem overt_of_at {w : Nat} (h : Discipline.Holding.At (D := overtness) w c) : c.Overt := by
  obtain ⟨⟨-, hregistry, hends⟩, henv⟩ := h
  exact {
    ends := hends
    shown := fun entry hentry => (hregistry.definitions entry hentry).overt trivial
    definitions := fun entry hentry => (hregistry.definitions entry hentry).body
    remembered := hregistry.memo
    env := fun entry hentry => (henv entry hentry).body }

theorem overt_start (withPrelude : Bool) (maxDepth : Int) : (start withPrelude maxDepth).Overt := by
  obtain ⟨w, hw⟩ := Discipline.exists_at_start (D := overtness) (w := (0 : Nat)) rfl trivial
    withPrelude maxDepth
  exact overt_of_at hw

/-- Where all types that a program declares are overt, so is the checker behind it. -/
theorem Overt.checkProgram (h : c.Overt) (hp : ∀ d ∈ p.decls, d.isOvert = true) :
    ((checkProgram p).run c).2.Overt := by
  obtain ⟨w, -, hw, -⟩ := Discipline.keeps_checkProgram p (fun _ => hp) c (at_of_overt h)
  exact overt_of_at hw

/-- What did not end is not made good by checking a program. -/
theorem ends_of_checkProgram (h : ((checkProgram p).run c).2.session.ends) : c.session.ends := by
  by_contra hends
  have hregistry : endlessness.Registers c.session.supply.count c.session.registry :=
    ⟨fun _ _ => ⟨fun _ _ => trivial, trivial, False.elim⟩, fun _ _ => trivial⟩
  obtain ⟨w, -, ⟨⟨-, -, hnot⟩, -⟩, -⟩ := Discipline.keeps_checkProgram (D := endlessness) p
    False.elim c ⟨⟨rfl, hregistry, hends⟩, fun _ _ => ⟨fun _ _ => .inl trivial, trivial⟩⟩
  exact hnot h

theorem not_ends_checkExpr {c : Checker} {x : Expr} {typed : Typed} {g : Generating}
    (hinfer : (Generate.infer c.limit c.env 0 x).run { session := c.session } = (.ok typed, g))
    (hsolve : ¬ ((Session.solve c.limit typed.constraints).run g.session).2.ends) :
    ¬ ((checkExpr x).run c).2.session.ends := by
  rw [run_checkExpr, hinfer]
  dsimp only
  generalize (Session.solve c.limit typed.constraints).run g.session = out at hsolve
  obtain ⟨⟨s, failure⟩, τ⟩ := out
  cases failure <;> exact hsolve

end Checker

end RowTypes
