import RowTypes.Proofs.DisciplinedInference

/-!
# Rows and unknowns for types

An unknown does not say what it stands for: a type, or the rest of a record.  Still no number is
ever used in both ways.  Each unknown is made for one of the two, and the numbers that were made
for rows are found in the row of a record and nowhere else, in whatever a checker gives out and
keeps: environments, constraints, schemes, definitions of named types and substitutions.

This is a discipline whose stages remember what each unknown was made for, so it is kept by all
that a checker does.  A substitution that keeps it sends a row to a row or to a record.  So a row
in a record is always replaced by a row or spliced, and the case where it is sent to anything else,
and would stay behind, does not come up.
-/

namespace RowTypes

/-! ## What unknowns were made for -/

/-- How many unknowns were made, and which of them for rows. -/
structure Kinds where
  count : Nat
  isRow : Int → Prop

namespace Kinds

/-- The numbers that were given out. -/
def Given (κ : Kinds) (id : Int) : Prop := 1 ≤ id ∧ id ≤ κ.count

/-- The numbers that were given out for types. -/
def Plain (κ : Kinds) (id : Int) : Prop := κ.Given id ∧ ¬ κ.isRow id

/-- The numbers that were given out for rows. -/
def Row (κ : Kinds) (id : Int) : Prop := κ.Given id ∧ κ.isRow id

/-- More unknowns may have been made; those that there were stand for what they stood for. -/
structure Before (κ κ' : Kinds) : Prop where
  count : κ.count ≤ κ'.count
  isRow : ∀ id : Int, id ≤ κ.count → (κ'.isRow id ↔ κ.isRow id)

variable {κ κ' : Kinds} {id : Int}

theorem Given.later (h : κ.Given id) (hκ : κ.Before κ') : κ'.Given id := by
  have := hκ.count
  exact ⟨h.1, by have := h.2; omega⟩

theorem Plain.later (h : κ.Plain id) (hκ : κ.Before κ') : κ'.Plain id :=
  ⟨h.1.later hκ, fun hrow => h.2 ((hκ.isRow id h.1.2).1 hrow)⟩

theorem Row.later (h : κ.Row id) (hκ : κ.Before κ') : κ'.Row id :=
  ⟨h.1.later hκ, (hκ.isRow id h.1.2).2 h.2⟩

theorem Before.trans {κ'' : Kinds} (h : κ.Before κ') (h' : κ'.Before κ'') : κ.Before κ'' where
  count := Nat.le_trans h.count h'.count
  isRow := fun id hid => by
    have := h.count
    exact (h'.isRow id (by omega)).trans (h.isRow id hid)

/-- One more unknown, made for a row or for a type. -/
def next (κ : Kinds) (made : Prop) : Kinds :=
  ⟨κ.count + 1, Function.update κ.isRow ((κ.count : Int) + 1) made⟩

theorem before_next (made : Prop) : κ.Before (κ.next made) where
  count := Nat.le_succ _
  isRow := fun id hid => by
    have hne : id ≠ (κ.count : Int) + 1 := by omega
    show Function.update κ.isRow _ made id ↔ _
    rw [Function.update_of_ne hne]

theorem given_next (made : Prop) : (κ.next made).Given ((κ.count : Int) + 1) := by
  constructor
  · omega
  · show (κ.count : Int) + 1 ≤ ((κ.count + 1 : Nat) : Int)
    omega

theorem isRow_next (made : Prop) : (κ.next made).isRow ((κ.count : Int) + 1) = made :=
  Function.update_self _ _ _

end Kinds

/-- Rows and unknowns for types are kept apart. -/
def rowKinds : Discipline where
  Stage := Kinds
  count := Kinds.count
  Before := Kinds.Before
  Plain := Kinds.Plain
  Row := Kinds.Row
  Ok := fun κ t => t.Kinded κ.Plain κ.Row
  refl := fun _ => ⟨Nat.le_refl _, fun _ _ => Iff.rfl⟩
  trans := Kinds.Before.trans
  plain_later := fun hκ h => h.later hκ
  row_later := fun hκ h => h.later hκ
  ok_later := fun hκ h => h.mono (fun _ hid => hid.later hκ) fun _ hid => hid.later hκ
  exists_var := fun κ level =>
    ⟨κ.next False, Kinds.before_next _, rfl, Kinds.given_next _, by simp [Kinds.isRow_next]⟩
  exists_row := fun κ =>
    ⟨κ.next True, Kinds.before_next _, rfl, Kinds.given_next _, by simp [Kinds.isRow_next]⟩
  sorts := fun _ => .inl fun _ hrow hplain => hplain.2 hrow.2
  plain_of_var := fun h => h
  prim := fun _ _ => trivial
  lit := fun _ _ => trivial
  fn := Iff.rfl
  record := Ty.kinded_record
  tuple := Ty.kinded_tuple
  named := Ty.kinded_named
  mu := ⟨fun h => ⟨h.1, h.2, False.elim⟩, fun h => ⟨h.1, h.2.1⟩⟩
  union := Ty.kinded_union.1
  inter := Ty.kinded_inter.1
  unionOf := fun _ h => Ty.of_unionOf (fun _ => Ty.kinded_union) h
  interOf := fun _ h => Ty.of_interOf (fun _ => Ty.kinded_inter) h

/-! ## Rows under substitutions -/

/-- A row stands for itself, for another row, or for a record. -/
def Subst.CarriesRow (s : Subst) (row : TyVar) : Prop :=
  ∀ t, s.lookup? row = some t → (∃ v, t = .var v) ∨ ∃ fs rest, t = .record fs rest

/-- The row of a record under a substitution, if what stands for it is a row or a record. -/
def RecordTy.rowUnder? (s : Subst) (r : RecordTy) : Option (Option TyVar) :=
  match r.row with
  | none => some none
  | some v =>
    match s.apply (.var v) with
    | .var w => some (some w)
    | .record _ rest => some rest
    | _ => none

theorem RecordTy.rowUnder?_eq {s : Subst} {r : RecordTy} (h : ∀ v, r.row = some v → s.CarriesRow v) :
    r.rowUnder? s = some (r.rowUnder s) := by
  unfold rowUnder? rowUnder
  cases hrow : r.row with
  | none => rfl
  | some v =>
      dsimp only
      rw [Subst.apply_var]
      cases ht : s.get? v.id with
      | none => rfl
      | some t =>
          rcases h v hrow t ht with ⟨w, rfl⟩ | ⟨fs, rest, rfl⟩
          · rfl
          · rfl

namespace Kinds

variable {κ : Kinds} {s : Subst} {c : Constraint} {limit : Nat} {σ τ : Session}

/-- A substitution that keeps rows and types apart carries every row. -/
theorem carriesRow_of_sends (hs : rowKinds.Sends κ s) {row : TyVar} (hrow : κ.Row row.id) :
    s.CarriesRow row := by
  intro t ht
  rcases hs.get? ht with ⟨hplain, -⟩ | ⟨-, hbehind⟩
  · exact absurd hrow.2 hplain.2
  · cases t with
    | var v => exact .inl ⟨v, rfl⟩
    | record fs rest => exact .inr ⟨fs, rest, rfl⟩
    | _ => exact hbehind.elim

/-- Of a record that is in order, the row is found under every substitution that is in order. -/
theorem rowUnder?_eq (hs : rowKinds.Sends κ s) {r : RecordTy}
    (hr : r.toTy.Kinded κ.Plain κ.Row) : r.rowUnder? s = some (r.rowUnder s) :=
  RecordTy.rowUnder?_eq fun v hv => carriesRow_of_sends hs ((Ty.kinded_record.1 hr).2 v hv)

/-- Relating two types, at whatever depth, finds a substitution that carries every row. -/
theorem carriesRow_of_rel {ctx : Context} {rel : Relation}
    (hrel : rel = Relate.unify ctx limit ∨ rel = Relate.subtype ctx limit)
    (hctx : rowKinds.Registers κ ctx.registry) {a b : Ty} (ha : rowKinds.Ok κ a)
    (hb : rowKinds.Ok κ b) {p p' : Progress} (hp : Discipline.Holding.At (D := rowKinds) κ p)
    (hrun : (rel a b).run p = (.ok s, p')) :
    ∃ κ' : Kinds, κ.Before κ' ∧ κ'.count = p'.supply.count ∧
      ∀ row : TyVar, κ'.Row row.id → s.CarriesRow row := by
  have hkeeps : rowKinds.KeepsRel κ rel := by
    rcases hrel with rfl | rfl
    · exact Discipline.keepsRel_unify hctx limit
    · exact Discipline.keepsRel_subtype hctx limit
  obtain ⟨κ', hκ', hp', hs⟩ := hkeeps (rowKinds.refl κ) ha hb p hp
  have hout : ((rel a b).run.run p) = (.ok s, p') := hrun
  rw [hout] at hp' hs
  exact ⟨κ', hκ', hp'.1, fun _ => carriesRow_of_sends (hs s rfl)⟩

/-- Meeting a constraint, by whatever relation, finds a substitution that carries every row. -/
theorem carriesRow_of_discharge (hσ : Discipline.Holding.At (D := rowKinds) κ σ)
    (hc : rowKinds.Asks κ c) (hrun : (Session.discharge limit c).run σ = (.ok s, τ)) :
    ∃ κ' : Kinds, κ.Before κ' ∧ κ'.count = τ.supply.count ∧
      ∀ row : TyVar, κ'.Row row.id → s.CarriesRow row := by
  obtain ⟨κ', hκ', hτ, hs⟩ := Discipline.keepsOk_discharge limit hc σ hσ
  have hout : ((Session.discharge limit c).run.run σ) = (.ok s, τ) := hrun
  rw [hout] at hτ hs
  exact ⟨κ', hκ', hτ.1, fun _ => carriesRow_of_sends (hs s rfl)⟩

/-- Solving constraints one after the other, from a substitution that is in order, comes to one
that carries every row. -/
theorem carriesRow_of_solveInOrder (hσ : Discipline.Holding.At (D := rowKinds) κ σ)
    {cs : List Constraint} {found : List Subst} (hcs : ∀ c ∈ cs, rowKinds.Asks κ c)
    (hfound : ∀ next ∈ found, rowKinds.Sends κ next) (hs : rowKinds.Sends κ s) :
    ∃ κ' : Kinds, κ.Before κ' ∧
      κ'.count = ((Session.solveInOrder limit cs found s).run σ).2.supply.count ∧
      ∀ row : TyVar, κ'.Row row.id →
        ((Session.solveInOrder limit cs found s).run σ).1.subst.CarriesRow row := by
  obtain ⟨κ', hκ', hτ, hs'⟩ := Discipline.keeps_solveInOrder limit hcs hfound hs σ hσ
  exact ⟨κ', hκ', hτ.1, fun _ => carriesRow_of_sends hs'⟩

end Kinds

/-! ## Sessions -/

namespace Checker

/-- What a checker can be asked to do. -/
inductive Request where
  /-- Declare a named type. -/
  | declare (d : TypeDecl)
  /-- Give an expression a type and constraints. -/
  | generate (x : Expr)
  /-- Give a definition a scheme and constraints. -/
  | generateDecl (d : LetDecl)
  /-- Solve the constraints that were generated so many generations ago. -/
  | solve (ago : Nat)
  /-- Bring a name into scope, with the scheme that was found so many schemes ago. -/
  | bind (name : String) (ago : Nat)
  | checkExpr (x : Expr)
  | checkProgram (p : Program)

/-- A checker, and what it has given out so far, the latest first. -/
structure History where
  checker : Checker
  types : List Ty := []
  constraints : List ConstraintSet := []
  schemes : List Scheme := []
  substs : List Subst := []

namespace History

/-- What is given out where something was found. -/
def found {ε α β : Type} (r : Except ε α) (f : α → β) : List β := (r.toOption.map f).toList

/-- What has been given out after one more request. -/
def serve (h : History) : Request → History
  | .declare d => { h with checker := ((inSession (Session.declare d).run).run h.checker).2 }
  | .generate x =>
    let (out, checker) :=
      (inSession (Session.generate h.checker.limit h.checker.env x)).run h.checker
    { h with
      checker
      types := found out.1 (·.ty) ++ h.types
      constraints := found out.1 (·.constraints) ++ h.constraints }
  | .generateDecl d =>
    let (out, checker) :=
      (inSession (Session.generateDecl h.checker.limit h.checker.env d)).run h.checker
    { h with
      checker
      schemes := found out.1 (·.1) ++ h.schemes
      constraints := found out.1 (·.2) ++ h.constraints }
  | .solve ago =>
    match h.constraints[ago]? with
    | none => h
    | some cs =>
      -- The substitution counts also where a constraint cannot be met.
      let (solution, checker) := (inSession (Session.solve h.checker.limit cs)).run h.checker
      { h with checker, substs := solution.subst :: h.substs }
  | .bind name ago =>
    match h.schemes[ago]? with
    | none => h
    | some scheme => { h with checker.env := h.checker.env.bind name scheme }
  | .checkExpr x =>
    let (out, checker) := (Checker.checkExpr x).run h.checker
    { h with
      checker
      types := found out (·.ty) ++ h.types
      substs := found out (·.subst) ++ h.substs }
  | .checkProgram p =>
    let (result, checker) := (Checker.checkProgram p).run h.checker
    { h with
      checker
      schemes := (result.outcomes.filterMap fun outcome => outcome.toOption.join) ++ h.schemes }

theorem mem_found {ε α β : Type} {r : Except ε α} {f : α → β} {b : β} :
    b ∈ found r f ↔ ∃ a, r = .ok a ∧ f a = b := by
  cases r with
  | error e => simp [found, Except.toOption]
  | ok a => simp [found, Except.toOption, eq_comm]

/-- What a checker has given out and keeps is in order. -/
structure Orderly (D : Discipline) (w : D.Stage) (h : History) : Prop where
  checker : Discipline.Holding.At w h.checker
  types : ∀ t ∈ h.types, D.Ok w t
  constraints : ∀ cs ∈ h.constraints, D.Demands w cs
  schemes : ∀ s ∈ h.schemes, D.Quantifies w s
  substs : ∀ s ∈ h.substs, D.Sends w s

variable {D : Discipline} {w w' : D.Stage} {h : History}

/-- Another state of the checker, at a later stage. -/
theorem Orderly.advance (ho : h.Orderly D w) (hw : D.Before w w') {checker : Checker}
    (hc : Discipline.Holding.At w' checker) : { h with checker }.Orderly D w' where
  checker := hc
  types := fun t ht => (ho.types t ht).later hw
  constraints := fun cs hcs => (ho.constraints cs hcs).later hw
  schemes := fun s hs => (ho.schemes s hs).later hw
  substs := fun s hs => (ho.substs s hs).later hw

/-- What is given out beside what was given out before. -/
theorem forall_mem_found_append {ε α β : Type} {r : Except ε α} {f : α → β} {bs : List β}
    {P : β → Prop} (hr : ∀ a, r = .ok a → P (f a)) (hbs : ∀ b ∈ bs, P b) :
    ∀ b ∈ found r f ++ bs, P b := by
  intro b hb
  rcases List.mem_append.1 hb with hb | hb
  · obtain ⟨a, ha, rfl⟩ := mem_found.1 hb
    exact hr a ha
  · exact hbs b hb

/-- A request is served in order. -/
theorem Orderly.serve (ho : h.Orderly D w) (hheaded : ¬ D.headed) (r : Request) :
    ∃ w', D.Before w w' ∧ (h.serve r).Orderly D w' := by
  obtain ⟨-, henv⟩ := ho.checker
  cases r with
  | declare d =>
      obtain ⟨w', hw', hc, -⟩ :=
        (Discipline.keepsOk_declare fun h => absurd h hheaded).inSession h.checker ho.checker
      exact ⟨w', hw', ho.advance hw' hc⟩
  | generate x =>
      obtain ⟨w', hw', hc, hout⟩ :=
        (Discipline.keeps_generate h.checker.limit henv x).inSession h.checker ho.checker
      have ho' := ho.advance hw' hc
      exact ⟨w', hw', hc, forall_mem_found_append (fun typed ht => (hout typed ht).ty) ho'.types,
        forall_mem_found_append (fun typed ht => (hout typed ht).constraints) ho'.constraints,
        ho'.schemes, ho'.substs⟩
  | generateDecl d =>
      obtain ⟨w', hw', hc, hout⟩ :=
        (Discipline.keeps_generateDecl h.checker.limit henv d).inSession h.checker ho.checker
      have ho' := ho.advance hw' hc
      exact ⟨w', hw', hc, ho'.types,
        forall_mem_found_append (fun found hf => (hout found hf).2) ho'.constraints,
        forall_mem_found_append (fun found hf => (hout found hf).1) ho'.schemes, ho'.substs⟩
  | solve ago =>
      unfold History.serve
      dsimp only
      split
      · exact ⟨w, D.refl w, ho⟩
      · next cs hcs =>
          obtain ⟨w', hw', hc, hs⟩ := (Discipline.keeps_solve h.checker.limit
            (ho.constraints cs (List.mem_of_getElem? hcs))).inSession h.checker ho.checker
          have ho' := ho.advance hw' hc
          exact ⟨w', hw', hc, ho'.types, ho'.constraints, ho'.schemes,
            List.forall_mem_cons.2 ⟨hs, ho'.substs⟩⟩
  | bind name ago =>
      unfold History.serve
      dsimp only
      split
      · exact ⟨w, D.refl w, ho⟩
      · next scheme hscheme =>
          have hbound := henv.bind (ho.schemes scheme (List.mem_of_getElem? hscheme)) name
          exact ⟨w, D.refl w, ho.advance (D.refl w) ⟨ho.checker.1, hbound⟩⟩
  | checkExpr x =>
      obtain ⟨w', hw', hc, hout⟩ := Discipline.keeps_checkExpr x h.checker ho.checker
      have ho' := ho.advance hw' hc
      exact ⟨w', hw', hc,
        forall_mem_found_append (fun checked hf => (hout checked hf).ty) ho'.types,
        ho'.constraints, ho'.schemes,
        forall_mem_found_append (fun checked hf => (hout checked hf).subst) ho'.substs⟩
  | checkProgram p =>
      obtain ⟨w', hw', hc, hout⟩ := Discipline.keeps_checkProgram p (fun h => absurd h hheaded) h.checker ho.checker
      have ho' := ho.advance hw' hc
      refine ⟨w', hw', hc, ho'.types, ho'.constraints, fun s hs => ?_, ho'.substs⟩
      rcases List.mem_append.1 hs with hs | hs
      · obtain ⟨outcome, hmem, houtcome⟩ := List.mem_filterMap.1 hs
        refine hout.outcomes s ?_
        cases outcome with
        | error e => cases houtcome
        | ok o =>
            obtain rfl : o = some s := houtcome
            exact hmem
      · exact ho'.schemes s hs

/-- All requests are served in order. -/
theorem Orderly.serveAll (hheaded : ¬ D.headed) : ∀ {h : History} {w : D.Stage},
    h.Orderly D w → ∀ requests : List Request,
      ∃ w', (requests.foldl History.serve h).Orderly D w'
  | h, w, ho, [] => ⟨w, ho⟩
  | h, w, ho, r :: requests => by
      obtain ⟨w', -, ho'⟩ := ho.serve hheaded r
      exact ho'.serveAll hheaded requests

end History

namespace History

/-- Rows are rows, and other unknowns are not, in all that a checker has given out and keeps. -/
structure RowsApart (κ : Kinds) (h : History) : Prop where
  env : ∀ entry ∈ h.checker.env.schemes, entry.2.body.Kinded κ.Plain κ.Row
  params : ∀ entry ∈ h.checker.session.registry.definitions,
    ∀ v ∈ entry.2.params, κ.Plain v.id
  definitions : ∀ entry ∈ h.checker.session.registry.definitions,
    entry.2.body.Kinded κ.Plain κ.Row
  remembered : ∀ entry ∈ h.checker.session.registry.memo, entry.2.Kinded κ.Plain κ.Row
  types : ∀ t ∈ h.types, t.Kinded κ.Plain κ.Row
  constraints : ∀ cs ∈ h.constraints, ∀ c ∈ cs.items, ∀ t ∈ c.types, t.Kinded κ.Plain κ.Row
  schemes : ∀ s ∈ h.schemes, s.body.Kinded κ.Plain κ.Row
  /-- What a substitution sends a number to is of its kind: a row to a row or a record. -/
  substs : ∀ s ∈ h.substs, ∀ v t, s.lookup? v = some t →
    κ.Plain v.id ∧ t.Kinded κ.Plain κ.Row ∨
    κ.Row v.id ∧ ((∃ r : TyVar, t = .var r ∧ κ.Row r.id) ∨
      ∃ fs row, t = .record fs row ∧ t.Kinded κ.Plain κ.Row)

theorem Orderly.rowsApart {h : History} {κ : Kinds} (ho : h.Orderly rowKinds κ) :
    h.RowsApart κ where
  env := fun entry hentry => (ho.checker.2 entry hentry).body
  params := fun entry hentry => (ho.checker.1.2.1.definitions entry hentry).params
  definitions := fun entry hentry => (ho.checker.1.2.1.definitions entry hentry).body
  remembered := ho.checker.1.2.1.memo
  types := ho.types
  constraints := ho.constraints
  schemes := fun s hs => (ho.schemes s hs).body
  substs := fun s hs v t ht => by
    rcases (ho.substs s hs).get? ht with hplain | ⟨hrow, hbehind⟩
    · exact .inl hplain
    · refine .inr ⟨hrow, ?_⟩
      cases t with
      | var r => exact .inl ⟨r, rfl, hbehind⟩
      | record fs row => exact .inr ⟨fs, row, rfl, hbehind⟩
      | _ => exact hbehind.elim

end History

/-- What a new checker has given out once it has served some requests. -/
def History.after (withPrelude : Bool) (maxDepth : Int) (requests : List Request) : History :=
  requests.foldl History.serve ⟨start withPrelude maxDepth, [], [], [], []⟩

/-- Rows and unknowns for types never mix.  Whatever a checker is asked for, the numbers it has
given out fall into rows and others, so that rows stand in the place of rows and nowhere else, and
every substitution sends a row to a row or to a record. -/
theorem exists_rowsApart (withPrelude : Bool) (maxDepth : Int) (requests : List Request) :
    ∃ κ : Kinds,
      κ.count = (History.after withPrelude maxDepth requests).checker.session.supply.count ∧
      (History.after withPrelude maxDepth requests).RowsApart κ := by
  have hzero : rowKinds.count ⟨0, fun _ => False⟩ = 0 := rfl
  obtain ⟨κ, hstart⟩ := Discipline.exists_at_start hzero trivial withPrelude maxDepth
  have ho : (History.mk (start withPrelude maxDepth) [] [] [] []).Orderly rowKinds κ :=
    ⟨hstart, by simp, by simp, by simp, by simp⟩
  obtain ⟨κ', ho'⟩ := ho.serveAll id requests
  exact ⟨κ', ho'.checker.1.1, ho'.rowsApart⟩

end Checker

end RowTypes
