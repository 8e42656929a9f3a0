import RowTypes.Proofs.MustJoin

/-!
# Solving without building from nothing

Normalising rebuilds every union and intersection that it meets, and solving normalises,
substitutes, joins and spreads.  Each function here does what the one of its name does, but stops
where something would have to be built from nothing.

What a reference becomes is remembered, and a remembered normal form is used without looking at
it again.  So a run is in order only if what is remembered is canonical beside what is defined,
and it has to leave the registry as it found it.  Being canonical is a discipline, so it does.

The last theorem gathers what is true of the operations that others build on: from canonical
types they never stop, and what they come to is canonical.
-/

namespace RowTypes

namespace Must

open Registry (Expanding)

/-! ## Normal forms -/

mutual

def normalizeWith (onRef : String → List Ty → Steps Session (Option Ty)) : Ty → Steps Session Ty
  | .var v => pure (.var v)
  | .prim name => pure (.prim name)
  | .lit value => pure (.lit value)
  | .fn p r => do
    let p ← normalizeWith onRef p
    let r ← normalizeWith onRef r
    pure (.fn p r)
  | .record fs row => do
    let fs ← normalizeFields onRef fs
    pure (.record fs row)
  | .tuple ts => do
    let ts ← normalizeAll onRef ts
    pure (.tuple ts)
  | .union ts => do
    let ts ← normalizeAll onRef ts
    Ty.unionOf? ts
  | .inter ts => do
    let ts ← normalizeAll onRef ts
    Ty.interOf? ts
  | .named name args => do
    match ← onRef name args with
    | some t => pure t
    | none =>
      let args ← normalizeAll onRef args
      pure (.named name args)
  | .mu v t => do
    let t ← normalizeWith onRef t
    pure (.mu v t)

def normalizeAll (onRef : String → List Ty → Steps Session (Option Ty)) :
    List Ty → Steps Session (List Ty)
  | [] => pure []
  | t :: ts => do
    let t ← normalizeWith onRef t
    let ts ← normalizeAll onRef ts
    pure (t :: ts)

def normalizeFields (onRef : String → List Ty → Steps Session (Option Ty)) :
    List (String × Ty) → Steps Session (List (String × Ty))
  | [] => pure []
  | (name, t) :: fs => do
    let t ← normalizeWith onRef t
    let fs ← normalizeFields onRef fs
    pure ((name, t) :: fs)

end

def normalizeRefStep (below : Option (Expanding → String → List Ty → Steps Session (Option Ty)))
    (expanding : Expanding) (name : String) (args : List Ty) : Steps Session (Option Ty) := do
  let key := (Ty.named name args).digest
  if let some binder := expanding.lookup key then return some (.var binder)
  let session ← get
  if let some t := Table.get? key session.registry.memo then return some t
  match session.registry.lookup? name, below with
  | none, _ => return none
  | some _, none => return some (.named name args)
  | some definition, some below =>
    match ← expand? definition args with
    | none => return some (.named name args)
    | some expanded =>
      let binder ← steps (Registry.freshVar 0)
      let body ← normalizeWith (below ((key, binder) :: expanding)) expanded
      let t ← steps (Registry.closeExpansion expanding key binder body)
      return some t

def normalizeRef : Nat → Expanding → String → List Ty → Steps Session (Option Ty)
  | 0 => normalizeRefStep none
  | allowed + 1 => normalizeRefStep (some (normalizeRef allowed))

def normalize (t : Ty) : Steps Session Ty :=
  normalizeWith (normalizeRef Registry.expansionLimit []) t

section NormalForms

variable {α β : Type} {t : Ty} {ts : List Ty}
  {onRef' : String → List Ty → Steps Session (Option Ty)}
  {onRef : String → List Ty → StateM Session (Option Ty)}

theorem runs_get {f' : Session → Steps Session β} {f : Session → StateM Session β}
    (h : ∀ σ : Session, σ.registry.Canonical → Runs (f' σ) (f σ)) :
    Runs (get >>= f') (get >>= f) :=
  fun w σ hσ => h σ (Registry.registers_iff.1 hσ.2.1) w σ hσ

theorem runs_built {o : Option α} {a : α} (ho : o = some a) :
    Runs (S := Session) (liftM o) (pure a) := by
  subst ho
  exact runs_pure a

/-- What becomes of references goes together: it is the same, and canonical. -/
structure RunsRefs (onRef' : String → List Ty → Steps Session (Option Ty))
    (onRef : String → List Ty → StateM Session (Option Ty)) : Prop where
  keeps : normality.KeepsRefs (0 : Nat) onRef
  runs : ∀ {name : String} {args : List Ty}, (∀ t ∈ args, t.Canonical) →
    Runs (onRef' name args) (onRef name args)

theorem RunsRefs.keepsAll (h : RunsRefs onRef' onRef) (hts : ∀ t ∈ ts, t.Canonical)
    (w : normality.Stage) : normality.Keeps w
      (fun w' us => us.length = ts.length ∧ ∀ u ∈ us, normality.Ok w' u)
      (Registry.normalizeAll onRef ts) :=
  Discipline.keeps_normalizeAll h.keeps (Nat.zero_le w) hts

/-- Of as many types as make up a compound, and canonical ones, there is a compound. -/
theorem build?_of_length {k : Compound} {us : List Ty} (h : (k.of ts).Canonical)
    (hlength : us.length = ts.length) (hus : ∀ u ∈ us, u.Canonical) :
    k.build? us = some (k.build us) := by
  have hlen := (Ty.canonical_of.1 h).1
  exact Compound.build?_eq_build (List.ne_nil_of_length_pos (by omega)) hus

mutual

theorem runs_normalizeWith (h : RunsRefs onRef' onRef) : ∀ {t : Ty}, t.Canonical →
    Runs (normalizeWith onRef' t) (Registry.normalizeWith onRef t)
  | .var _, _ | .prim _, _ | .lit _, _ => by
      rw [normalizeWith, Registry.normalizeWith]
      exact runs_pure _
  | .fn p r, ht => by
      obtain ⟨hp, hr⟩ := normality.fn (w := (0 : Nat)) |>.1 ht
      rw [normalizeWith, Registry.normalizeWith]
      refine (runs_normalizeWith h hp).bind
        (fun w => Discipline.keeps_normalizeWith h.keeps (Nat.zero_le w) hp) fun _ _ _ => ?_
      exact (runs_normalizeWith h hr).bind
        (fun w => Discipline.keeps_normalizeWith h.keeps (Nat.zero_le w) hr)
        fun _ _ _ => runs_pure _
  | .record fs row, ht => by
      rw [normalizeWith, Registry.normalizeWith]
      exact (runs_normalizeFields h ht.fields).bind
        (fun w => Discipline.keeps_normalizeFields h.keeps (Nat.zero_le w) ht.fields)
        fun _ _ _ => runs_pure _
  | .tuple ts, ht => by
      rw [normalizeWith, Registry.normalizeWith]
      exact (runs_normalizeAll h ht.elems).bind (h.keepsAll ht.elems) fun _ _ _ => runs_pure _
  | .union ts, ht => by
      rw [normalizeWith, Registry.normalizeWith]
      exact (runs_normalizeAll h ht.alternatives).bind (h.keepsAll ht.alternatives)
        fun _ _ hus => runs_built (build?_of_length (k := .union) ht hus.1 hus.2)
  | .inter ts, ht => by
      rw [normalizeWith, Registry.normalizeWith]
      exact (runs_normalizeAll h ht.members).bind (h.keepsAll ht.members)
        fun _ _ hus => runs_built (build?_of_length (k := .inter) ht hus.1 hus.2)
  | .named name args, ht => by
      rw [normalizeWith, Registry.normalizeWith]
      refine (h.runs ht.args).bind (fun w => h.keeps (Nat.zero_le w) ht.args) fun o _ _ => ?_
      cases o with
      | some t => exact runs_pure t
      | none =>
          exact (runs_normalizeAll h ht.args).bind (h.keepsAll ht.args) fun _ _ _ => runs_pure _
  | .mu v t, ht => by
      rw [normalizeWith, Registry.normalizeWith]
      exact (runs_normalizeWith h ht.body).bind
        (fun w => Discipline.keeps_normalizeWith h.keeps (Nat.zero_le w) ht.body)
        fun _ _ _ => runs_pure _

theorem runs_normalizeAll (h : RunsRefs onRef' onRef) : ∀ {ts : List Ty},
    (∀ t ∈ ts, t.Canonical) → Runs (normalizeAll onRef' ts) (Registry.normalizeAll onRef ts)
  | [], _ => by
      rw [normalizeAll, Registry.normalizeAll]
      exact runs_pure _
  | t :: ts, hts => by
      obtain ⟨ht, hts⟩ := List.forall_mem_cons.1 hts
      rw [normalizeAll, Registry.normalizeAll]
      refine (runs_normalizeWith h ht).bind
        (fun w => Discipline.keeps_normalizeWith h.keeps (Nat.zero_le w) ht) fun _ _ _ => ?_
      exact (runs_normalizeAll h hts).bind (h.keepsAll hts) fun _ _ _ => runs_pure _

theorem runs_normalizeFields (h : RunsRefs onRef' onRef) : ∀ {fs : List (String × Ty)},
    (∀ f ∈ fs, f.2.Canonical) →
    Runs (normalizeFields onRef' fs) (Registry.normalizeFields onRef fs)
  | [], _ => by
      rw [normalizeFields, Registry.normalizeFields]
      exact runs_pure _
  | (name, t) :: fs, hfs => by
      obtain ⟨ht, hfs⟩ := List.forall_mem_cons.1 hfs
      rw [normalizeFields, Registry.normalizeFields]
      refine (runs_normalizeWith h ht).bind
        (fun w => Discipline.keeps_normalizeWith h.keeps (Nat.zero_le w) ht) fun _ _ _ => ?_
      exact (runs_normalizeFields h hfs).bind
        (fun w => Discipline.keeps_normalizeFields h.keeps (Nat.zero_le w) hfs)
        fun _ _ _ => runs_pure _

end

/-- An expanded reference is normalised under its binder, and closed. -/
theorem runs_expanding {below' : Expanding → String → List Ty → Steps Session (Option Ty)}
    {below : Expanding → String → List Ty → StateM Session (Option Ty)}
    (hbelow : ∀ expanding, RunsRefs (below' expanding) (below expanding)) (expanding : Expanding)
    (key : Digest) (ht : t.Canonical) :
    Runs
      (do
        let binder ← steps (Registry.freshVar 0)
        let body ← normalizeWith (below' ((key, binder) :: expanding)) t
        let t ← steps (Registry.closeExpansion expanding key binder body)
        return some t)
      (do
        let binder ← Registry.freshVar 0
        let body ← Registry.normalizeWith (below ((key, binder) :: expanding)) t
        some <$> Registry.closeExpansion expanding key binder body) := by
  refine (runs_steps _).bind (fun _ => Discipline.keeps_freshVar 0) fun binder _ hbinder => ?_
  have hrefs := hbelow ((key, binder) :: expanding)
  refine (runs_normalizeWith hrefs ht).bind
    (fun w => Discipline.keeps_normalizeWith hrefs.keeps (Nat.zero_le w) ht) fun body _ hbody => ?_
  rw [← bind_pure_comp]
  exact (runs_steps _).bind (fun _ => Discipline.keeps_closeExpansion expanding key
    (Ty.Canonical.var binder) hbody False.elim) fun _ _ _ => runs_pure _

/-- A reference is expanded the same way, whether or not references below it may be. -/
theorem runs_normalizeRefStep
    {below' : Option (Expanding → String → List Ty → Steps Session (Option Ty))}
    {below : Option (Expanding → String → List Ty → StateM Session (Option Ty))}
    (hbelow : Option.Rel (fun b' b => ∀ expanding, RunsRefs (b' expanding) (b expanding))
      below' below) (expanding : Expanding) {name : String} {args : List Ty}
    (hargs : ∀ t ∈ args, t.Canonical) :
    Runs (normalizeRefStep below' expanding name args)
      (Registry.normalizeRefStep below expanding name args) := by
  unfold normalizeRefStep Registry.normalizeRefStep
  dsimp only
  cases expanding.lookup (Ty.named name args).digest with
  | some binder => exact runs_pure _
  | none =>
      refine runs_get fun σ hσ => ?_
      cases Table.get? (Ty.named name args).digest σ.registry.memo with
      | some t => exact runs_pure _
      | none =>
          cases hd : σ.registry.lookup? name with
          | none => exact runs_pure _
          | some d =>
              cases hbelow with
              | none => exact runs_pure _
              | some hbelow =>
                  refine runs_build (expand?_eq (hσ.lookup? hd) hargs) ?_
                  dsimp only
                  cases hu : d.expand? args with
                  | none => exact runs_pure _
                  | some u =>
                      exact runs_expanding hbelow expanding _
                        (canonical_expand? (hσ.lookup? hd) hargs hu)

theorem runsRefs_normalizeRef : ∀ (allowed : Nat) (expanding : Expanding),
    RunsRefs (normalizeRef allowed expanding) (Registry.normalizeRef allowed expanding)
  | 0, expanding =>
      ⟨Discipline.keepsRefs_normalizeRef 0 fun _ _ => Ty.Canonical.var _,
        runs_normalizeRefStep .none expanding⟩
  | allowed + 1, expanding =>
      ⟨Discipline.keepsRefs_normalizeRef (allowed + 1) fun _ _ => Ty.Canonical.var _,
        runs_normalizeRefStep (.some (runsRefs_normalizeRef allowed)) expanding⟩

theorem runs_normalize (ht : t.Canonical) : Runs (normalize t) (Registry.normalize t) :=
  runs_normalizeWith (runsRefs_normalizeRef Registry.expansionLimit []) ht

end NormalForms

/-! ## Constraints -/

def applyRecord (s : Subst) (r : RecordTy) : Option RecordTy := do
  return ((← apply s r.toTy).record?).getD r

def applyDemand (s : Subst) : Demand → Option Demand
  | .equal a b => do return .equal (← apply s a) (← apply s b)
  | .subtype a b => do return .subtype (← apply s a) (← apply s b)
  | .ofClass t cls => do return .ofClass (← apply s t) cls
  | .recordShape t => do return .recordShape (← apply s t)
  | .merge result spreads explicit => do
    return .merge (← apply s result) (← applyAll s spreads) (← applyRecord s explicit)
  | .holds t ts => do return .holds (← apply s t) (← applyAll s ts)
  | .exhaustive t ps => do return .exhaustive (← apply s t) ps
  | .branch t ts => do return .branch (← apply s t) (← applyAll s ts)

def applyConstraint (s : Subst) (c : Constraint) : Option Constraint := do
  return { c with demand := ← applyDemand s c.demand }

/-- Applies substitutions one after the other. -/
def applyInTurn (found : List Subst) (c : Constraint) : Option Constraint :=
  found.foldlM (fun c next => applyConstraint next c) c

section Constraints

variable {s : Subst} {c : Constraint}

theorem applyRecord_eq {r : RecordTy} (hs : s.Canonical) (hr : r.toTy.Canonical) :
    applyRecord s r = some (Demand.applyRecord s r) := by
  rw [applyRecord, apply_eq hs hr]
  rfl

theorem applyConstraint_eq (hs : s.Canonical) (hc : ∀ t ∈ c.types, t.Canonical) :
    applyConstraint s c = some (c.apply s) := by
  obtain ⟨d, origin, span⟩ := c
  replace hc : ∀ t ∈ d.types, t.Canonical := hc
  suffices applyDemand s d = some (d.apply s) by rw [applyConstraint, this]; rfl
  cases d with
  | equal a b | subtype a b =>
      rw [applyDemand, apply_eq hs (hc a (by simp [Demand.types])),
        apply_eq hs (hc b (by simp [Demand.types]))]
      rfl
  | ofClass t _ | recordShape t | exhaustive t _ =>
      rw [applyDemand, apply_eq hs (hc t (by simp [Demand.types]))]
      rfl
  | holds t ts | branch t ts =>
      rw [applyDemand, apply_eq hs (hc t (by simp [Demand.types])),
        applyAll_eq hs fun u hu => hc u (by simp [Demand.types, hu])]
      rfl
  | merge result spreads explicit =>
      rw [applyDemand, apply_eq hs (hc result (by simp [Demand.types])),
        applyAll_eq hs fun u hu => hc u (by simp [Demand.types, hu]),
        applyRecord_eq hs (hc explicit.toTy (by simp [Demand.types]))]
      rfl

theorem applyInTurn_eq : ∀ {found : List Subst} {c : Constraint},
    (∀ next ∈ found, next.Canonical) → (∀ t ∈ c.types, t.Canonical) →
    applyInTurn found c = some (found.foldl (fun c next => c.apply next) c)
  | [], _, _, _ => rfl
  | next :: found, c, hfound, hc => by
      obtain ⟨hnext, hfound⟩ := List.forall_mem_cons.1 hfound
      rw [applyInTurn, List.foldlM_cons, applyConstraint_eq hnext hc]
      exact applyInTurn_eq hfound
        (Discipline.Asks.apply (D := normality) (w := (0 : Nat)) hc hnext)

end Constraints

/-! ## Solving -/

def relating {α : Type} (span : Span) (m : Context → Tries Progress α) : Tries Session α :=
  .mk fun s => do
    let (result, progress) ← (m { registry := s.registry, span }).run.run { supply := s.supply }
    return (result, s.afterRelating progress)

def checkClass (limit : Nat) (span : Span) (t : Ty) (cls : String) : Tries Session Unit := do
  if cls = Demand.printable then return
  if cls ≠ Demand.comparable then throw ⟨.typeClassFailure t.render cls true, span⟩
  if !(← isComparable (← get).registry (limit + 1) t) then
    throw ⟨.typeClassFailure t.render cls false, span⟩

def checkExhaustive (span : Span) (t : Ty) (patterns : List Pattern) : Tries Session Unit := do
  let t ← normalize t
  if t.isEnumerable then
    match ← (uncovered? t patterns).run with
    | none | some [] => return
    | some missing => throw ⟨.nonExhaustive missing, span⟩

def discharge (limit : Nat) (c : Constraint) : Tries Session Subst :=
  if c.isTrivial then pure .empty
  else
    match c.demand with
    | .equal a b => relating c.span fun ctx => unify ctx limit a b
    | .subtype a b => relating c.span fun ctx => subtype ctx limit a b
    | .ofClass t cls => do
      checkClass limit c.span t cls
      pure .empty
    | .recordShape t => relating c.span fun ctx => recordShape ctx t
    | .merge result spreads explicit =>
      relating c.span fun ctx => merge ctx (unify ctx limit) result spreads explicit
    | .holds t ts => relating c.span fun ctx => holds ctx limit t ts
    | .branch t ts => relating c.span fun ctx => branch ctx limit t ts
    | .exhaustive t ps => do
      checkExhaustive c.span t ps
      pure .empty

def solveInOrder (limit : Nat) : List Constraint → List Subst → Subst → Steps Session Solution
  | [], _, s => pure { subst := s }
  | c :: cs, found, s => do
    let c ← applyConstraint s (← applyInTurn found c)
    match ← (discharge limit c).run with
    | .error e => pure { subst := s, failure := some e }
    | .ok next =>
      if next.isEmpty then solveInOrder limit cs found s
      else do solveInOrder limit cs (found ++ [next]) (← after next s)

def solve (limit : Nat) (cs : ConstraintSet) : Steps Session Solution :=
  solveInOrder limit cs.simplify.sorted [] .empty

section Solving

variable {α : Type} {t : Ty} {c : Constraint}

theorem runsOk_relating {m' : Context → Tries Progress α} {m : Context → RowTypes.Relate α}
    (span : Span) (h : ∀ ctx : Context, ctx.registry.Canonical → RunsOk (m' ctx) (m ctx)) :
    RunsOk (relating span m') (Session.relating span m) := by
  rintro w σ ⟨hcount, hregistry, -⟩
  have hrun := h { registry := σ.registry, span } (Registry.registers_iff.1 hregistry) w
    { supply := σ.supply } ⟨hcount, False.elim⟩
  show ((m' _).run.run _ >>= _) = _
  rw [hrun]
  rfl

theorem runsOk_get {f' : Session → Tries Session α}
    {f : Session → ExceptT Diagnostic (StateM Session) α}
    (h : ∀ σ : Session, σ.registry.Canonical → RunsOk (f' σ) (f σ)) :
    RunsOk (get >>= f') (get >>= f) :=
  fun w σ hσ => h σ (Registry.registers_iff.1 hσ.2.1) w σ hσ

theorem runsOk_checkClass (limit : Nat) (span : Span) (ht : t.Canonical) (cls : String) :
    RunsOk (checkClass limit span t cls) (Session.checkClass limit span t cls) := by
  unfold checkClass Session.checkClass
  split
  · exact runsOk_pure _
  · split
    · exact runsOk_throw _
    · refine runsOk_get fun σ hσ => runsOk_build (isComparable_eq hσ ht) ?_
      split
      · exact runsOk_throw _
      · exact runsOk_pure _

theorem runsOk_checkExhaustive (span : Span) (ht : t.Canonical) (patterns : List Pattern) :
    RunsOk (checkExhaustive span t patterns) (Session.checkExhaustive span t patterns) := by
  unfold checkExhaustive Session.checkExhaustive
  refine (runs_normalize ht).lift.bind
    (fun w => (Discipline.keeps_normalize (D := normality) ht).lift) fun u _ hu => ?_
  split
  · refine runsOk_build (congrArg OptionT.run (uncovered?_eq hu patterns)) ?_
    match Pattern.uncovered? u patterns with
    | none | some [] => exact runsOk_pure _
    | some (_ :: _) => exact runsOk_throw _
  · exact runsOk_pure _

/-- Meeting a constraint builds nothing from nothing. -/
theorem runsOk_discharge (limit : Nat) (hc : ∀ t ∈ c.types, t.Canonical) :
    RunsOk (discharge limit c) (Session.discharge limit c) := by
  obtain ⟨d, origin, span⟩ := c
  replace hc : ∀ t ∈ d.types, t.Canonical := hc
  unfold discharge Session.discharge
  split
  · exact runsOk_pure _
  · cases d with
    | equal a b =>
        exact runsOk_relating span fun ctx hctx => (runsRel_unify hctx limit).runs
          (hc a (by simp [Demand.types])) (hc b (by simp [Demand.types]))
    | subtype a b =>
        exact runsOk_relating span fun ctx hctx => (runsRel_subtype hctx limit).runs
          (hc a (by simp [Demand.types])) (hc b (by simp [Demand.types]))
    | ofClass t cls =>
        exact (runsOk_checkClass limit span (hc t (by simp [Demand.types])) cls).bind
          (fun _ => Discipline.keepsOk_checkClass limit span t cls) fun _ _ _ => runsOk_pure _
    | recordShape t =>
        exact runsOk_relating span fun ctx hctx =>
          runsOk_recordShape hctx (hc t (by simp [Demand.types]))
    | merge result spreads explicit =>
        exact runsOk_relating span fun ctx hctx => runsOk_merge hctx (runsRel_unify hctx limit)
          (hc result (by simp [Demand.types])) (fun t ht => hc t (by simp [Demand.types, ht]))
          (hc explicit.toTy (by simp [Demand.types]))
    | holds t ts =>
        exact runsOk_relating span fun ctx hctx => runsOk_holds hctx limit
          (hc t (by simp [Demand.types])) fun u hu => hc u (by simp [Demand.types, hu])
    | branch t ts =>
        exact runsOk_relating span fun ctx hctx => runsOk_branch hctx limit
          (hc t (by simp [Demand.types])) fun u hu => hc u (by simp [Demand.types, hu])
    | exhaustive t ps =>
        have ht := hc t (by simp [Demand.types])
        exact (runsOk_checkExhaustive span ht ps).bind
          (fun _ => Discipline.keepsOk_checkExhaustive span ps ht) fun _ _ _ => runsOk_pure _

/-- Each constraint is met under canonical substitutions, so it is canonical when it is met, and so
is what it adds. -/
theorem runs_solveInOrder (limit : Nat) : ∀ {cs : List Constraint} {found : List Subst}
    {s : Subst}, (∀ c ∈ cs, ∀ t ∈ c.types, t.Canonical) → (∀ next ∈ found, next.Canonical) →
    s.Canonical → Runs (solveInOrder limit cs found s) (Session.solveInOrder limit cs found s)
  | [], _, _, _, _, _ => runs_pure _
  | c :: cs, found, s, hcs, hfound, hs => by
      obtain ⟨hc, hcs⟩ := List.forall_mem_cons.1 hcs
      have hmet := Discipline.asks_foldl_apply (D := normality) (w := (0 : Nat)) hfound hc
      have happlied := hmet.apply hs
      rw [solveInOrder, Session.solveInOrder]
      refine runs_build (applyInTurn_eq hfound hc) ?_
      refine runs_build (applyConstraint_eq hs hmet) ?_
      have hruns : Runs (discharge limit _).run (Session.discharge limit _).run :=
        runsOk_discharge limit happlied
      refine hruns.bind (fun _ => Discipline.keepsOk_discharge (D := normality) limit happlied)
        fun r _ hr => ?_
      cases r with
      | error e => exact runs_pure _
      | ok next =>
          have hnext : next.Canonical := hr next rfl
          dsimp only
          split
          · exact runs_solveInOrder limit hcs hfound hs
          · refine runs_build (after_eq hnext hs) (runs_solveInOrder limit hcs ?_ (hnext.after hs))
            exact List.forall_mem_append.2 ⟨hfound, List.forall_mem_singleton.2 hnext⟩

theorem runs_solve (limit : Nat) {cs : ConstraintSet}
    (hcs : ∀ c ∈ cs.items, ∀ t ∈ c.types, t.Canonical) :
    Runs (solve limit cs) (Session.solve limit cs) :=
  runs_solveInOrder limit (fun c hc => hcs c (ConstraintSet.mem_sorted_simplify.1 hc).1) (by simp)
    Subst.canonical_empty

end Solving

/-! ## From canonical types -/

section Sessions

variable {α : Type} {σ τ : Session} {made : normality.Stage → α → Prop}

/-- From a session with canonical types a run goes through, and leaves such a session behind. -/
theorem Runs.in_session {m' : Steps Session α} {m : StateM Session α} (h : Runs m' m)
    (hkeeps : ∀ w, normality.Keeps w made m) (hσ : σ.registry.Canonical) :
    m'.run σ = some (m.run σ) ∧ (∃ w, made w (m.run σ).1) ∧ (m.run σ).2.registry.Canonical := by
  have hat : Discipline.Holding.At (D := normality) σ.supply.count σ :=
    ⟨rfl, Registry.registers_iff.2 hσ, trivial⟩
  obtain ⟨w, -, hτ, hmade⟩ := hkeeps σ.supply.count σ hat
  exact ⟨h _ σ hat, ⟨w, hmade⟩, Registry.registers_iff.1 hτ.2.1⟩

theorem canonical_resolved {rules : ScopeRules} {e : TyExpr} {vars made : Table String TyVar}
    {u : Ty} (hσ : σ.registry.Canonical)
    (h : (Session.resolving vars (Resolve.resolve σ.registry rules e)).run σ =
      (.ok (u, made), τ)) : u.Canonical := by
  have hkeeps : normality.KeepsOk σ.supply.count _
      (Session.resolving vars (Resolve.resolve σ.registry rules e)) :=
    Discipline.keepsOk_resolving (fun _ _ => Ty.Canonical.var _) Discipline.keepsOk_resolve
  obtain ⟨w, -, -, hout⟩ := hkeeps σ ⟨rfl, Registry.registers_iff.2 hσ, trivial⟩
  exact (hout (u, made) (congrArg Prod.fst h)).1

/-- What is made of canonical types is canonical, and nothing is built from nothing on the way:
substituting, unfolding, expanding, normalising, resolving, instantiating, narrowing, refining and
solving.  What a session remembers stays canonical, so this is true again afterwards. -/
theorem built_canonical {s : Subst} {t body : Ty} {v : TyVar} {d : Definition} {args : List Ty}
    {scheme : Scheme} {cs : ConstraintSet}
    (hs : ∀ id u, s.get? id = some u → u.Canonical) (ht : t.Canonical)
    (hbody : (Ty.mu v body).Canonical) (hd : d.body.Canonical) (hargs : ∀ u ∈ args, u.Canonical)
    (hscheme : scheme.body.Canonical) (hσ : σ.registry.Canonical)
    (hcs : ∀ c ∈ cs.items, ∀ u ∈ c.types, u.Canonical) (p : Pattern) (e : TyExpr)
    (rules : ScopeRules) (vars : Table String TyVar) (level : Int) (supply : Supply)
    (limit : Nat) :
    (apply s t = some (s.apply t) ∧ (s.apply t).Canonical)
    ∧ (unfold v body = some (.unfold v body) ∧ (Ty.unfold v body).Canonical)
    ∧ (expand? d args = some (d.expand? args) ∧ ∀ u, d.expand? args = some u → u.Canonical)
    ∧ ((normalize t).run σ = some ((Registry.normalize t).run σ)
      ∧ ((Registry.normalize t).run σ).1.Canonical
      ∧ ((Registry.normalize t).run σ).2.registry.Canonical)
    ∧ (∀ u made τ, (Session.resolving vars (Resolve.resolve σ.registry rules e)).run σ =
        (.ok (u, made), τ) → u.Canonical)
    ∧ (instantiate scheme level supply = some (scheme.instantiate level supply)
      ∧ (scheme.instantiate level supply).1.Canonical)
    ∧ (narrow t p = some (t.narrow p) ∧ (t.narrow p).Canonical)
    ∧ (refine t p = some (p.refine t) ∧ ∀ entry ∈ p.refine t, entry.2.Canonical)
    ∧ ((solve limit cs).run σ = some ((Session.solve limit cs).run σ)
      ∧ (∀ entry ∈ ((Session.solve limit cs).run σ).1.subst.bindings, entry.2.ty.Canonical)
      ∧ ((Session.solve limit cs).run σ).2.registry.Canonical) := by
  have hnormalized := (runs_normalize ht).in_session
    (fun w => Discipline.keeps_normalize (D := normality) (w := w) ht) hσ
  have hsolved := (runs_solve limit hcs).in_session
    (fun w => Discipline.keeps_solve (D := normality) (w := w) limit hcs) hσ
  obtain ⟨hnormalize, ⟨_, hnormal⟩, hremembered⟩ := hnormalized
  obtain ⟨hsolve, ⟨_, hfound⟩, hkept⟩ := hsolved
  obtain ⟨_, -, -, hinstance⟩ := Discipline.exists_instantiate (D := normality)
    (w := supply.count) ⟨fun _ _ => .inl trivial, hscheme⟩ level rfl
  refine ⟨apply_of_get? ht hs, ⟨unfold_eq hbody, hbody.unfold⟩,
    ⟨expand?_eq hd hargs, fun u => canonical_expand? hd hargs⟩,
    ⟨hnormalize, hnormal, hremembered⟩, fun u made τ => canonical_resolved hσ,
    ⟨instantiate_eq hscheme level supply, hinstance⟩, ⟨narrow_eq ht p, ht.narrow p⟩,
    ⟨refine_eq ht p, Ty.Canonical.inherited.refine ht p⟩,
    ⟨hsolve, fun entry hentry => canonical_of_binds (hfound entry hentry).2, hkept⟩⟩

end Sessions

/-- A pair of alternatives that are no unions and differ. -/
theorem canonical_pair {a b : Ty} (ha : a.Canonical) (hb : b.Canonical)
    (hflat : ∀ us, a ≠ .union us ∧ b ≠ .union us) (hdistinct : a.equiv b = false) :
    (Ty.union [a, b]).Canonical := by
  refine .union (by simp) (by simp [ha, hb]) ?_ (by simp [hdistinct])
  simp only [List.mem_cons, List.not_mem_nil, or_false, forall_eq_or_imp, forall_eq]
  exact ⟨fun us => (hflat us).1, fun us => (hflat us).2⟩

/-- `Maybe[a]` is `a | ()`. -/
def maybe : Definition where
  name := "Maybe"
  params := [⟨1, 0⟩]
  body := .union [.var ⟨1, 0⟩, .tuple []]

/-- A registry that knows `Maybe`. -/
def maybeRegistry : Registry where
  definitions := [("Maybe", maybe)]

/-- Something is an integer that may be there. -/
def maybeInt : Constraint := .equal (.var ⟨1, 0⟩) (.named "Maybe" [.prim "Int"]) .written {}

theorem built_canonical_nested :
    apply (.single ⟨1, 0⟩ (.union [.prim "Int", .prim "String"]))
        (.union [.var ⟨1, 0⟩, .prim "Bool"]) =
      some (.union [.prim "Int", .prim "String", .prim "Bool"])
    ∧ ((normalize (.union [.var ⟨1, 0⟩, .prim "Bool"])).run { registry := maybeRegistry }).isSome
    ∧ ((solve 5 (.ofList [maybeInt])).run { registry := maybeRegistry }).isSome := by
  have hprims : (Ty.union [.prim "Int", .prim "String"]).Canonical :=
    canonical_pair (.prim _) (.prim _) (by simp) (by decide +kernel)
  have hmaybe : maybe.body.Canonical :=
    canonical_pair (.var _) (.tuple (by simp)) (by simp) (by decide +kernel)
  have ht : (Ty.union [.var ⟨1, 0⟩, .prim "Bool"]).Canonical :=
    canonical_pair (.var _) (.prim _) (by simp) (by decide +kernel)
  have hbody : (Ty.mu ⟨2, 0⟩ (.tuple [])).Canonical := .mu _ (.tuple (by simp))
  have hargs : ∀ u ∈ [Ty.prim "Int"], u.Canonical := List.forall_mem_singleton.2 (.prim _)
  have hscheme : (⟨[⟨1, 0⟩], .var ⟨1, 0⟩⟩ : Scheme).body.Canonical := .var _
  have hsingle : (Subst.single ⟨1, 0⟩ (.union [.prim "Int", .prim "String"])).Canonical :=
    Discipline.sends_single (.inl ⟨trivial, hprims⟩)
  have hregistry : ({ registry := maybeRegistry } : Session).registry.Canonical :=
    ⟨List.forall_mem_singleton.2 hmaybe, by rintro entry ⟨⟩⟩
  have hcs : ∀ c ∈ (ConstraintSet.ofList [maybeInt]).items, ∀ u ∈ c.types, u.Canonical := by
    rw [show (ConstraintSet.ofList _).items = _ from
      ConstraintSet.items_foldl_add (s := .empty) (by simp [ConstraintSet.empty])]
    intro c hc u hu
    rw [List.mem_singleton.1 hc] at hu
    rcases List.mem_pair.1 hu with rfl | rfl
    · exact .var _
    · exact .named _ hargs
  obtain ⟨happly, -, -, hnormalize, -, -, -, -, hsolve⟩ :=
    built_canonical (fun id u hu => canonical_of_binds (hsingle.get? hu)) ht hbody hmaybe hargs
      hscheme hregistry hcs (.wildcard {}) (.name {} "Int" []) {} [] 0 {} 5
  exact ⟨happly.1.trans (by cbv), by rw [hnormalize.1]; rfl, by rw [hsolve.1]; rfl⟩

end Must

end RowTypes
