import RowTypes.Proofs.MustBuild

/-!
# Relating types without building from nothing

What relates types builds unions and intersections on the way: by substituting and unfolding all
the time, and where types are joined.  Each function here does what the one of its name does, but
stops where something would have to be built from nothing.

A run that goes on from canonical types never stops, and does what the run that cannot stop does.
It is shown for each function from the functions that it calls; what these come to is canonical
because being canonical is a discipline.
-/

namespace RowTypes

namespace Must

/-- Runs that may stop for good. -/
abbrev Steps (S : Type) := StateT S Option

/-- Runs that may fail, and may stop for good. -/
abbrev Tries (S : Type) := ExceptT Diagnostic (Steps S)

section Runs

variable {S α β : Type}

/-- A run that builds nothing at all. -/
def steps (m : StateM S α) : Steps S α := fun σ => some (m.run σ)

/-- A run that may fail, and builds nothing at all. -/
def tries (m : ExceptT Diagnostic (StateM S) α) : Tries S α := .mk (steps m.run)

variable [normality.Holding S]

/-- A run does not stop, and does what another run does. -/
def Runs (m' : Steps S α) (m : StateM S α) : Prop :=
  ∀ (w : normality.Stage) (σ : S), Discipline.Holding.At w σ → m'.run σ = some (m.run σ)

/-- A run that may fail does not stop, and does what another run does. -/
def RunsOk (m' : Tries S α) (m : ExceptT Diagnostic (StateM S) α) : Prop := Runs m'.run m.run

theorem runs_steps (m : StateM S α) : Runs (steps m) m := fun _ _ _ => rfl

theorem runsOk_tries (m : ExceptT Diagnostic (StateM S) α) : RunsOk (tries m) m :=
  runs_steps m.run

theorem runs_pure (a : α) : Runs (S := S) (pure a) (pure a) := fun _ _ _ => rfl

variable {made : normality.Stage → α → Prop}

theorem Runs.bind {m' : Steps S α} {m : StateM S α} {f' : α → Steps S β} {f : α → StateM S β}
    (h : Runs m' m) (hkeeps : ∀ w, normality.Keeps w made m)
    (hf : ∀ a w, made w a → Runs (f' a) (f a)) : Runs (m' >>= f') (m >>= f) := by
  intro w σ hσ
  obtain ⟨w', -, hτ, ha⟩ := hkeeps w σ hσ
  show (m'.run σ >>= fun out => (f' out.1).run out.2) = _
  rw [h w σ hσ]
  exact hf _ w' ha w' _ hτ

/-- A step that only builds goes on with what it builds. -/
theorem runs_build {o : Option α} {a : α} {f' : α → Steps S β} {m : StateM S β} (ho : o = some a)
    (h : Runs (f' a) m) : Runs (liftM o >>= f') m := by
  subst ho
  exact h

theorem runsOk_pure (a : α) : RunsOk (S := S) (pure a) (pure a) := runs_pure _

theorem runsOk_throw (e : Diagnostic) : RunsOk (S := S) (α := α) (throw e) (throw e) :=
  runs_pure _

theorem RunsOk.bind {m' : Tries S α} {m : ExceptT Diagnostic (StateM S) α} {f' : α → Tries S β}
    {f : α → ExceptT Diagnostic (StateM S) β} (h : RunsOk m' m)
    (hkeeps : ∀ w, normality.KeepsOk w made m) (hf : ∀ a w, made w a → RunsOk (f' a) (f a)) :
    RunsOk (m' >>= f') (m >>= f) := by
  unfold RunsOk
  rw [ExceptT.run_bind, ExceptT.run_bind]
  refine Runs.bind h hkeeps fun r w hr => ?_
  cases r with
  | error e => exact runs_pure _
  | ok a => exact hf a w (hr a rfl)

theorem runsOk_build {o : Option α} {a : α} {f' : α → Tries S β}
    {m : ExceptT Diagnostic (StateM S) β} (ho : o = some a) (h : RunsOk (f' a) m) :
    RunsOk (liftM o >>= f') m := by
  subst ho
  exact h

theorem runsOk_built {o : Option α} {a : α} (ho : o = some a) :
    RunsOk (S := S) (liftM o) (pure a) := by
  subst ho
  exact runsOk_pure a

theorem Runs.lift {m' : Steps S α} {m : StateM S α} (h : Runs m' m) :
    RunsOk (liftM m' : Tries S α) (liftM m) := by
  intro w σ hσ
  show (m'.run σ >>= fun out => some (Except.ok out.1, out.2)) = _
  rw [h w σ hσ]
  rfl

end Runs

/-! ## Steps of relating types -/

/-- A way to relate two types that may stop for good. -/
abbrev Relation := Ty → Ty → Tries Progress Subst

def attempt {α : Type} (m : Tries Progress α) : Steps Progress (Option α) := fun p => do
  match ← m.run.run p with
  | (.ok a, q) => return (some a, { q with assumed := p.assumed })
  | (.error _, q) => return (none, { q with assumed := p.assumed })

def firstOf {α : Type} (m : Ty → Tries Progress α) : List Ty → Steps Progress (Option α)
  | [] => pure none
  | t :: ts => do
    match ← attempt (m t) with
    | some a => pure (some a)
    | none => firstOf m ts

def thread (rel : Relation) : List (Ty × Ty) → Subst → Tries Progress Subst
  | [], s => pure s
  | (a, b) :: pairs, s => do
    let next ← rel (← apply s a) (← apply s b)
    thread rel pairs (← after next s)

def orElseThrow {α : Type} (m : Tries Progress α) (d : Diagnostic → Diagnostic) :
    Tries Progress α := tryCatch m fun e => throw (d e)

def expand (ctx : Context) (name : String) (args : List Ty) : Tries Progress Ty :=
  match ctx.registry.lookup? name with
  | none => throw ⟨.undefinedConstructor name, ctx.span⟩
  | some d => do
    match ← expand? d args with
    | some t => pure t
    | none =>
      throw ⟨.invalidTyExpr (Ty.named name args).render "wrong number of type arguments", ctx.span⟩

section Steps

variable {ctx : Context} {α : Type} {rel' : Relation} {rel : RowTypes.Relation} {a b t : Ty}

theorem runs_attempt {m' : Tries Progress α} {m : RowTypes.Relate α} (h : RunsOk m' m) :
    Runs (attempt m') (Relate.attempt m) := by
  intro w p hp
  show (m'.run.run p >>= _) = some (Relate.attempt m p)
  rw [h w p hp, Relate.attempt]
  have hrun : m.run p = StateT.run (ExceptT.run m) p := rfl
  rw [hrun]
  rcases StateT.run (ExceptT.run m) p with ⟨r, q⟩
  cases r <;> rfl

theorem runsOk_orElseThrow {m' : Tries Progress α} {m : RowTypes.Relate α} (h : RunsOk m' m)
    (d : Diagnostic → Diagnostic) : RunsOk (orElseThrow m' d) (Relate.orElseThrow m d) := by
  intro w p hp
  show (m'.run.run p >>= _) = some ((Relate.orElseThrow m d).run p)
  rw [h w p hp, Relate.run_orElseThrow]
  have hrun : m.run p = StateT.run (ExceptT.run m) p := rfl
  rw [hrun]
  rcases StateT.run (ExceptT.run m) p with ⟨r, q⟩
  cases r <;> rfl

/-- Two relations go together: from canonical types both run, do the same, and find canonical
substitutions. -/
structure RunsRel (rel' : Relation) (rel : RowTypes.Relation) : Prop where
  keeps : normality.KeepsRel (0 : Nat) rel
  runs : ∀ {a b : Ty}, a.Canonical → b.Canonical → RunsOk (rel' a b) (rel a b)

theorem RunsRel.keepsOk (h : RunsRel rel' rel) (ha : a.Canonical) (hb : b.Canonical)
    (w : normality.Stage) : normality.KeepsOk w normality.Sends (rel a b) :=
  h.keeps (Nat.zero_le w) ha hb

theorem runs_firstOf {m' : Ty → Tries Progress α} {m : Ty → RowTypes.Relate α}
    {made : normality.Stage → α → Prop} : ∀ {ts : List Ty}, (∀ t ∈ ts, RunsOk (m' t) (m t)) →
    (∀ t ∈ ts, ∀ w, normality.KeepsOk w made (m t)) → Runs (firstOf m' ts) (Relate.firstOf m ts)
  | [], _, _ => runs_pure none
  | t :: ts, h, hkeeps => by
      obtain ⟨ht, hts⟩ := List.forall_mem_cons.1 h
      obtain ⟨hkeep, hkeeps⟩ := List.forall_mem_cons.1 hkeeps
      rw [firstOf, Relate.firstOf]
      refine (runs_attempt ht).bind (fun w => Discipline.keeps_attempt (hkeep w)) fun o _ _ => ?_
      cases o with
      | some a => exact runs_pure _
      | none => exact runs_firstOf hts hkeeps

theorem runsOk_thread (h : RunsRel rel' rel) : ∀ {pairs : List (Ty × Ty)} {s : Subst},
    (∀ pair ∈ pairs, pair.1.Canonical ∧ pair.2.Canonical) → s.Canonical →
    RunsOk (thread rel' pairs s) (Relate.thread rel pairs s)
  | [], s, _, _ => runsOk_pure s
  | (a, b) :: pairs, s, hpairs, hs => by
      obtain ⟨⟨ha, hb⟩, hrest⟩ := List.forall_mem_cons.1 hpairs
      rw [thread, Relate.thread]
      refine runsOk_build (apply_eq hs ha) (runsOk_build (apply_eq hs hb) ?_)
      refine (h.runs (hs.apply ha) (hs.apply hb)).bind (h.keepsOk (hs.apply ha) (hs.apply hb))
        fun next w hnext => ?_
      refine runsOk_build (after_eq hnext hs) ?_
      exact runsOk_thread h hrest (hnext.after hs)

theorem runsOk_expand (hctx : ctx.registry.Canonical) {name : String} {args : List Ty}
    (hargs : ∀ t ∈ args, t.Canonical) :
    RunsOk (expand ctx name args) (Relate.expand ctx name args) := by
  unfold expand Relate.expand
  cases hd : ctx.registry.lookup? name with
  | none => exact runsOk_throw _
  | some d =>
      refine runsOk_build (expand?_eq (hctx.lookup? hd) hargs) ?_
      dsimp only
      cases d.expand? args with
      | none => exact runsOk_throw _
      | some t => exact runsOk_pure t

theorem keepsOk_expand (hctx : ctx.registry.Canonical) {name : String} {args : List Ty}
    (hargs : ∀ t ∈ args, t.Canonical) (w : normality.Stage) :
    normality.KeepsOk w normality.Ok (Relate.expand ctx name args) :=
  Discipline.keepsOk_expand (Registry.registers_iff.2 hctx) hargs

end Steps

/-! ## Records -/

def pick (s : Subst) (r : RecordTy) (names : List String) : Option (List (String × Ty)) := do
  return Table.ofList (← applyFields s (names.filterMap fun name =>
    (r.field? name).map fun t => (name, t)))

def extendRow (ctx : Context) (s : Subst) (row : TyVar) (fields : List (String × Ty))
    (behind : Option TyVar) : Tries Progress Subst := do
  let bound ← tries (Relate.bindVar ctx row (.record fields behind))
  return ← after bound s

def unifyRows (ctx : Context) (s : Subst) (a b : RecordTy) (onlyA onlyB : List String) :
    Tries Progress Subst :=
  match a.rowUnder s, b.rowUnder s with
  | none, none =>
    if onlyA.isEmpty && onlyB.isEmpty then pure s
    else throw (Relate.fieldMismatch ctx s a b onlyA onlyB)
  | some row, none => do
    if onlyA.isEmpty then extendRow ctx s row (← pick s b onlyB) none
    else throw (Relate.fieldMismatch ctx s a b onlyA onlyB)
  | none, some row => do
    if onlyB.isEmpty then extendRow ctx s row (← pick s a onlyA) none
    else throw (Relate.fieldMismatch ctx s a b onlyA onlyB)
  | some rowA, some rowB =>
    if rowA.id = rowB.id then
      if onlyA.isEmpty && onlyB.isEmpty then pure s
      else throw (Relate.fieldMismatch ctx s a b onlyA onlyB)
    else do
      let behind ← tries (Relate.fresh (min rowA.level rowB.level))
      let s ← extendRow ctx s rowA (← pick s b onlyB) (some behind)
      extendRow ctx s rowB (← pick s a onlyA) (some behind)

def unifyRecords (ctx : Context) (unify : Relation) (a b : RecordTy) : Tries Progress Subst := do
  let s ← thread unify (a.sharedFields b) .empty
  if a.rowGrows s || b.rowGrows s then
    let next ← unify (← apply s a.toTy) (← apply s b.toTy)
    return ← after next s
  else
    unifyRows ctx s a b (Text.Names.diff a.names b.names) (Text.Names.diff b.names a.names)

section Records

variable {ctx : Context} {unify' : Relation} {unify : RowTypes.Relation} {t : Ty} {s : Subst}

theorem canonical_field {r : RecordTy} {name : String} (hr : r.toTy.Canonical)
    (h : r.field? name = some t) : t.Canonical :=
  Discipline.ok_field (D := normality) (w := (0 : Nat)) hr h

theorem pick_eq {r : RecordTy} (hr : r.toTy.Canonical) (hs : s.Canonical) (names : List String) :
    pick s r names = some (r.pick s names) := by
  have hfields : ∀ f ∈ names.filterMap fun name => (r.field? name).map fun t => (name, t),
      f.2.Canonical := by
    intro f hf
    obtain ⟨name, -, hname⟩ := List.mem_filterMap.1 hf
    obtain ⟨t, ht, rfl⟩ := Option.map_eq_some_iff.1 hname
    exact canonical_field hr ht
  rw [pick, applyFields_of_forall fun f hf => apply_eq hs (hfields f hf), RecordTy.pick]
  simp [List.map_filterMap, Function.comp_def]

theorem runsOk_extendRow {row : TyVar} {fields : List (String × Ty)} {behind : Option TyVar}
    (hs : s.Canonical) (h : (Ty.record fields behind).Canonical) :
    RunsOk (extendRow ctx s row fields behind) (Relate.extendRow ctx s row fields behind) := by
  refine (runsOk_tries (Relate.bindVar ctx row (.record fields behind))).bind
    (fun w => Discipline.keepsOk_bindVar (.inl ⟨trivial, h⟩)) fun bound w hbound => ?_
  exact runsOk_built (after_eq hbound hs)

theorem canonical_picked {r : RecordTy} (hr : r.toTy.Canonical) (hs : s.Canonical)
    (names : List String) (behind : Option TyVar) :
    (Ty.record (r.pick s names) behind).Canonical :=
  Discipline.ok_picked (D := normality) (w := (0 : Nat)) hr hs names fun _ _ => trivial

/-- A row takes in fields that are picked from a record. -/
theorem runsOk_extendPicked {r : RecordTy} (hr : r.toTy.Canonical) (hs : s.Canonical)
    (names : List String) (row : TyVar) (behind : Option TyVar) :
    RunsOk (do extendRow ctx s row (← pick s r names) behind)
      (Relate.extendRow ctx s row (r.pick s names) behind) :=
  runsOk_build (pick_eq hr hs names) (runsOk_extendRow hs (canonical_picked hr hs names behind))

theorem runsOk_unifyRows {a b : RecordTy} (ha : a.toTy.Canonical) (hb : b.toTy.Canonical)
    (hs : s.Canonical) (onlyA onlyB : List String) :
    RunsOk (unifyRows ctx s a b onlyA onlyB) (Relate.unifyRows ctx s a b onlyA onlyB) := by
  unfold unifyRows Relate.unifyRows
  cases a.rowUnder s with
  | none =>
      cases b.rowUnder s with
      | none =>
          dsimp only
          split
          · exact runsOk_pure s
          · exact runsOk_throw _
      | some row =>
          dsimp only
          split
          · exact runsOk_extendPicked ha hs onlyA row none
          · exact runsOk_throw _
  | some rowA =>
      cases b.rowUnder s with
      | none =>
          dsimp only
          split
          · exact runsOk_extendPicked hb hs onlyB rowA none
          · exact runsOk_throw _
      | some rowB =>
          dsimp only
          split
          · split
            · exact runsOk_pure s
            · exact runsOk_throw _
          · refine (runsOk_tries (Relate.fresh _)).bind
              (fun w => Discipline.keepsOk_freshRow _) fun behind _ _ => ?_
            have hkeeps : ∀ w, normality.KeepsOk w normality.Sends
                (Relate.extendRow ctx s rowA (b.pick s onlyB) (some behind)) := fun w =>
              Discipline.keepsOk_extendRow trivial hs (canonical_picked hb hs onlyB _)
            refine runsOk_build (pick_eq hb hs onlyB) ?_
            refine (runsOk_extendRow hs (canonical_picked hb hs onlyB _)).bind hkeeps
              fun s' w hs' => ?_
            exact runsOk_extendPicked ha hs' onlyA rowB (some behind)

theorem runsOk_unifyRecords (h : RunsRel unify' unify) {a b : RecordTy}
    (ha : a.toTy.Canonical) (hb : b.toTy.Canonical) :
    RunsOk (unifyRecords ctx unify' a b) (Relate.unifyRecords ctx unify a b) := by
  have hshared : ∀ pair ∈ a.sharedFields b, pair.1.Canonical ∧ pair.2.Canonical :=
    Discipline.ok_sharedFields (D := normality) (w := (0 : Nat)) ha hb
  unfold unifyRecords Relate.unifyRecords
  refine (runsOk_thread h hshared Subst.canonical_empty).bind (fun w => Discipline.keepsOk_thread
    h.keeps (Nat.zero_le w) hshared Discipline.sends_empty) fun s w hs => ?_
  replace hs : s.Canonical := hs
  split
  · refine runsOk_build (apply_eq hs ha) (runsOk_build (apply_eq hs hb) ?_)
    refine (h.runs (hs.apply ha) (hs.apply hb)).bind (h.keepsOk (hs.apply ha) (hs.apply hb))
      fun next w' hnext => ?_
    exact runsOk_built (after_eq hnext hs)
  · exact runsOk_unifyRows ha hb hs _ _

end Records

/-! ## Unification -/

def absorb (ctx : Context) (unify : Relation) (t : Ty) (alts : List Ty) :
    Tries Progress Subst := do
  match ← firstOf (unify t) alts with
  | some s => pure s
  | none => throw ⟨.unionFailure t.render (alts.map Ty.render), ctx.span⟩

def absorbAll (ctx : Context) (unify : Relation) (target : Ty) :
    List Ty → Subst → Tries Progress Subst
  | [], s => pure s
  | alt :: alts, s => do
    let target' ← apply s target
    let alt ← apply s alt
    let next ← match target' with
      | .union ts => absorb ctx unify alt ts
      | t => unify alt t
    absorbAll ctx unify target alts (← after next s)

def unifyUnions (ctx : Context) (unify : Relation) (as bs : List Ty) : Tries Progress Subst :=
  orElseThrow
    (do
      let s ← absorbAll ctx unify (.union bs) as .empty
      absorbAll ctx unify (.union as) bs s)
    fun _ => Relate.mismatch ctx (.union as) (.union bs) "union alternatives differ"

def unifyWithMembers (ctx : Context) (unify : Relation) (t : Ty) (members : List Ty) :
    Tries Progress Subst :=
  orElseThrow (thread unify (members.map fun m => (t, m)) .empty)
    fun _ => ⟨.intersectionFailure t.render (members.map Ty.render), ctx.span⟩

/-- Expands the one type or the other, references before recursive types. -/
def unifyExpanded (ctx : Context) (unify : Relation) (a b : Ty) : Tries Progress Subst :=
  match a, b with
  | .named name args, b => do unify (← expand ctx name args) b
  | a, .named name args => do unify a (← expand ctx name args)
  | .mu v t, b => do unify (← unfold v t) b
  | a, .mu v t => do unify a (← unfold v t)
  | a, b => unify a b

def unifyIndirect (ctx : Context) (unify : Relation) (a b : Ty) : Tries Progress Subst := do
  if ← tries (Relate.assume a b) then return .empty
  if let some pairs := Relate.sameNameArgs? a b then
    if let some s ← attempt (thread unify pairs .empty) then return s
  unifyExpanded ctx unify a b

def unifyShapes (ctx : Context) (unify : Relation) (a b : Ty) : Tries Progress Subst :=
  match a, b with
  | .union as, .union bs => unifyUnions ctx unify as bs
  | a, .union bs => absorb ctx unify a bs
  | a, .inter ms => unifyWithMembers ctx unify a ms
  | .union as, b => absorb ctx unify b as
  | .inter ms, b => unifyWithMembers ctx unify b ms
  | .prim "String", .lit _ => pure .empty
  | .lit _, .prim "String" => pure .empty
  | .fn p r, .fn p' r' => thread unify [(p, p'), (r, r')] .empty
  | .tuple as, .tuple bs =>
    if as.length = bs.length then thread unify (as.zip bs) .empty
    else throw (Relate.mismatch ctx (.tuple bs) (.tuple as) "tuples of different sizes")
  | .record fs row, .record gs row' => unifyRecords ctx unify ⟨fs, row⟩ ⟨gs, row'⟩
  | a, b => throw (Relate.mismatch ctx b a "")

def unifyStep (ctx : Context) (unify : Relation) (a b : Ty) : Tries Progress Subst :=
  if a.equiv b then pure .empty
  else
    match a, b with
    | .var v, b => tries (Relate.bindVar ctx v b)
    | a, .var v => tries (Relate.bindVar ctx v a)
    | a, b =>
      if Relate.isIndirect a || Relate.isIndirect b then unifyIndirect ctx unify a b
      else unifyShapes ctx unify a b

def unify (ctx : Context) : Nat → Relation
  | 0, a, b => tries (Relate.exceed ctx a b)
  | n + 1, a, b => unifyStep ctx (unify ctx n) a b

section Unification

variable {ctx : Context} {α : Type} {unify' : Relation} {unify : RowTypes.Relation} {a b t : Ty}
  {ts : List Ty}

theorem runsOk_absorb (h : RunsRel unify' unify) (ht : t.Canonical)
    (hts : ∀ t ∈ ts, t.Canonical) :
    RunsOk (absorb ctx unify' t ts) (Relate.absorb ctx unify t ts) := by
  unfold absorb Relate.absorb
  refine (runs_firstOf (fun u hu => h.runs ht (hts u hu)) fun u hu =>
    h.keepsOk ht (hts u hu)).lift.bind (fun w => (Discipline.keeps_firstOf fun u hu w' _ =>
      h.keepsOk ht (hts u hu) w').lift) fun o _ _ => ?_
  cases o with
  | some s => exact runsOk_pure s
  | none => exact runsOk_throw _

theorem runsOk_absorbAll (h : RunsRel unify' unify) {target : Ty} (htarget : target.Canonical) :
    ∀ {alts : List Ty} {s : Subst}, (∀ alt ∈ alts, alt.Canonical) → s.Canonical →
      RunsOk (absorbAll ctx unify' target alts s) (Relate.absorbAll ctx unify target alts s)
  | [], s, _, _ => runsOk_pure s
  | alt :: alts, s, halts, hs => by
      obtain ⟨halt, halts⟩ := List.forall_mem_cons.1 halts
      have hrest : ∀ (next : Subst) (w : normality.Stage), normality.Sends w next →
          RunsOk (do absorbAll ctx unify' target alts (← after next s))
            (Relate.absorbAll ctx unify target alts (next.after s)) := fun next w hnext =>
        runsOk_build (after_eq hnext hs) (runsOk_absorbAll h htarget halts (hnext.after hs))
      have halt' := hs.apply halt
      have htarget' := hs.apply htarget
      rw [absorbAll, Relate.absorbAll]
      refine runsOk_build (apply_eq hs htarget) (runsOk_build (apply_eq hs halt) ?_)
      cases hshape : s.apply target with
      | union ts =>
          rw [hshape] at htarget'
          exact (runsOk_absorb h halt' htarget'.alternatives).bind (fun w =>
            Discipline.keepsOk_absorb h.keeps (Nat.zero_le w) halt' htarget'.alternatives) hrest
      | _ =>
          rw [hshape] at htarget'
          exact (h.runs halt' htarget').bind (h.keepsOk halt' htarget') hrest

theorem runsOk_unifyUnions (h : RunsRel unify' unify) {as bs : List Ty}
    (has : (Ty.union as).Canonical) (hbs : (Ty.union bs).Canonical) :
    RunsOk (unifyUnions ctx unify' as bs) (Relate.unifyUnions ctx unify as bs) := by
  refine runsOk_orElseThrow ?_ _
  refine (runsOk_absorbAll h hbs has.alternatives Subst.canonical_empty).bind (fun w =>
    Discipline.keepsOk_absorbAll h.keeps (Nat.zero_le w) hbs has.alternatives
      Discipline.sends_empty) fun s w hs => ?_
  exact runsOk_absorbAll h has hbs.alternatives hs

theorem runsOk_unifyWithMembers (h : RunsRel unify' unify) (ht : t.Canonical)
    (hts : ∀ t ∈ ts, t.Canonical) :
    RunsOk (unifyWithMembers ctx unify' t ts) (Relate.unifyWithMembers ctx unify t ts) := by
  refine runsOk_orElseThrow (runsOk_thread h (fun pair hpair => ?_) Subst.canonical_empty) _
  obtain ⟨m, hm, rfl⟩ := List.mem_map.1 hpair
  exact ⟨ht, hts m hm⟩

theorem canonical_zip {as bs : List Ty} (has : (Ty.tuple as).Canonical)
    (hbs : (Ty.tuple bs).Canonical) :
    ∀ pair ∈ as.zip bs, pair.1.Canonical ∧ pair.2.Canonical := fun _ hpair =>
  ⟨has.elems _ (List.of_mem_zip hpair).1, hbs.elems _ (List.of_mem_zip hpair).2⟩

theorem runsOk_unifyShapes (h : RunsRel unify' unify) (ha : a.Canonical) (hb : b.Canonical) :
    RunsOk (unifyShapes ctx unify' a b) (Relate.unifyShapes ctx unify a b) := by
  fun_cases Relate.unifyShapes ctx unify a b <;> simp only [unifyShapes]
  · exact runsOk_unifyUnions h ha hb
  · exact runsOk_absorb h ha hb.alternatives
  · exact runsOk_unifyWithMembers h ha hb.members
  · exact runsOk_absorb h hb ha.alternatives
  · exact runsOk_unifyWithMembers h hb ha.members
  · exact runsOk_pure _
  · exact runsOk_pure _
  · obtain ⟨hp, hr⟩ := normality.fn (w := (0 : Nat)) |>.1 ha
    obtain ⟨hp', hr'⟩ := normality.fn (w := (0 : Nat)) |>.1 hb
    exact runsOk_thread h (List.forall_mem_cons.2 ⟨⟨hp, hp'⟩, List.forall_mem_singleton.2 ⟨hr, hr'⟩⟩)
      Subst.canonical_empty
  · next hlen =>
      rw [if_pos hlen]
      exact runsOk_thread h (canonical_zip ha hb) Subst.canonical_empty
  · next hlen =>
      rw [if_neg hlen]
      exact runsOk_throw _
  · exact runsOk_unifyRecords h ha hb
  · exact runsOk_throw _

/-- How unification goes on once it is clear that a type has to be expanded. -/
def unifyingExpanded (ctx : Context) (unify : RowTypes.Relation) (a b : Ty) :
    RowTypes.Relate Subst :=
  match a, b with
  | .named name args, b => do unify (← Relate.expand ctx name args) b
  | a, .named name args => do unify a (← Relate.expand ctx name args)
  | .mu v t, b => unify (.unfold v t) b
  | a, .mu v t => unify a (.unfold v t)
  | a, b => unify a b

theorem runsOk_unifyExpanded (hctx : ctx.registry.Canonical) (h : RunsRel unify' unify)
    (ha : a.Canonical) (hb : b.Canonical) :
    RunsOk (unifyExpanded ctx unify' a b) (unifyingExpanded ctx unify a b) := by
  fun_cases unifyingExpanded ctx unify a b <;> simp only [unifyExpanded]
  · exact (runsOk_expand hctx ha.args).bind (keepsOk_expand hctx ha.args) fun t _ ht => h.runs ht hb
  · exact (runsOk_expand hctx hb.args).bind (keepsOk_expand hctx hb.args) fun t _ ht => h.runs ha ht
  · exact runsOk_build (unfold_eq ha) (h.runs ha.unfold hb)
  · exact runsOk_build (unfold_eq hb) (h.runs ha hb.unfold)
  · exact h.runs ha hb

theorem runsOk_assume (a b : Ty) {f' : Bool → Tries Progress α} {f : Bool → RowTypes.Relate α}
    (hf : ∀ assumed, RunsOk (f' assumed) (f assumed)) :
    RunsOk (tries (Relate.assume a b) >>= f') (Relate.assume a b >>= f) :=
  (runsOk_tries _).bind (fun _ => Discipline.keepsOk_assume a b) fun assumed _ _ => hf assumed

theorem runsOk_unifyIndirect (hctx : ctx.registry.Canonical) (h : RunsRel unify' unify)
    (ha : a.Canonical) (hb : b.Canonical) :
    RunsOk (unifyIndirect ctx unify' a b) (Relate.unifyIndirect ctx unify a b) := by
  unfold unifyIndirect Relate.unifyIndirect
  refine runsOk_assume a b fun assumed => ?_
  split
  · exact runsOk_pure _
  · dsimp only
    cases hpairs : Relate.sameNameArgs? a b with
    | none => exact runsOk_unifyExpanded hctx h ha hb
    | some pairs =>
        have hcanonical := Discipline.ok_sameNameArgs? (D := normality) (w := (0 : Nat)) ha hb hpairs
        refine (runs_attempt (runsOk_thread h hcanonical Subst.canonical_empty)).lift.bind
          (fun w => (Discipline.keeps_attempt (Discipline.keepsOk_thread h.keeps (Nat.zero_le w)
            hcanonical Discipline.sends_empty)).lift) fun o _ _ => ?_
        cases o with
        | some s => exact runsOk_pure s
        | none => exact runsOk_unifyExpanded hctx h ha hb

theorem runsOk_unifyStep (hctx : ctx.registry.Canonical) (h : RunsRel unify' unify)
    (ha : a.Canonical) (hb : b.Canonical) :
    RunsOk (unifyStep ctx unify' a b) (Relate.unifyStep ctx unify a b) := by
  fun_cases Relate.unifyStep ctx unify a b <;> simp only [unifyStep]
  · next heq =>
      rw [if_pos heq]
      exact runsOk_pure _
  · next hne =>
      rw [if_neg hne]
      exact runsOk_tries _
  · next hne =>
      rw [if_neg hne]
      exact runsOk_tries _
  · next hindirect hne =>
      rw [if_neg hne, if_pos hindirect]
      exact runsOk_unifyIndirect hctx h ha hb
  · next hdirect hne =>
      rw [if_neg hne, if_neg hdirect]
      exact runsOk_unifyShapes h ha hb

/-- Unification builds nothing from nothing. -/
theorem runsRel_unify (hctx : ctx.registry.Canonical) :
    ∀ limit : Nat, RunsRel (Must.unify ctx limit) (Relate.unify ctx limit)
  | 0 => ⟨Discipline.keepsRel_unify (Registry.registers_iff.2 hctx) 0, fun _ _ => runsOk_tries _⟩
  | limit + 1 => ⟨Discipline.keepsRel_unify (Registry.registers_iff.2 hctx) (limit + 1),
      fun ha hb => runsOk_unifyStep hctx (runsRel_unify hctx limit) ha hb⟩

end Unification

/-! ## Subtyping -/

def unifyWidth (ctx : Context) (unify : Relation) (sub super : RecordTy) :
    List (String × Ty) → Subst → Tries Progress Subst
  | [], s => pure s
  | (name, t) :: fs, s =>
    match sub.field? name with
    | none => unifyWidth ctx unify sub super fs s
    | some u => do
      let next ← orElseThrow (do unify (← apply s u) (← apply s t)) fun e =>
        Relate.subtypeFailure ctx sub.toTy super.toTy ("field '" ++ name ++ "': " ++ e.message)
      unifyWidth ctx unify sub super fs (← after next s)

def subtypeRecords (ctx : Context) (unify : Relation) (sub super : RecordTy) :
    Tries Progress Subst := do
  let s ← unifyWidth ctx unify sub super super.fields .empty
  let missing := super.names.filter fun name => (sub.field? name).isNone
  if missing.isEmpty then pure s
  else
    match sub.rowUnder s with
    | none =>
      throw (Relate.subtypeFailure ctx sub.toTy super.toTy
        ("missing fields " ++ Text.commas (missing.map Cause.tick)))
    | some row => do
      let behind ← tries (Relate.fresh row.level)
      extendRow ctx s row (← pick s super missing) (some behind)

/-- Expands the smaller type, or the greater one if the smaller one shows its constructor. -/
def subtypeExpanded (ctx : Context) (subtype : Relation) (sub super : Ty) :
    Tries Progress Subst :=
  match sub, super with
  | .named name args, super => do subtype (← expand ctx name args) super
  | .mu v t, super => do subtype (← unfold v t) super
  | sub, .named name args => do subtype sub (← expand ctx name args)
  | sub, .mu v t => do subtype sub (← unfold v t)
  | sub, super => subtype sub super

def subtypeIndirect (ctx : Context) (subtype : Relation) (sub super : Ty) :
    Tries Progress Subst := do
  if ← tries (Relate.assume sub super) then return .empty
  subtypeExpanded ctx subtype sub super

def subtypeSome (ctx : Context) (sub super : Ty) (reason : String)
    (found : Steps Progress (Option Subst)) : Tries Progress Subst := do
  match ← found with
  | some s => pure s
  | none => throw (Relate.subtypeFailure ctx sub super reason)

def subtypeUnified (ctx : Context) (unify : Relation) (sub super : Ty) : Tries Progress Subst :=
  orElseThrow (unify sub super) fun e => Relate.subtypeFailure ctx sub super e.message

def subtypeShapes (ctx : Context) (unify subtype : Relation) (sub super : Ty) :
    Tries Progress Subst :=
  match sub, super with
  | .union alts, super => thread subtype (alts.map fun t => (t, super)) .empty
  | sub, .union alts =>
    subtypeSome ctx sub (.union alts) "no alternative of the union accepts it"
      (firstOf (subtype sub) alts)
  | .inter ms, super =>
    subtypeSome ctx (.inter ms) super "no member of the intersection is a subtype"
      (firstOf (fun m => subtype m super) ms)
  | sub, .inter ms => thread subtype (ms.map fun m => (sub, m)) .empty
  | .record fs row, .record gs row' => subtypeRecords ctx unify ⟨fs, row⟩ ⟨gs, row'⟩
  | .fn p r, .fn p' r' => do
    let params ← subtype p' p
    let results ← subtype (← apply params r) (← apply params r')
    return ← after results params
  | .tuple as, .tuple bs =>
    if as.length = bs.length then thread subtype (as.zip bs) .empty
    else subtypeUnified ctx unify (.tuple as) (.tuple bs)
  | .lit _, .prim "String" => pure .empty
  | sub, super => subtypeUnified ctx unify sub super

def subtypeStep (ctx : Context) (unify subtype : Relation) (sub super : Ty) :
    Tries Progress Subst :=
  if sub.equiv super then pure .empty
  else
    match sub, super with
    | .var v, super => unify (.var v) super
    | sub, .var v => unify sub (.var v)
    | sub, super =>
      if Relate.isIndirect sub || Relate.isIndirect super then
        subtypeIndirect ctx subtype sub super
      else subtypeShapes ctx unify subtype sub super

def subtype (ctx : Context) : Nat → Relation
  | 0, a, b => tries (Relate.exceed ctx a b)
  | n + 1, a, b => subtypeStep ctx (unify ctx n) (subtype ctx n) a b

section Subtyping

variable {ctx : Context} {unify' subtype' : Relation} {unify subtype : RowTypes.Relation}
  {a b : Ty}

theorem runsOk_unifyWidth (h : RunsRel unify' unify) {sub super : RecordTy}
    (hsub : sub.toTy.Canonical) : ∀ {fs : List (String × Ty)} {s : Subst},
    (∀ f ∈ fs, f.2.Canonical) → s.Canonical →
    RunsOk (unifyWidth ctx unify' sub super fs s) (Relate.unifyWidth ctx unify sub super fs s)
  | [], s, _, _ => runsOk_pure s
  | (name, t) :: fs, s, hfs, hs => by
      obtain ⟨ht, hfs⟩ := List.forall_mem_cons.1 hfs
      rw [unifyWidth, Relate.unifyWidth]
      cases hfield : sub.field? name with
      | none => exact runsOk_unifyWidth h hsub hfs hs
      | some u =>
          have hu := canonical_field hsub hfield
          have hruns : RunsOk (do unify' (← apply s u) (← apply s t))
              (unify (s.apply u) (s.apply t)) :=
            runsOk_build (apply_eq hs hu) (runsOk_build (apply_eq hs ht)
              (h.runs (hs.apply hu) (hs.apply ht)))
          refine (runsOk_orElseThrow hruns _).bind (fun w => Discipline.keepsOk_orElseThrow
            (h.keepsOk (hs.apply hu) (hs.apply ht) w) _) fun next _ hnext => ?_
          exact runsOk_build (after_eq hnext hs) (runsOk_unifyWidth h hsub hfs (hnext.after hs))

theorem runsOk_subtypeRecords (h : RunsRel unify' unify) {sub super : RecordTy}
    (hsub : sub.toTy.Canonical) (hsuper : super.toTy.Canonical) :
    RunsOk (subtypeRecords ctx unify' sub super) (Relate.subtypeRecords ctx unify sub super) := by
  unfold subtypeRecords Relate.subtypeRecords
  refine (runsOk_unifyWidth h hsub hsuper.fields Subst.canonical_empty).bind
    (fun w => Discipline.keepsOk_unifyWidth h.keeps (Nat.zero_le w) hsub hsuper.fields
      Discipline.sends_empty) fun s _ hs => ?_
  dsimp only
  split
  · exact runsOk_pure s
  · cases sub.rowUnder s with
    | none => exact runsOk_throw _
    | some row =>
        refine (runsOk_tries (Relate.fresh row.level)).bind
          (fun _ => Discipline.keepsOk_freshRow _) fun behind _ _ => ?_
        exact runsOk_extendPicked hsuper hs _ row (some behind)

def subtypingExpanded (ctx : Context) (subtype : RowTypes.Relation) (sub super : Ty) :
    RowTypes.Relate Subst :=
  match sub, super with
  | .named name args, super => do subtype (← Relate.expand ctx name args) super
  | .mu v t, super => subtype (.unfold v t) super
  | sub, .named name args => do subtype sub (← Relate.expand ctx name args)
  | sub, .mu v t => subtype sub (.unfold v t)
  | sub, super => subtype sub super

theorem runsOk_subtypeExpanded (hctx : ctx.registry.Canonical) (h : RunsRel subtype' subtype)
    (ha : a.Canonical) (hb : b.Canonical) :
    RunsOk (subtypeExpanded ctx subtype' a b) (subtypingExpanded ctx subtype a b) := by
  fun_cases subtypingExpanded ctx subtype a b <;> simp only [subtypeExpanded]
  · exact (runsOk_expand hctx ha.args).bind (keepsOk_expand hctx ha.args) fun t _ ht => h.runs ht hb
  · exact runsOk_build (unfold_eq ha) (h.runs ha.unfold hb)
  · exact (runsOk_expand hctx hb.args).bind (keepsOk_expand hctx hb.args) fun t _ ht => h.runs ha ht
  · exact runsOk_build (unfold_eq hb) (h.runs ha hb.unfold)
  · exact h.runs ha hb

theorem runsOk_subtypeIndirect (hctx : ctx.registry.Canonical) (h : RunsRel subtype' subtype)
    (ha : a.Canonical) (hb : b.Canonical) :
    RunsOk (subtypeIndirect ctx subtype' a b) (Relate.subtypeIndirect ctx subtype a b) := by
  unfold subtypeIndirect Relate.subtypeIndirect
  refine runsOk_assume a b fun assumed => ?_
  split
  · exact runsOk_pure _
  · exact runsOk_subtypeExpanded hctx h ha hb

theorem runsOk_subtypeSome {found' : Steps Progress (Option Subst)}
    {found : StateM Progress (Option Subst)} (h : Runs found' found)
    (hkeeps : ∀ w, normality.Keeps w (fun w' o => ∀ s, o = some s → normality.Sends w' s) found)
    (sub super : Ty) (reason : String) :
    RunsOk (subtypeSome ctx sub super reason found')
      (Relate.subtypeSome ctx sub super reason found) := by
  unfold subtypeSome Relate.subtypeSome
  refine h.lift.bind (fun w => (hkeeps w).lift) fun o _ _ => ?_
  cases o with
  | some s => exact runsOk_pure s
  | none => exact runsOk_throw _

theorem runsOk_subtypeShapes (hunify : RunsRel unify' unify) (h : RunsRel subtype' subtype)
    (ha : a.Canonical) (hb : b.Canonical) :
    RunsOk (subtypeShapes ctx unify' subtype' a b) (Relate.subtypeShapes ctx unify subtype a b) := by
  have hunified : RunsOk (subtypeUnified ctx unify' a b) (Relate.subtypeUnified ctx unify a b) :=
    runsOk_orElseThrow (hunify.runs ha hb) _
  fun_cases Relate.subtypeShapes ctx unify subtype a b <;> simp only [subtypeShapes]
  · exact runsOk_thread h (List.forall_mem_map.2 fun t ht => ⟨ha.alternatives t ht, hb⟩)
      Subst.canonical_empty
  · have hruns := fun t ht => h.runs ha (hb.alternatives t ht)
    have hkeeps := fun t ht => h.keepsOk ha (hb.alternatives t ht)
    exact runsOk_subtypeSome (runs_firstOf hruns hkeeps)
      (fun w => Discipline.keeps_firstOf fun t ht w' _ => hkeeps t ht w') _ _ _
  · have hruns := fun m hm => h.runs (ha.members m hm) hb
    have hkeeps := fun m hm => h.keepsOk (ha.members m hm) hb
    exact runsOk_subtypeSome (runs_firstOf hruns hkeeps)
      (fun w => Discipline.keeps_firstOf fun m hm w' _ => hkeeps m hm w') _ _ _
  · exact runsOk_thread h (List.forall_mem_map.2 fun m hm => ⟨ha, hb.members m hm⟩)
      Subst.canonical_empty
  · exact runsOk_subtypeRecords hunify ha hb
  · obtain ⟨hp, hr⟩ := normality.fn (w := (0 : Nat)) |>.1 ha
    obtain ⟨hp', hr'⟩ := normality.fn (w := (0 : Nat)) |>.1 hb
    refine (h.runs hp' hp).bind (h.keepsOk hp' hp) fun params _ hparams => ?_
    replace hparams : params.Canonical := hparams
    refine runsOk_build (apply_eq hparams hr) (runsOk_build (apply_eq hparams hr') ?_)
    refine (h.runs (hparams.apply hr) (hparams.apply hr')).bind
      (h.keepsOk (hparams.apply hr) (hparams.apply hr')) fun results _ hresults => ?_
    exact runsOk_built (after_eq hresults hparams)
  · next hlen =>
      rw [if_pos hlen]
      exact runsOk_thread h (canonical_zip ha hb) Subst.canonical_empty
  · next hlen =>
      rw [if_neg hlen]
      exact hunified
  · exact runsOk_pure _
  · exact hunified

theorem runsOk_subtypeStep (hctx : ctx.registry.Canonical) (hunify : RunsRel unify' unify)
    (h : RunsRel subtype' subtype) (ha : a.Canonical) (hb : b.Canonical) :
    RunsOk (subtypeStep ctx unify' subtype' a b) (Relate.subtypeStep ctx unify subtype a b) := by
  fun_cases Relate.subtypeStep ctx unify subtype a b <;> simp only [subtypeStep]
  · next heq =>
      rw [if_pos heq]
      exact runsOk_pure _
  · next hne =>
      rw [if_neg hne]
      exact hunify.runs ha hb
  · next hne =>
      rw [if_neg hne]
      exact hunify.runs ha hb
  · next hindirect hne =>
      rw [if_neg hne, if_pos hindirect]
      exact runsOk_subtypeIndirect hctx h ha hb
  · next hdirect hne =>
      rw [if_neg hne, if_neg hdirect]
      exact runsOk_subtypeShapes hunify h ha hb

/-- Subtyping builds nothing from nothing. -/
theorem runsRel_subtype (hctx : ctx.registry.Canonical) :
    ∀ limit : Nat, RunsRel (Must.subtype ctx limit) (Relate.subtype ctx limit)
  | 0 => ⟨Discipline.keepsRel_subtype (Registry.registers_iff.2 hctx) 0, fun _ _ => runsOk_tries _⟩
  | limit + 1 => ⟨Discipline.keepsRel_subtype (Registry.registers_iff.2 hctx) (limit + 1),
      fun ha hb => runsOk_subtypeStep hctx (runsRel_unify hctx limit) (runsRel_subtype hctx limit)
        ha hb⟩

end Subtyping

end Must

end RowTypes
