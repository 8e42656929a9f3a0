import RowTypes.Proofs.MustRelate

/-!
# Joining and spreading without building from nothing

Joins build unions: of two types that are told apart, or of a union and one more alternative.  So
there is always something to build from, and it is canonical if the types that are joined are.
Spreads build nothing themselves; they substitute, and unfold what is spread.
-/

namespace RowTypes

namespace Must

/-! ## Joins -/

def joinAll {m : Type → Type} [Monad m] [MonadLiftT Option m] (join : Ty → Ty → m Relate.Joined) :
    List (Ty × Ty) → List Ty → Subst → m Relate.Joined
  | [], done, s => do return (.tuple (← applyAll s done), s)
  | (a, b) :: pairs, done, s => do
    let (t, next) ← join (← apply s a) (← apply s b)
    joinAll join pairs (done ++ [t]) (← after next s)

def joinUnified (unify : Relation) (a b : Ty) : Tries Progress Relate.Joined := do
  let s ← unify a b
  return (← apply s (Relate.widest a b), s)

def joinIntoUnion (ctx : Context) (unify : Relation) (alts : List Ty) (b : Ty) :
    Tries Progress Relate.Joined := do
  match ← firstOf (fun alt => unify alt b) alts with
  | some s => return (← apply s (.union alts), s)
  | none =>
    let apart : Bool := match b.record? with
      | some rb => alts.all fun alt => (alt.record?).any fun ra => ra.toldApart rb
      | none => false
    if apart then return (← Ty.unionOf? (alts ++ [b]), .empty)
    else throw (Relate.mismatch ctx (.union alts) b "branches have different types")

def joinBranchesStep (ctx : Context) (unify : Relation)
    (join : Ty → Ty → Tries Progress Relate.Joined) (a b : Ty) : Tries Progress Relate.Joined :=
  match a, b with
  | .var v, b => joinUnified unify (.var v) b
  | a, .var v => joinUnified unify a (.var v)
  | .record fs row, .record gs row' =>
    if RecordTy.toldApart ⟨fs, row⟩ ⟨gs, row'⟩ then do
      return (← Ty.unionOf? [.record fs row, .record gs row'], .empty)
    else joinUnified unify (.record fs row) (.record gs row')
  | .union alts, b => joinIntoUnion ctx unify alts b
  | .tuple as, .tuple bs =>
    if as.length = bs.length then joinAll join (as.zip bs) [] .empty
    else joinUnified unify (.tuple as) (.tuple bs)
  | .lit v, .lit w =>
    if v = w then joinUnified unify (.lit v) (.lit w) else pure (.string, .empty)
  | a, b => joinUnified unify a b

def joinBranches (ctx : Context) (unify : Relation) :
    Nat → Ty → Ty → Tries Progress Relate.Joined
  | 0, a, b => throw (Relate.tooDeep ctx a b)
  | n + 1, a, b => joinBranchesStep ctx unify (joinBranches ctx unify n) a b

def joinOrUnion (unify : Relation) (a b : Ty) : Steps Progress Relate.Joined := do
  match ← attempt (unify a b) with
  | some s => return (← apply s (Relate.widest a b), s)
  | none => return (← Ty.unionOf? [a, b], .empty)

def joinPatternsStep (unify : Relation) (join : Ty → Ty → Steps Progress Relate.Joined)
    (a b : Ty) : Steps Progress Relate.Joined :=
  match a, b with
  | .record fs row, .record gs row' =>
    if RecordTy.toldApart ⟨fs, row⟩ ⟨gs, row'⟩ then do
      return (← Ty.unionOf? [.record fs row, .record gs row'], .empty)
    else joinOrUnion unify (.record fs row) (.record gs row')
  | .tuple as, .tuple bs =>
    if as.length = bs.length then joinAll join (as.zip bs) [] .empty
    else joinOrUnion unify (.tuple as) (.tuple bs)
  | .lit v, .lit w =>
    if v = w then joinOrUnion unify (.lit v) (.lit w)
    else do return (← Ty.unionOf? [.lit v, .lit w], .empty)
  | .union alts, b => do
    match ← firstOf (fun alt => unify alt b) alts with
    | some s => return (← apply s (.union alts), s)
    | none => return (← Ty.unionOf? (alts ++ [b]), .empty)
  | a, b => joinOrUnion unify a b

def joinPatterns (unify : Relation) : Nat → Ty → Ty → Steps Progress Relate.Joined
  | 0, a, b => joinOrUnion unify a b
  | n + 1, a, b => joinPatternsStep unify (joinPatterns unify n) a b

def joinList {m : Type → Type} [Monad m] [MonadLiftT Option m]
    (join : Ty → Ty → m Relate.Joined) : List Ty → Relate.Joined → m Relate.Joined
  | [], (t, s) => do return (← apply s t, s)
  | b :: bs, (t, s) => do
    let (t, next) ← join (← apply s t) (← apply s b)
    joinList join bs (t, ← after next s)

def fitBranches (ctx : Context) (subtype : Relation) (result : Ty) :
    List Ty → Subst → Tries Progress Subst
  | [], s => pure s
  | b :: bs, s => do
    let expected ← apply s result
    let found ← apply s b
    let next ← orElseThrow (subtype found expected) fun _ =>
      Relate.mismatch ctx expected found "a branch does not fit how the result is used"
    fitBranches ctx subtype result bs (← after next s)

def branch (ctx : Context) (limit : Nat) (result : Ty) (branches : List Ty) :
    Tries Progress Subst :=
  match branches with
  | [] => pure .empty
  | first :: others =>
    match result with
    | .var _ => do
      let (joined, s) ← joinList
        (joinBranches ctx (unify ctx limit) (joinDepth (first :: others))) others
        (first, .empty)
      let bound ← unify ctx limit (← apply s result) joined
      return ← after bound s
    | result => fitBranches ctx (subtype ctx limit) result (first :: others) .empty

def matchAlternative (ctx : Context) (unify : Relation) (p scrutinee : Ty) :
    Tries Progress Subst :=
  match p with
  | .var v => tries (Relate.bindVar ctx v scrutinee)
  | p =>
    match scrutinee with
    | .union alts => absorb ctx unify p alts
    | scrutinee => unify p scrutinee

def holds (ctx : Context) (limit : Nat) (scrutinee : Ty) (patterns : List Ty) :
    Tries Progress Subst :=
  match scrutinee with
  | .var v =>
    match patterns with
    | [] => pure .empty
    | first :: others => do
      let (joined, s) ← joinList (m := Steps Progress)
        (joinPatterns (unify ctx limit) (joinDepth (first :: others))) others (first, .empty)
      let bound ← tries (Relate.bindVar ctx v joined)
      return ← after bound s
  | .union alts =>
    thread (matchAlternative ctx (unify ctx limit)) (patterns.map fun p => (p, .union alts)) .empty
  | t => thread (unify ctx limit) (patterns.map fun p => (p, t)) .empty

section Joins

open Relate (Joined)

variable {ctx : Context} {unify' subtype' : Relation} {unify subtype : RowTypes.Relation}
  {a b : Ty} {s : Subst}

theorem runsOk_joinUnified (h : RunsRel unify' unify) (ha : a.Canonical) (hb : b.Canonical) :
    RunsOk (joinUnified unify' a b) (Relate.joinUnified unify a b) := by
  unfold joinUnified Relate.joinUnified
  refine (h.runs ha hb).bind (h.keepsOk ha hb) fun s _ hs => ?_
  have hwidest := Discipline.ok_widest (D := normality) (w := (0 : Nat)) ha hb
  exact runsOk_build (apply_eq hs hwidest) (runsOk_pure _)

/-- The two ways to join, one that may fail and one that may not, have the rules of runs in
common. -/
structure Follows {k m : Type → Type} [Monad k] [MonadLiftT Option k] [Monad m]
    (R : {α : Type} → k α → m α → Prop)
    (T : normality.Stage → {α : Type} → (normality.Stage → α → Prop) → m α → Prop) : Prop where
  pure : ∀ {α : Type} (a : α), R (pure a) (pure a)
  bind : ∀ {α β : Type} {made : normality.Stage → α → Prop} {x' : k α} {x : m α} {f' : α → k β}
    {f : α → m β}, R x' x → (∀ w, T w made x) → (∀ a w, made w a → R (f' a) (f a)) →
    R (x' >>= f') (x >>= f)
  build : ∀ {α β : Type} {o : Option α} {a : α} {f' : α → k β} {x : m β}, o = some a →
    R (f' a) x → R (liftM o >>= f') x

theorem follows_runsOk : Follows (k := Tries Progress) (m := Relate) (fun m' m => RunsOk m' m)
    fun w _ made m => normality.KeepsOk w made m := ⟨runsOk_pure, RunsOk.bind, runsOk_build⟩

theorem follows_runs : Follows (k := Steps Progress) (m := StateM Progress)
    (fun m' m => Runs m' m) fun w _ made m => normality.Keeps w made m :=
  ⟨runs_pure, Runs.bind, runs_build⟩

section Following

variable {m' m : Type → Type} [Monad m'] [MonadLiftT Option m'] [Monad m]
  {R : {α : Type} → m' α → m α → Prop}
  {T : normality.Stage → {α : Type} → (normality.Stage → α → Prop) → m α → Prop}
  {join' : Ty → Ty → m' Joined} {join : Ty → Ty → m Joined}

/-- Two joins go together, as two relations do. -/
structure RunsJoin (R : {α : Type} → m' α → m α → Prop)
    (T : normality.Stage → {α : Type} → (normality.Stage → α → Prop) → m α → Prop)
    (join' : Ty → Ty → m' Joined) (join : Ty → Ty → m Joined) : Prop where
  keeps : normality.KeepsJoin (0 : Nat) T join
  runs : ∀ {a b : Ty}, a.Canonical → b.Canonical → R (join' a b) (join a b)

theorem runs_joinAll (hR : Follows R T) (h : RunsJoin R T join' join) :
    ∀ {pairs : List (Ty × Ty)} {done : List Ty} {s : Subst},
      (∀ pair ∈ pairs, pair.1.Canonical ∧ pair.2.Canonical) → (∀ t ∈ done, t.Canonical) →
      s.Canonical → R (joinAll join' pairs done s) (Relate.joinAll join pairs done s)
  | [], done, s, _, hdone, hs => hR.build (applyAll_eq hs hdone) (hR.pure _)
  | (a, b) :: pairs, done, s, hpairs, hdone, hs => by
      obtain ⟨⟨ha, hb⟩, hrest⟩ := List.forall_mem_cons.1 hpairs
      rw [joinAll, Relate.joinAll]
      refine hR.build (apply_eq hs ha) (hR.build (apply_eq hs hb) ?_)
      refine hR.bind (h.runs (hs.apply ha) (hs.apply hb))
        (fun w => h.keeps (Nat.zero_le w) (hs.apply ha) (hs.apply hb)) ?_
      rintro ⟨t, next⟩ _ ⟨ht, hnext⟩
      refine hR.build (after_eq hnext hs) ?_
      refine runs_joinAll hR h hrest (List.forall_mem_append.2 ⟨hdone, ?_⟩) (hnext.after hs)
      exact List.forall_mem_singleton.2 ht

theorem runs_joinList (hR : Follows R T) (h : RunsJoin R T join' join) :
    ∀ {ts : List Ty} {j : Joined}, (∀ t ∈ ts, t.Canonical) → j.1.Canonical → j.2.Canonical →
      R (joinList join' ts j) (Relate.joinList join ts j)
  | [], (t, s), _, ht, hs => hR.build (apply_eq hs ht) (hR.pure _)
  | b :: bs, (t, s), hts, ht, hs => by
      obtain ⟨hb, hbs⟩ := List.forall_mem_cons.1 hts
      rw [joinList, Relate.joinList]
      refine hR.build (apply_eq hs ht) (hR.build (apply_eq hs hb) ?_)
      refine hR.bind (h.runs (hs.apply ht) (hs.apply hb))
        (fun w => h.keeps (Nat.zero_le w) (hs.apply ht) (hs.apply hb)) ?_
      rintro ⟨u, next⟩ _ ⟨hu, hnext⟩
      exact hR.build (after_eq hnext hs) (runs_joinList hR h hbs hu (hnext.after hs))

end Following

theorem unionOf?_eq {ts : List Ty} (hne : ts ≠ []) (h : ∀ t ∈ ts, t.Canonical) :
    Ty.unionOf? ts = some (Ty.unionOf ts) := Compound.build?_eq_build (k := .union) hne h

theorem pair_eq (ha : a.Canonical) (hb : b.Canonical) :
    Ty.unionOf? [a, b] = some (Ty.unionOf [a, b]) :=
  unionOf?_eq (List.cons_ne_nil _ _) (List.forall_mem_cons.2 ⟨ha, List.forall_mem_singleton.2 hb⟩)

theorem append_eq {alts : List Ty} (halts : (Ty.union alts).Canonical) (hb : b.Canonical) :
    Ty.unionOf? (alts ++ [b]) = some (Ty.unionOf (alts ++ [b])) :=
  unionOf?_eq (by simp)
    (List.forall_mem_append.2 ⟨halts.alternatives, List.forall_mem_singleton.2 hb⟩)

/-- A union goes with a type by the first alternative that does. -/
theorem runs_firstAlternative (h : RunsRel unify' unify) {alts : List Ty}
    (halts : (Ty.union alts).Canonical) (hb : b.Canonical) :
    Runs (firstOf (fun alt => unify' alt b) alts)
      (Relate.firstOf (fun alt => unify alt b) alts) :=
  runs_firstOf (fun t ht => h.runs (halts.alternatives t ht) hb) fun t ht =>
    h.keepsOk (halts.alternatives t ht) hb

theorem keeps_firstAlternative (h : RunsRel unify' unify) {alts : List Ty}
    (halts : (Ty.union alts).Canonical) (hb : b.Canonical) (w : normality.Stage) :
    normality.Keeps w (fun w' o => ∀ s, o = some s → normality.Sends w' s)
      (Relate.firstOf (fun alt => unify alt b) alts) :=
  Discipline.keeps_firstAlternative h.keeps (Nat.zero_le w) halts hb

theorem runsOk_joinIntoUnion (h : RunsRel unify' unify) {alts : List Ty}
    (halts : (Ty.union alts).Canonical) (hb : b.Canonical) :
    RunsOk (joinIntoUnion ctx unify' alts b) (Relate.joinIntoUnion ctx unify alts b) := by
  unfold joinIntoUnion Relate.joinIntoUnion
  refine (runs_firstAlternative h halts hb).lift.bind
    (fun w => (keeps_firstAlternative h halts hb w).lift) fun o _ ho => ?_
  cases o with
  | some s => exact runsOk_build (apply_eq (ho s rfl) halts) (runsOk_pure _)
  | none =>
      cases b.record? with
      | none => exact runsOk_throw _
      | some rb =>
          dsimp only
          split
          · exact runsOk_build (append_eq halts hb) (runsOk_pure _)
          · exact runsOk_throw _

theorem runsOk_joinBranchesStep (h : RunsRel unify' unify)
    {join' : Ty → Ty → Tries Progress Joined} {join : Ty → Ty → Relate Joined}
    (hjoin : RunsJoin (fun m' m => RunsOk m' m) (fun w _ made m => normality.KeepsOk w made m)
      join' join) (ha : a.Canonical) (hb : b.Canonical) :
    RunsOk (joinBranchesStep ctx unify' join' a b)
      (Relate.joinBranchesStep ctx unify join a b) := by
  have hunified := runsOk_joinUnified h ha hb
  fun_cases Relate.joinBranchesStep ctx unify join a b <;> simp only [joinBranchesStep]
  · exact hunified
  · exact hunified
  · next hapart =>
      rw [if_pos hapart]
      exact runsOk_build (pair_eq ha hb) (runsOk_pure _)
  · next hapart =>
      rw [if_neg hapart]
      exact hunified
  · exact runsOk_joinIntoUnion h ha hb
  · next hlen =>
      rw [if_pos hlen]
      exact runs_joinAll follows_runsOk hjoin (canonical_zip ha hb) (by simp) Subst.canonical_empty
  · next hlen =>
      rw [if_neg hlen]
      exact hunified
  · exact hunified
  · next hne =>
      rw [if_neg hne]
      exact runsOk_pure _
  · exact hunified

theorem runsJoin_joinBranches (ctx : Context) (h : RunsRel unify' unify) : ∀ depth : Nat,
    RunsJoin (fun m' m => RunsOk m' m) (fun w _ made m => normality.KeepsOk w made m)
      (joinBranches ctx unify' depth) (Relate.joinBranches ctx unify depth)
  | 0 => ⟨Discipline.keepsJoin_joinBranches h.keeps 0, fun _ _ => runsOk_throw _⟩
  | depth + 1 => ⟨Discipline.keepsJoin_joinBranches h.keeps (depth + 1), fun ha hb =>
      runsOk_joinBranchesStep h (runsJoin_joinBranches ctx h depth) ha hb⟩

theorem runsOk_fitBranches (h : RunsRel subtype' subtype) {result : Ty}
    (hresult : result.Canonical) : ∀ {bs : List Ty} {s : Subst}, (∀ b ∈ bs, b.Canonical) →
      s.Canonical →
      RunsOk (fitBranches ctx subtype' result bs s) (Relate.fitBranches ctx subtype result bs s)
  | [], s, _, _ => runsOk_pure s
  | b :: bs, s, hbs, hs => by
      obtain ⟨hb, hbs⟩ := List.forall_mem_cons.1 hbs
      rw [fitBranches, Relate.fitBranches]
      refine runsOk_build (apply_eq hs hresult) (runsOk_build (apply_eq hs hb) ?_)
      refine (runsOk_orElseThrow (h.runs (hs.apply hb) (hs.apply hresult)) _).bind
        (fun w => Discipline.keepsOk_orElseThrow (h.keepsOk (hs.apply hb) (hs.apply hresult) w) _)
        fun next _ hnext => ?_
      exact runsOk_build (after_eq hnext hs) (runsOk_fitBranches h hresult hbs (hnext.after hs))

theorem runsOk_branch (hctx : ctx.registry.Canonical) (limit : Nat) {result : Ty}
    {branches : List Ty} (hresult : result.Canonical) (hbranches : ∀ b ∈ branches, b.Canonical) :
    RunsOk (branch ctx limit result branches) (Relate.branch ctx limit result branches) := by
  fun_cases Relate.branch ctx limit result branches <;> simp only [branch]
  · exact runsOk_pure _
  · next first others _ =>
      have hunify := runsRel_unify hctx limit
      have hjoin := runsJoin_joinBranches ctx hunify (joinDepth (first :: others))
      obtain ⟨hfirst, hothers⟩ := List.forall_mem_cons.1 hbranches
      refine RunsOk.bind (runs_joinList follows_runsOk hjoin hothers hfirst Subst.canonical_empty)
        (fun w => Discipline.keeps_joinList Discipline.follows_keepsOk hjoin.keeps (Nat.zero_le w)
          hothers ⟨hfirst, Discipline.sends_empty⟩) ?_
      rintro ⟨joined, s⟩ _ ⟨hjoined, hs⟩
      replace hs : s.Canonical := hs
      refine runsOk_build (apply_eq hs hresult) ?_
      refine (hunify.runs (hs.apply hresult) hjoined).bind
        (hunify.keepsOk (hs.apply hresult) hjoined) fun bound _ hbound => ?_
      exact runsOk_built (after_eq hbound hs)
  · exact runsOk_fitBranches (runsRel_subtype hctx limit) hresult hbranches Subst.canonical_empty

theorem runsRel_matchAlternative (h : RunsRel unify' unify) :
    RunsRel (matchAlternative ctx unify') (Relate.matchAlternative ctx unify) := by
  refine ⟨Discipline.keepsRel_matchAlternative h.keeps, fun {a b} ha hb => ?_⟩
  fun_cases Relate.matchAlternative ctx unify a b <;> simp only [matchAlternative]
  · exact runsOk_tries _
  · exact runsOk_absorb h ha hb.alternatives
  · exact h.runs ha hb

theorem runs_joinOrUnion (h : RunsRel unify' unify) (ha : a.Canonical) (hb : b.Canonical) :
    Runs (joinOrUnion unify' a b) (Relate.joinOrUnion unify a b) := by
  unfold joinOrUnion Relate.joinOrUnion
  refine (runs_attempt (h.runs ha hb)).bind
    (fun w => Discipline.keeps_attempt (h.keepsOk ha hb w)) fun o _ ho => ?_
  cases o with
  | some s =>
      have hwidest := Discipline.ok_widest (D := normality) (w := (0 : Nat)) ha hb
      exact runs_build (apply_eq (ho s rfl) hwidest) (runs_pure _)
  | none => exact runs_build (pair_eq ha hb) (runs_pure _)

theorem runs_joinPatternsStep (h : RunsRel unify' unify)
    {join' : Ty → Ty → Steps Progress Joined} {join : Ty → Ty → StateM Progress Joined}
    (hjoin : RunsJoin (fun m' m => Runs m' m) (fun w _ made m => normality.Keeps w made m)
      join' join) (ha : a.Canonical) (hb : b.Canonical) :
    Runs (joinPatternsStep unify' join' a b) (Relate.joinPatternsStep unify join a b) := by
  have hunified := runs_joinOrUnion h ha hb
  fun_cases Relate.joinPatternsStep unify join a b <;> simp only [joinPatternsStep]
  · next hapart =>
      rw [if_pos hapart]
      exact runs_build (pair_eq ha hb) (runs_pure _)
  · next hapart =>
      rw [if_neg hapart]
      exact hunified
  · next hlen =>
      rw [if_pos hlen]
      exact runs_joinAll follows_runs hjoin (canonical_zip ha hb) (by simp) Subst.canonical_empty
  · next hlen =>
      rw [if_neg hlen]
      exact hunified
  · exact hunified
  · next hne =>
      rw [if_neg hne]
      exact runs_build (pair_eq ha hb) (runs_pure _)
  · refine (runs_firstAlternative h ha hb).bind (keeps_firstAlternative h ha hb) fun o _ ho => ?_
    cases o with
    | some s => exact runs_build (apply_eq (ho s rfl) ha) (runs_pure _)
    | none => exact runs_build (append_eq ha hb) (runs_pure _)
  · exact hunified

theorem runsJoin_joinPatterns (h : RunsRel unify' unify) : ∀ depth : Nat,
    RunsJoin (fun m' m => Runs m' m) (fun w _ made m => normality.Keeps w made m)
      (joinPatterns unify' depth) (Relate.joinPatterns unify depth)
  | 0 => ⟨Discipline.keepsJoin_joinPatterns h.keeps 0, fun ha hb => runs_joinOrUnion h ha hb⟩
  | depth + 1 => ⟨Discipline.keepsJoin_joinPatterns h.keeps (depth + 1), fun ha hb =>
      runs_joinPatternsStep h (runsJoin_joinPatterns h depth) ha hb⟩

theorem runsOk_holds (hctx : ctx.registry.Canonical) (limit : Nat) {scrutinee : Ty}
    {patterns : List Ty} (hscrutinee : scrutinee.Canonical)
    (hpatterns : ∀ t ∈ patterns, t.Canonical) :
    RunsOk (holds ctx limit scrutinee patterns) (Relate.holds ctx limit scrutinee patterns) := by
  have hunify := runsRel_unify hctx limit
  have hpairs : ∀ pair ∈ patterns.map fun t => (t, scrutinee),
      pair.1.Canonical ∧ pair.2.Canonical :=
    List.forall_mem_map.2 fun t ht => ⟨hpatterns t ht, hscrutinee⟩
  fun_cases Relate.holds ctx limit scrutinee patterns <;> simp only [holds]
  · exact runsOk_pure _
  · next v first others =>
      have hjoin := runsJoin_joinPatterns hunify (joinDepth (first :: others))
      obtain ⟨hfirst, hothers⟩ := List.forall_mem_cons.1 hpatterns
      refine (runs_joinList follows_runs hjoin hothers hfirst Subst.canonical_empty).lift.bind
        (fun w => (Discipline.keeps_joinList Discipline.follows_keeps hjoin.keeps (Nat.zero_le w)
          hothers (j := (first, .empty)) ⟨hfirst, Discipline.sends_empty⟩).lift) ?_
      rintro ⟨joined, s⟩ _ ⟨hjoined, hs⟩
      refine (runsOk_tries (Relate.bindVar ctx v joined)).bind
        (fun _ => Discipline.keepsOk_bindVar (.inl ⟨trivial, hjoined⟩)) fun bound _ hbound => ?_
      exact runsOk_built (after_eq hbound hs)
  · exact runsOk_thread (runsRel_matchAlternative hunify) hpairs Subst.canonical_empty
  · exact runsOk_thread hunify hpairs Subst.canonical_empty

end Joins

/-! ## Spreads -/

def expandName? (r : Registry) (name : String) (args : List Ty) : Option (Option Ty) :=
  match r.lookup? name with
  | none => some none
  | some d => expand? d args

/-- The search for a head, which may stop as well. -/
def headWithin (r : Registry) : Nat → Ty → Option (Option Ty)
  | 0, _ => none
  | n + 1, .named name args =>
    match expandName? r name args with
    | some (some t) => headWithin r n t
    | some none => some (some (.named name args))
    | none => some none
  | n + 1, .mu v body =>
    match unfold v body with
    | some t => headWithin r n t
    | none => some none
  | _ + 1, t => some (some t)

def head? (r : Registry) (t : Ty) : Option (Option Ty) := search (headWithin r · t)

def head (ctx : Context) (t : Ty) : Tries Progress Ty := do
  tries (Relate.needs (head? ctx.registry t).isSome)
  match head? ctx.registry t with
  | some found =>
    match ← found with
    | .named name args => expand ctx name args
    | t => pure t
  | none => throw (Relate.tooDeep ctx t t)

def recordShape (ctx : Context) (t : Ty) : Tries Progress Subst := do
  match ← head ctx t with
  | .record .. => pure .empty
  | .var v => do
    let row ← tries (Relate.fresh v.level)
    tries (Relate.bindVar ctx v (.record [] (some row)))
  | t => throw (Relate.notRecord ctx t)

def spreadRecord (ctx : Context) (t : Ty) : Tries Progress RecordTy := do
  match ← head ctx t with
  | .record fs row => pure ⟨fs, row⟩
  | .var v => pure ⟨[], some v⟩
  | t => throw (Relate.notRecord ctx t)

def overlay (ctx : Context) (unify : Relation) (replace : Bool) :
    List (String × Ty) → Relate.Merging → Tries Progress Relate.Merging
  | [], m => pure m
  | (name, t) :: fs, m => do
    let t ← apply m.subst t
    let m ← match Table.get? name m.fields with
      | none => pure { m with fields := Table.insert name t m.fields }
      | some existing => do
        let existing ← apply m.subst existing
        let next ← orElseThrow (unify existing t) fun _ =>
          ⟨.mergeConflict name existing.render t.render, ctx.span⟩
        let subst ← after next m.subst
        pure { fields := if replace then Table.insert name t m.fields else m.fields, subst }
    overlay ctx unify replace fs m

def overlaySpreads (ctx : Context) (unify : Relation) :
    List Ty → Relate.Merging → Tries Progress Relate.Merging
  | [], m => pure m
  | t :: ts, m => do
    let r ← spreadRecord ctx (← apply m.subst t)
    let m ← overlay ctx unify false r.fields m
    overlaySpreads ctx unify ts m

def merge (ctx : Context) (unify : Relation) (result : Ty) (spreads : List Ty)
    (explicit : RecordTy) : Tries Progress Subst := do
  let m ← overlaySpreads ctx unify spreads {}
  let m ← overlay ctx unify true explicit.fields m
  let row ← tries (Relate.fresh 0)
  let merged ← apply m.subst (.record m.fields (some row))
  let next ← unify (← apply m.subst result) merged
  return ← after next m.subst

section Spreads

open Relate (Merging)

variable {ctx : Context} {unify' : Relation} {unify : RowTypes.Relation} {t : Ty}

theorem expandName?_eq {r : Registry} (hr : r.Canonical) {name : String} {args : List Ty}
    (hargs : ∀ t ∈ args, t.Canonical) :
    expandName? r name args = some (r.expand? name args) := by
  rw [expandName?, Registry.expand?]
  cases hd : r.lookup? name with
  | none => rfl
  | some d => exact expand?_eq (hr.lookup? hd) hargs

/-- Followed as far, the search finds the same on canonical types. -/
theorem headWithin_eq {r : Registry} (hr : r.Canonical) : ∀ (n : Nat) {t : Ty}, t.Canonical →
    headWithin r n t = (r.headWithin n t).map some
  | 0, _, _ => rfl
  | n + 1, t, ht => by
      cases t with
      | named name args =>
          rw [headWithin, Registry.headWithin, expandName?_eq hr ht.args]
          cases hexpanded : r.expand? name args with
          | none => rfl
          | some t => exact headWithin_eq hr n (hr.expand? ht.args hexpanded)
      | mu v t =>
          rw [headWithin, unfold_eq ht]
          exact headWithin_eq hr n ht.unfold
      | _ => rfl

theorem head?_eq {r : Registry} (hr : r.Canonical) (ht : t.Canonical) :
    head? r t = (r.head? t).map some := by
  rw [head?, Registry.head?, ← search_map (r.steady_headWithin t)]
  exact congrArg search (funext fun n => headWithin_eq hr n ht)

theorem runsOk_head (hctx : ctx.registry.Canonical) (ht : t.Canonical) :
    RunsOk (head ctx t) (Relate.head ctx t) := by
  unfold head Relate.head
  rw [head?_eq hctx ht, Option.isSome_map]
  refine (runsOk_tries _).bind (fun _ => Discipline.keepsOk_needs False.elim) fun _ _ _ => ?_
  cases hu : ctx.registry.head? t with
  | none => exact runsOk_throw _
  | some u =>
      have hcanonical : u.Canonical :=
        Discipline.ok_head? (w := (0 : Nat)) (Registry.registers_iff.2 hctx) ht hu
      cases u with
      | named name args => exact runsOk_expand hctx hcanonical.args
      | _ => exact runsOk_pure _

theorem keepsOk_head (hctx : ctx.registry.Canonical) (ht : t.Canonical) (w : normality.Stage) :
    normality.KeepsOk w normality.Ok (Relate.head ctx t) :=
  Discipline.keepsOk_head (Registry.registers_iff.2 hctx) ht

theorem runsOk_recordShape (hctx : ctx.registry.Canonical) (ht : t.Canonical) :
    RunsOk (recordShape ctx t) (Relate.recordShape ctx t) := by
  unfold recordShape Relate.recordShape
  refine (runsOk_head hctx ht).bind (keepsOk_head hctx ht) fun u _ _ => ?_
  cases u with
  | record fs row => exact runsOk_pure _
  | var v =>
      exact (runsOk_tries (Relate.fresh v.level)).bind (fun _ => Discipline.keepsOk_freshRow _)
        fun row _ _ => runsOk_tries _
  | _ => exact runsOk_throw _

theorem runsOk_spreadRecord (hctx : ctx.registry.Canonical) (ht : t.Canonical) :
    RunsOk (spreadRecord ctx t) (Relate.spreadRecord ctx t) := by
  unfold spreadRecord Relate.spreadRecord
  refine (runsOk_head hctx ht).bind (keepsOk_head hctx ht) fun u _ _ => ?_
  cases u with
  | record fs row => exact runsOk_pure _
  | var v => exact runsOk_pure _
  | _ => exact runsOk_throw _

theorem runsOk_overlay (h : RunsRel unify' unify) (replace : Bool) :
    ∀ {fs : List (String × Ty)} {m : Merging}, (∀ f ∈ fs, f.2.Canonical) →
      normality.Merges (0 : Nat) m →
      RunsOk (overlay ctx unify' replace fs m) (Relate.overlay ctx unify replace fs m)
  | [], m, _, _ => runsOk_pure m
  | (name, t) :: fs, m, hfs, hm => by
      obtain ⟨ht, hfs⟩ := List.forall_mem_cons.1 hfs
      have hs : m.subst.Canonical := hm.subst
      have ht' := hs.apply ht
      have hrest : ∀ (m : Merging) (w : normality.Stage), normality.Merges w m →
          RunsOk (overlay ctx unify' replace fs m) (Relate.overlay ctx unify replace fs m) :=
        fun m w hm => runsOk_overlay h replace hfs ⟨hm.fields, hm.subst⟩
      rw [overlay, Relate.overlay]
      refine runsOk_build (apply_eq hs ht) ?_
      cases hexisting : Table.get? name m.fields with
      | none => exact hrest _ (0 : Nat) ⟨Discipline.ok_insert hm.fields ht', hs⟩
      | some existing =>
          have hold := hm.fields _ (Table.mem_of_get? hexisting)
          refine runsOk_build (apply_eq hs hold) ?_
          refine (runsOk_orElseThrow (h.runs (hs.apply hold) ht') _).bind
            (fun w => Discipline.keepsOk_orElseThrow (h.keepsOk (hs.apply hold) ht' w) _)
            fun next _ hnext => ?_
          refine runsOk_build (after_eq hnext hs) (hrest _ (0 : Nat) ⟨?_, hnext.after hs⟩)
          dsimp only
          split
          · exact Discipline.ok_insert hm.fields ht'
          · exact hm.fields

theorem runsOk_overlaySpreads (hctx : ctx.registry.Canonical) (h : RunsRel unify' unify) :
    ∀ {ts : List Ty} {m : Merging}, (∀ t ∈ ts, t.Canonical) → normality.Merges (0 : Nat) m →
      RunsOk (overlaySpreads ctx unify' ts m) (Relate.overlaySpreads ctx unify ts m)
  | [], m, _, _ => runsOk_pure m
  | t :: ts, m, hts, hm => by
      obtain ⟨ht, hts⟩ := List.forall_mem_cons.1 hts
      have hs : m.subst.Canonical := hm.subst
      rw [overlaySpreads, Relate.overlaySpreads]
      refine runsOk_build (apply_eq hs ht) ?_
      refine (runsOk_spreadRecord hctx (hs.apply ht)).bind (fun w =>
        Discipline.keepsOk_spreadRecord (Registry.registers_iff.2 hctx) (Nat.zero_le w)
          (hs.apply ht)) fun r _ hr => ?_
      refine (runsOk_overlay h false hr hm).bind (fun w =>
        Discipline.keepsOk_overlay h.keeps false (Nat.zero_le w) hr (hm.later (Nat.zero_le w)))
        fun m' w hm' => ?_
      exact runsOk_overlaySpreads hctx h hts ⟨hm'.fields, hm'.subst⟩

theorem runsOk_merge (hctx : ctx.registry.Canonical) (h : RunsRel unify' unify) {result : Ty}
    {spreads : List Ty} {explicit : RecordTy} (hresult : result.Canonical)
    (hspreads : ∀ t ∈ spreads, t.Canonical) (hexplicit : explicit.toTy.Canonical) :
    RunsOk (merge ctx unify' result spreads explicit)
      (Relate.merge ctx unify result spreads explicit) := by
  have hempty : normality.Merges (0 : Nat) {} := ⟨by simp, Discipline.sends_empty⟩
  unfold merge Relate.merge
  refine (runsOk_overlaySpreads hctx h hspreads hempty).bind (fun w =>
    Discipline.keepsOk_overlaySpreads (Registry.registers_iff.2 hctx) h.keeps (Nat.zero_le w)
      hspreads (hempty.later (Nat.zero_le w))) fun m w hm => ?_
  refine (runsOk_overlay h true hexplicit.fields ⟨hm.fields, hm.subst⟩).bind (fun w' =>
    Discipline.keepsOk_overlay h.keeps true (Nat.zero_le w') hexplicit.fields
      ⟨hm.fields, hm.subst⟩) fun m' _ hm' => ?_
  have hs : m'.subst.Canonical := hm'.subst
  refine (runsOk_tries (Relate.fresh 0)).bind (fun _ => Discipline.keepsOk_freshRow 0)
    fun row _ _ => ?_
  have hmerged : (Ty.record m'.fields (some row)).Canonical := .record _ hm'.fields
  refine runsOk_build (apply_eq hs hmerged) (runsOk_build (apply_eq hs hresult) ?_)
  refine (h.runs (hs.apply hresult) (hs.apply hmerged)).bind
    (h.keepsOk (hs.apply hresult) (hs.apply hmerged)) fun next _ hnext => ?_
  exact runsOk_built (after_eq hnext hs)

end Spreads

end Must

end RowTypes
