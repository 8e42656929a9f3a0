import RowTypes.Proofs.Runs
import RowTypes.Proofs.Substitutions
import RowTypes.Solver.Join

/-!
# Relating types gives ordered substitutions

Composition binds unknowns one by one, starting from nothing, so what it gives is ordered whatever
it is given.  Everything that relating and joining types finds is empty, binds one unknown, or is
composed, so it is ordered too, and a binding that was made can be followed through all that is
found later.
-/

namespace RowTypes

theorem Subst.ordered_after (s first : Subst) : (s.after first).Ordered := by
  have hfoldr : ∀ bindings : Table Int Binding, (bindings.foldr (fun entry acc =>
      acc.bind entry.2.var (s.apply entry.2.ty)) empty).Ordered := by
    intro bindings
    induction bindings with
    | nil => exact ordered_empty
    | cons entry bindings ih => exact ih.bind _ _
  have hfoldl : ∀ (bindings : Table Int Binding) {acc : Subst}, acc.Ordered →
      (bindings.foldl (fun acc entry =>
        if Table.has entry.1 first.bindings then acc
        else acc.bind entry.2.var entry.2.ty) acc).Ordered := by
    intro bindings
    induction bindings with
    | nil => exact fun h => h
    | cons entry bindings ih =>
        intro acc hacc
        rw [List.foldl_cons]
        split
        · exact ih hacc
        · exact ih (hacc.bind _ _)
  exact hfoldl _ (hfoldr _)

namespace Relate

/-- What a run gives, whatever it starts from, satisfies a predicate. -/
def Yields {α : Type} (P : α → Prop) (m : Relate α) : Prop :=
  ∀ p, Ends m p (fun a _ => P a) fun _ _ => True

section Yields

variable {α β : Type} {P : α → Prop} {Q : β → Prop}

theorem yields_pure {a : α} (h : P a) : Yields P (pure a) := fun _ => ends_pure h

theorem yields_throw (e : Diagnostic) : Yields P (throw e) := fun _ => ends_throw trivial

theorem Yields.bind {m : Relate α} {f : α → Relate β} (h : Yields P m)
    (hf : ∀ a, P a → Yields Q (f a)) : Yields Q (m >>= f) := fun p =>
  Ends.bind ((h p).imp (fun a q ha => hf a ha q) fun _ _ h => h)

theorem yields_any (m : Relate α) : Yields (fun _ => True) m := by
  intro p
  unfold Ends
  split <;> trivial

theorem yields_orElseThrow {m : Relate α} {d : Diagnostic → Diagnostic} (h : Yields P m) :
    Yields P (orElseThrow m d) := fun p => ends_orElseThrow (h p)

/-- What an attempt finds is what the run gives. -/
theorem yields_attempt {m : Relate α} (h : Yields P m) :
    Yields (fun o : Option α => ∀ a, o = some a → P a) (liftM (attempt m) : Relate (Option α)) := by
  intro p
  refine ends_lift fun a ha => ?_
  have hends := h p
  unfold Ends at hends
  rw [show (attempt m).run p = attempt m p from rfl, attempt] at ha
  generalize m.run p = out at hends ha
  obtain ⟨r, q⟩ := out
  cases r with
  | ok b => cases ha; exact hends
  | error e => cases ha

/-- What the first attempt that succeeds finds is what one of the runs gives. -/
theorem yields_firstOf {m : Ty → Relate α} (h : ∀ t, Yields P (m t)) (ts : List Ty) :
    Yields (fun o : Option α => ∀ a, o = some a → P a)
      (liftM (firstOf m ts) : Relate (Option α)) := by
  induction ts with
  | nil => exact yields_pure (by rintro a ⟨⟩)
  | cons t ts ih =>
      intro p
      refine ends_lift fun a ha => ?_
      rw [firstOf, StateM.run_bind] at ha
      cases hfirst : ((attempt (m t)).run p).1 with
      | some b =>
          rw [hfirst] at ha
          cases ha
          exact yields_attempt (h t) p a hfirst
      | none =>
          rw [hfirst] at ha
          exact ih _ a ha

end Yields

/-! ## Unification -/

/-- What a relation finds is ordered. -/
def Orderly (rel : Relation) : Prop := ∀ a b, Yields Subst.Ordered (rel a b)

section Unification

variable {ctx : Context} {rel : Relation}

theorem yields_after (m : Relate Subst) (s : Subst) :
    Yields Subst.Ordered (m >>= fun next => pure (next.after s)) :=
  (yields_any m).bind fun next _ => yields_pure (Subst.ordered_after next s)

theorem yields_bindVar (v : TyVar) (t : Ty) : Yields Subst.Ordered (bindVar ctx v t) := by
  unfold bindVar
  split
  · split
    · exact yields_pure Subst.ordered_empty
    · exact yields_pure (Subst.ordered_single _ _)
  · split
    · exact yields_throw _
    · exact yields_pure (Subst.ordered_single _ _)

theorem yields_thread : ∀ (pairs : List (Ty × Ty)) {s : Subst}, s.Ordered →
    Yields Subst.Ordered (thread rel pairs s)
  | [], _, hs => yields_pure hs
  | (_, _) :: pairs, s, _ =>
      (yields_any _).bind fun next _ => yields_thread pairs (Subst.ordered_after next s)

theorem yields_unifyRows {s : Subst} (hs : s.Ordered) (a b : RecordTy) (onlyA onlyB : List String) :
    Yields Subst.Ordered (unifyRows ctx s a b onlyA onlyB) := by
  unfold unifyRows
  split
  · split
    · exact yields_pure hs
    · exact yields_throw _
  · split
    · exact yields_after _ _
    · exact yields_throw _
  · split
    · exact yields_after _ _
    · exact yields_throw _
  · split
    · split
      · exact yields_pure hs
      · exact yields_throw _
    · exact (yields_any _).bind fun _ _ => (yields_any _).bind fun _ _ => yields_after _ _

theorem yields_unifyRecords (a b : RecordTy) : Yields Subst.Ordered (unifyRecords ctx rel a b) := by
  refine (yields_thread _ Subst.ordered_empty).bind fun s hs => ?_
  split
  · exact yields_after _ _
  · exact yields_unifyRows hs _ _ _ _

theorem yields_absorb (hrel : Orderly rel) (t : Ty) (alts : List Ty) :
    Yields Subst.Ordered (absorb ctx rel t alts) := by
  refine (yields_firstOf (hrel t) alts).bind fun o ho => ?_
  split
  · exact yields_pure (ho _ rfl)
  · exact yields_throw _

theorem yields_absorbAll {target : Ty} : ∀ (alts : List Ty) {s : Subst}, s.Ordered →
    Yields Subst.Ordered (absorbAll ctx rel target alts s)
  | [], _, hs => yields_pure hs
  | _ :: alts, s, _ => by
      rw [absorbAll]
      split
      · exact (yields_any _).bind fun next _ => yields_absorbAll alts (Subst.ordered_after next s)
      · exact (yields_any _).bind fun next _ => yields_absorbAll alts (Subst.ordered_after next s)

theorem yields_unifyIndirect (hrel : Orderly rel) (a b : Ty) :
    Yields Subst.Ordered (unifyIndirect ctx rel a b) := by
  unfold unifyIndirect
  refine (yields_any _).bind fun assumed _ => ?_
  split
  · exact yields_pure Subst.ordered_empty
  · dsimp only
    split
    · refine (yields_attempt (yields_thread _ Subst.ordered_empty)).bind fun o ho => ?_
      split
      · exact yields_pure (ho _ rfl)
      · split <;> first | exact hrel _ _ | exact (yields_any _).bind fun _ _ => hrel _ _
    · split <;> first | exact hrel _ _ | exact (yields_any _).bind fun _ _ => hrel _ _

theorem yields_unifyShapes (hrel : Orderly rel) (a b : Ty) :
    Yields Subst.Ordered (unifyShapes ctx rel a b) := by
  have hempty := Subst.ordered_empty
  unfold unifyShapes
  split
  · exact yields_orElseThrow ((yields_absorbAll _ hempty).bind fun _ hs => yields_absorbAll _ hs)
  · exact yields_absorb hrel _ _
  · exact yields_orElseThrow (yields_thread _ hempty)
  · exact yields_absorb hrel _ _
  · exact yields_orElseThrow (yields_thread _ hempty)
  · exact yields_pure hempty
  · exact yields_pure hempty
  · exact yields_thread _ hempty
  · split
    · exact yields_thread _ hempty
    · exact yields_throw _
  · exact yields_unifyRecords _ _
  · exact yields_throw _

theorem orderly_unifyStep (hrel : Orderly rel) : Orderly (unifyStep ctx rel) := by
  intro a b
  unfold unifyStep
  split
  · exact yields_pure Subst.ordered_empty
  · split
    · exact yields_bindVar _ _
    · exact yields_bindVar _ _
    · split
      · exact yields_unifyIndirect hrel _ _
      · exact yields_unifyShapes hrel _ _

theorem orderly_unify (ctx : Context) : ∀ limit : Nat, Orderly (unify ctx limit)
  | 0 => fun _ _ _ => ends_exceed trivial
  | limit + 1 => orderly_unifyStep (orderly_unify ctx limit)

end Unification

/-! ## Joins -/

section Joins

variable {ctx : Context} {rel : Relation} {join : Ty → Ty → Relate Joined}

theorem yields_joinUnified (hrel : Orderly rel) (a b : Ty) :
    Yields (fun j : Joined => j.2.Ordered) (joinUnified rel a b) :=
  (hrel a b).bind fun _ hs => yields_pure hs

theorem yields_joinAll : ∀ (pairs : List (Ty × Ty)) (done : List Ty) {s : Subst}, s.Ordered →
    Yields (fun j : Joined => j.2.Ordered) (joinAll join pairs done s)
  | [], _, _, hs => yields_pure hs
  | (_, _) :: pairs, _, s, _ => (yields_any _).bind fun j _ =>
      yields_joinAll pairs _ (Subst.ordered_after j.2 s)

theorem yields_joinIntoUnion (hrel : Orderly rel) (alts : List Ty) (b : Ty) :
    Yields (fun j : Joined => j.2.Ordered) (joinIntoUnion ctx rel alts b) := by
  have happart : ∀ apart : Bool, Yields (fun j : Joined => j.2.Ordered)
      (if apart then pure (Ty.unionOf (alts ++ [b]), .empty)
        else throw (mismatch ctx (.union alts) b "branches have different types")) := by
    rintro (_ | _)
    · exact yields_throw _
    · exact yields_pure Subst.ordered_empty
  refine (yields_firstOf (fun alt => hrel alt b) alts).bind fun o ho => ?_
  split
  · exact yields_pure (ho _ rfl)
  · exact happart _

theorem yields_joinBranches (hrel : Orderly rel) : ∀ (depth : Nat) (a b : Ty),
    Yields (fun j : Joined => j.2.Ordered) (joinBranches ctx rel depth a b)
  | 0, _, _ => yields_throw _
  | depth + 1, a, b => by
      rw [joinBranches]
      unfold joinBranchesStep
      split
      · exact yields_joinUnified hrel _ _
      · exact yields_joinUnified hrel _ _
      · split
        · exact yields_pure Subst.ordered_empty
        · exact yields_joinUnified hrel _ _
      · exact yields_joinIntoUnion hrel _ _
      · split
        · exact yields_joinAll _ _ Subst.ordered_empty
        · exact yields_joinUnified hrel _ _
      · split
        · exact yields_joinUnified hrel _ _
        · exact yields_pure Subst.ordered_empty
      · exact yields_joinUnified hrel _ _

end Joins

end Relate

end RowTypes
