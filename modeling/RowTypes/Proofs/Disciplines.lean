import RowTypes.Proofs.OvertTypes

/-!
# Disciplines of types

Much of what is true of the types in a program is true for one reason: it holds of the types at the
start, and whatever is done with types keeps it.  A `Discipline` is such a condition, given by the
few facts about constructors and unknowns that the rest follows from; that a whole run keeps it is
then proved once, for every discipline.

A condition may depend on the unknowns that have been made, and on what each was made for, so it is
stated at stages.  A run goes from one stage to a later one, where everything that was in order
before still is.  An unknown is made for a type or for a row, and it is the run that decides, so
there is a later stage for either.

What a substitution may send a number to depends on what the number stands for.  A row may be sent
to another row or to a record, and nothing else: anything else would leave the record as it was.

A discipline may ask that a constructor shows at the head of whatever is recursive.  Every search
for a head ends then, and a discipline that asks it may keep account of that.
-/

namespace RowTypes

/-- A condition on types that is kept by what is done with them. -/
structure Discipline where
  /-- How far a run has come. -/
  Stage : Type
  /-- How many unknowns have been made. -/
  count : Stage → Nat
  /-- The first stage may lead to the second. -/
  Before : Stage → Stage → Prop
  /-- The numbers of unknowns that any type may be put for. -/
  Plain : Stage → Int → Prop
  /-- The numbers of rows. -/
  Row : Stage → Int → Prop
  /-- The types that are in order. -/
  Ok : Stage → Ty → Prop
  /-- Whether a constructor has to show at the head of definitions and recursive types. -/
  headed : Prop := False
  /-- What is kept account of, given whether every search so far ends. -/
  Ending : Prop → Prop := fun _ => True
  refl : ∀ w, Before w w
  trans : ∀ {u v w}, Before u v → Before v w → Before u w
  plain_later : ∀ {w w' id}, Before w w' → Plain w id → Plain w' id
  row_later : ∀ {w w' id}, Before w w' → Row w id → Row w' id
  ok_later : ∀ {w w' t}, Before w w' → Ok w t → Ok w' t
  exists_var : ∀ w level, ∃ w', Before w w' ∧ count w' = count w + 1 ∧
    Ok w' (.var ⟨(count w : Int) + 1, level⟩)
  exists_row : ∀ w, ∃ w', Before w w' ∧ count w' = count w + 1 ∧ Row w' ((count w : Int) + 1)
  /-- Rows are apart from the numbers of types, or no difference is made between them. -/
  sorts : ∀ w, (∀ id, Row w id → ¬ Plain w id) ∨
    (∀ id, Plain w id) ∧ ∀ v : TyVar, Ok w (.var v) ↔ Row w v.id
  plain_of_var : ∀ {w} {v : TyVar}, Ok w (.var v) → Plain w v.id
  prim : ∀ w name, Ok w (.prim name)
  lit : ∀ w value, Ok w (.lit value)
  fn : ∀ {w p r}, Ok w (.fn p r) ↔ Ok w p ∧ Ok w r
  record : ∀ {w fs row}, Ok w (.record fs row) ↔
    (∀ f ∈ fs, Ok w f.2) ∧ ∀ v, row = some v → Row w v.id
  tuple : ∀ {w ts}, Ok w (.tuple ts) ↔ ∀ t ∈ ts, Ok w t
  named : ∀ {w name ts}, Ok w (.named name ts) ↔ ∀ t ∈ ts, Ok w t
  mu : ∀ {w v t}, Ok w (.mu v t) ↔ Ok w (.var v) ∧ Ok w t ∧ (headed → t.Overt)
  union : ∀ {w ts}, Ok w (.union ts) → ∀ t ∈ ts, Ok w t
  inter : ∀ {w ts}, Ok w (.inter ts) → ∀ t ∈ ts, Ok w t
  unionOf : ∀ {w ts}, ts ≠ [] → (∀ t ∈ ts, Ok w t) → Ok w (Ty.unionOf ts)
  interOf : ∀ {w ts}, ts ≠ [] → (∀ t ∈ ts, Ok w t) → Ok w (Ty.interOf ts)
  ending : ∀ {ends more}, Ending ends → (headed → more) → Ending (ends ∧ more) := by
    exact fun _ _ => trivial

namespace Discipline

/-- Where stages only count and nothing is asked of rows, there is always one more. -/
theorem exists_row_counted (w : Nat) : ∃ w', w ≤ w' ∧ id w' = id w + 1 ∧ True :=
  ⟨w + 1, Nat.le_succ w, rfl, trivial⟩

variable {D : Discipline} {w w' : D.Stage} {s next : Subst} {t : Ty} {v : TyVar} {id : Int}

theorem Ok.later (h : D.Ok w t) (hw : D.Before w w') : D.Ok w' t := D.ok_later hw h

theorem Row.later (h : D.Row w id) (hw : D.Before w w') : D.Row w' id := D.row_later hw h

theorem Before.trans {w'' : D.Stage} (h : D.Before w w') (h' : D.Before w' w'') :
    D.Before w w'' := D.trans h h'

/-! ## Substitutions -/

/-- What a row may be sent to: a row, or a record. -/
def Behind (D : Discipline) (w : D.Stage) : Ty → Prop
  | .var v => D.Row w v.id
  | .record fs row => D.Ok w (.record fs row)
  | _ => False

/-- A number may be sent to a type. -/
def Binds (D : Discipline) (w : D.Stage) (id : Int) (t : Ty) : Prop :=
  D.Plain w id ∧ D.Ok w t ∨ D.Row w id ∧ D.Behind w t

/-- A substitution sends each number to what it may be sent to. -/
def Sends (D : Discipline) (w : D.Stage) (s : Subst) : Prop :=
  ∀ entry ∈ s.bindings, entry.2.var.id = entry.1 ∧ D.Binds w entry.1 entry.2.ty

theorem Behind.later (hw : D.Before w w') : ∀ {t : Ty}, D.Behind w t → D.Behind w' t
  | .var _, h => D.row_later hw h
  | .record _ _, h => D.ok_later hw h

theorem Binds.later (h : D.Binds w id t) (hw : D.Before w w') : D.Binds w' id t :=
  h.imp (And.imp (D.plain_later hw) (D.ok_later hw)) (And.imp (D.row_later hw) (Behind.later hw))

theorem Sends.later (h : D.Sends w s) (hw : D.Before w w') : D.Sends w' s :=
  fun entry hentry => (h entry hentry).imp_right (·.later hw)

theorem Sends.get? (h : D.Sends w s) (ht : s.get? id = some t) : D.Binds w id t := by
  obtain ⟨b, hb, rfl⟩ := Option.map_eq_some_iff.1 ht
  exact (h _ (Table.mem_of_get? hb)).2

theorem binds_of_ok (hv : D.Ok w (.var v)) (ht : D.Ok w t) : D.Binds w v.id t :=
  .inl ⟨D.plain_of_var hv, ht⟩

theorem ok_of_binds (hv : D.Ok w (.var v)) (h : D.Binds w v.id t) : D.Ok w t := by
  rcases h with ⟨-, ht⟩ | ⟨hrow, hbehind⟩
  · exact ht
  · rcases D.sorts w with hapart | ⟨-, halike⟩
    · exact absurd (D.plain_of_var hv) (hapart _ hrow)
    · cases t with
      | var x => exact (halike x).2 hbehind
      | record fs row => exact hbehind
      | _ => exact hbehind.elim

theorem row_of_binds {x : TyVar} (hrow : D.Row w id) (h : D.Binds w id (.var x)) :
    D.Row w x.id := by
  rcases h with ⟨hplain, hx⟩ | ⟨-, hx⟩
  · rcases D.sorts w with hapart | ⟨-, halike⟩
    · exact absurd hplain (hapart _ hrow)
    · exact (halike x).1 hx
  · exact hx

theorem record_of_binds {fs : List (String × Ty)} {row : Option TyVar}
    (h : D.Binds w id (.record fs row)) : D.Ok w (.record fs row) := h.elim (·.2) (·.2)

/-- What a number may be sent to is what an unknown that it was sent to may be sent to. -/
theorem Binds.trans {x : TyVar} (h : D.Binds w id (.var x)) (ht : D.Binds w x.id t) :
    D.Binds w id t := by
  rcases h with ⟨hplain, hx⟩ | ⟨hrow, hx⟩
  · exact .inl ⟨hplain, ok_of_binds hx ht⟩
  · rcases ht with ⟨hplain, ht⟩ | ⟨-, ht⟩
    · rcases D.sorts w with hapart | ⟨hall, -⟩
      · exact absurd hplain (hapart _ hx)
      · exact .inl ⟨hall id, ht⟩
    · exact .inr ⟨hrow, ht⟩

theorem ok_unionOf_of {ts us : List Ty} (h : D.Ok w (.union ts)) (hlength : us.length = ts.length)
    (hus : ∀ u ∈ us, D.Ok w u) : D.Ok w (Ty.unionOf us) := by
  cases us with
  | nil =>
      obtain rfl := List.length_eq_zero_iff.1 hlength.symm
      exact h
  | cons u us => exact D.unionOf (List.cons_ne_nil _ _) hus

theorem ok_interOf_of {ts us : List Ty} (h : D.Ok w (.inter ts)) (hlength : us.length = ts.length)
    (hus : ∀ u ∈ us, D.Ok w u) : D.Ok w (Ty.interOf us) := by
  cases us with
  | nil =>
      obtain rfl := List.length_eq_zero_iff.1 hlength.symm
      exact h
  | cons u us => exact D.interOf (List.cons_ne_nil _ _) hus

theorem ok_unionOf? {ts : List Ty} {u : Ty} (h : ∀ t ∈ ts, D.Ok w t)
    (hu : Ty.unionOf? ts = some u) : D.Ok w u := by
  have hne : ts ≠ [] := by
    rintro rfl
    cases hu
  have hok := D.unionOf hne h
  rwa [Ty.unionOf, hu] at hok

theorem ok_interOf? {ts : List Ty} {u : Ty} (h : ∀ t ∈ ts, D.Ok w t)
    (hu : Ty.interOf? ts = some u) : D.Ok w u := by
  have hne : ts ≠ [] := by
    rintro rfl
    cases hu
  have hok := D.interOf hne h
  rwa [Ty.interOf, hu] at hok

theorem ok_splice {fs : List (String × Ty)} {row : TyVar} {bound : Option Ty}
    (h : D.Ok w (.record fs (some row))) (hbound : ∀ u, bound = some u → D.Binds w row.id u) :
    D.Ok w (RecordTy.splice fs row bound).toTy := by
  obtain ⟨hfs, hrow⟩ := D.record.1 h
  unfold RecordTy.splice
  split
  · exact h
  · next x =>
      refine D.record.2 ⟨hfs, ?_⟩
      rintro y ⟨⟩
      exact row_of_binds (hrow row rfl) (hbound _ rfl)
  · next more rest =>
      obtain ⟨hmore, hrest⟩ := D.record.1 (record_of_binds (hbound _ rfl))
      exact D.record.2 ⟨fun f hf => (Table.mem_underlay hf).elim (hfs f) (hmore f), hrest⟩
  · exact h

theorem sends_empty : D.Sends w .empty := by intro entry hentry; cases hentry

theorem Sends.erase (h : D.Sends w s) (v : TyVar) : D.Sends w (s.erase v) :=
  fun entry hentry => h entry (List.mem_filter.1 hentry).1

theorem Sends.without : ∀ {s : Subst}, D.Sends w s → ∀ vs : List TyVar, D.Sends w (s.without vs)
  | _, h, [] => h
  | _, h, v :: vs => (h.erase v).without vs

theorem Sends.bind (h : D.Sends w s) (ht : D.Binds w v.id t) : D.Sends w (s.bind v t) := by
  have hinsert : D.Sends w ⟨Table.insert v.id ⟨v, t⟩ s.bindings⟩ := by
    intro entry hentry
    rcases Table.mem_insert hentry with rfl | hentry
    · exact ⟨rfl, ht⟩
    · exact h entry hentry
  unfold Subst.bind
  split
  · split
    · exact h.erase v
    · exact hinsert
  · exact hinsert

theorem sends_single (ht : D.Binds w v.id t) : D.Sends w (.single v t) := sends_empty.bind ht

theorem sends_ofList {bindings : List (TyVar × Ty)}
    (h : ∀ b ∈ bindings, D.Binds w b.1.id b.2) : D.Sends w (.ofList bindings) :=
  Subst.ofList_induction sends_empty fun b hb _ hs => hs.bind (h b hb)

mutual

/-- A substitution that is in order keeps types in order. -/
theorem Sends.apply : ∀ {s : Subst} {t : Ty}, D.Sends w s → D.Ok w t → D.Ok w (s.apply t)
  | s, .var v, hs, ht => by
      rw [Subst.apply_var]
      cases hv : s.get? v.id with
      | none => exact ht
      | some u => exact ok_of_binds ht (hs.get? hv)
  | s, .prim name, _, ht => by
      rw [Subst.apply_prim]
      exact ht
  | s, .lit value, _, ht => by
      rw [Subst.apply.eq_def]
      split <;> exact ht
  | s, .fn p r, hs, ht => by
      obtain ⟨hp, hr⟩ := D.fn.1 ht
      rw [Subst.apply_fn]
      exact D.fn.2 ⟨hs.apply hp, hs.apply hr⟩
  | s, .record fs none, hs, ht => by
      rw [Subst.apply_closed, ← Subst.applyFields_eq_map]
      exact D.record.2 ⟨hs.applyFields (D.record.1 ht).1, by rintro v ⟨⟩⟩
  | s, .record fs (some row), hs, ht => by
      obtain ⟨hfs, hrow⟩ := D.record.1 ht
      rw [Subst.apply_open, ← Subst.applyFields_eq_map]
      exact ok_splice (D.record.2 ⟨hs.applyFields hfs, hrow⟩) fun u hu => hs.get? hu
  | s, .tuple ts, hs, ht => by
      rw [Subst.apply_tuple, ← Subst.applyAll_eq_map]
      exact D.tuple.2 (hs.applyAll (D.tuple.1 ht))
  | s, .union ts, hs, ht => by
      rw [Subst.apply]
      split
      · exact ht
      · exact ok_unionOf_of ht (by simp [Subst.applyAll_eq_map]) (hs.applyAll (D.union ht))
  | s, .inter ts, hs, ht => by
      rw [Subst.apply]
      split
      · exact ht
      · exact ok_interOf_of ht (by simp [Subst.applyAll_eq_map]) (hs.applyAll (D.inter ht))
  | s, .named name ts, hs, ht => by
      rw [Subst.apply_named, ← Subst.applyAll_eq_map]
      exact D.named.2 (hs.applyAll (D.named.1 ht))
  | s, .mu v t, hs, ht => by
      obtain ⟨hv, ht', hovert⟩ := D.mu.1 ht
      rw [Subst.apply]
      split
      · exact ht
      · exact D.mu.2 ⟨hv, (hs.erase v).apply ht', fun hheaded => (hovert hheaded).apply _⟩

theorem Sends.applyAll : ∀ {s : Subst} {ts : List Ty}, D.Sends w s → (∀ t ∈ ts, D.Ok w t) →
    ∀ t ∈ s.applyAll ts, D.Ok w t
  | s, [], _, _ => by simp [Subst.applyAll]
  | s, t :: ts, hs, hts => by
      rw [List.forall_mem_cons] at hts
      rw [Subst.applyAll, List.forall_mem_cons]
      exact ⟨hs.apply hts.1, hs.applyAll hts.2⟩

theorem Sends.applyFields : ∀ {s : Subst} {fs : List (String × Ty)}, D.Sends w s →
    (∀ f ∈ fs, D.Ok w f.2) → ∀ f ∈ s.applyFields fs, D.Ok w f.2
  | s, [], _, _ => by simp [Subst.applyFields]
  | s, (name, t) :: fs, hs, hfs => by
      rw [List.forall_mem_cons] at hfs
      rw [Subst.applyFields, List.forall_mem_cons]
      exact ⟨hs.apply hfs.1, hs.applyFields hfs.2⟩

end

theorem Binds.apply (ht : D.Binds w id t) (hs : D.Sends w s) : D.Binds w id (s.apply t) := by
  rcases ht with ⟨hplain, ht⟩ | ⟨hrow, hbehind⟩
  · exact .inl ⟨hplain, hs.apply ht⟩
  · cases t with
    | var x =>
        rw [Subst.apply_var]
        cases hx : s.get? x.id with
        | none => exact .inr ⟨hrow, hbehind⟩
        | some u => exact Binds.trans (.inr ⟨hrow, hbehind⟩) (hs.get? hx)
    | record fs row =>
        have hok := hs.apply (show D.Ok w (.record fs row) from hbehind)
        refine .inr ⟨hrow, ?_⟩
        cases row with
        | none =>
            rw [Subst.apply_closed] at hok ⊢
            exact hok
        | some r =>
            rw [Subst.apply_open] at hok ⊢
            exact hok
    | _ => exact hbehind.elim

theorem Sends.after (hnext : D.Sends w next) (hs : D.Sends w s) : D.Sends w (next.after s) := by
  refine Subst.after_induction sends_empty (fun entry hentry acc hacc => ?_)
    fun entry hentry acc hacc => ?_
  · obtain ⟨hkey, hbinds⟩ := hs entry hentry
    exact hacc.bind (hkey ▸ hbinds.apply hnext)
  · obtain ⟨hkey, hbinds⟩ := hnext entry hentry
    exact hacc.bind (hkey ▸ hbinds)

theorem ok_unfold (h : D.Ok w (.mu v t)) : D.Ok w (.unfold v t) := by
  obtain ⟨hv, ht, -⟩ := D.mu.1 h
  exact (sends_single (binds_of_ok hv h)).apply ht

theorem row_rowUnder {r : RecordTy} {x : TyVar} (hr : D.Ok w r.toTy) (hs : D.Sends w s)
    (hx : r.rowUnder s = some x) : D.Row w x.id := by
  obtain ⟨-, hrow⟩ := D.record.1 hr
  unfold RecordTy.rowUnder at hx
  split at hx
  · cases hx
  · next v hv =>
      have hvrow : D.Row w v.id := hrow v hv
      rw [Subst.apply_var] at hx
      cases hbound : s.get? v.id with
      | none =>
          rw [hbound] at hx
          cases hx
          exact hvrow
      | some u =>
          rw [hbound, Option.getD_some] at hx
          have hbinds := hs.get? hbound
          split at hx
          · cases hx
            exact row_of_binds hvrow hbinds
          · exact (D.record.1 (record_of_binds hbinds)).2 x hx
          · cases hx
            exact hvrow

/-! ## Named types -/

/-- A definition is in order: any type may be put for its parameters. -/
structure Defines (D : Discipline) (w : D.Stage) (d : Definition) : Prop where
  params : ∀ v ∈ d.params, D.Plain w v.id
  body : D.Ok w d.body
  overt : D.headed → d.body.Overt

theorem Defines.later {d : Definition} (h : D.Defines w d) (hw : D.Before w w') :
    D.Defines w' d :=
  ⟨fun v hv => D.plain_later hw (h.params v hv), D.ok_later hw h.body, h.overt⟩

theorem Defines.expand? {d : Definition} {args : List Ty} (h : D.Defines w d)
    (hargs : ∀ u ∈ args, D.Ok w u) (ht : d.expand? args = some t) : D.Ok w t := by
  unfold Definition.expand? at ht
  split at ht
  · cases ht
    refine Sends.apply (sends_ofList fun b hb => ?_) h.body
    obtain ⟨hparam, harg⟩ := List.of_mem_zip hb
    exact .inl ⟨h.params _ hparam, hargs _ harg⟩
  · cases ht

/-- The definitions and the remembered normal forms of a registry are in order. -/
structure Registers (D : Discipline) (w : D.Stage) (r : Registry) : Prop where
  definitions : ∀ entry ∈ r.definitions, D.Defines w entry.2
  memo : ∀ entry ∈ r.memo, D.Ok w entry.2

theorem Registers.later {r : Registry} (h : D.Registers w r) (hw : D.Before w w') :
    D.Registers w' r :=
  ⟨fun entry hentry => (h.definitions entry hentry).later hw,
    fun entry hentry => D.ok_later hw (h.memo entry hentry)⟩

theorem Registers.lookup? {r : Registry} (h : D.Registers w r) {name : String} {d : Definition}
    (hd : r.lookup? name = some d) : D.Defines w d := h.definitions _ (Table.mem_of_get? hd)

/-- The search for the head of a type that is in order ends, if it has to. -/
theorem Registers.isSome_head? {r : Registry} (h : D.Registers w r) (ht : D.Ok w t)
    (hheaded : D.headed) : (r.head? t).isSome := by
  refine Registry.isSome_head? (fun _ _ hd => (h.lookup? hd).overt hheaded) ?_
  rintro v b rfl
  exact (D.mu.1 ht).2.2 hheaded

/-! ## Runs -/

/-- What a run goes on from is described by a stage. -/
class Holding (D : Discipline) (S : Type) where
  At : D.Stage → S → Prop

/-- Relating types keeps no types. -/
instance : D.Holding Progress :=
  ⟨fun w p => D.count w = p.supply.count ∧ (D.headed → p.ends)⟩

/-- A session keeps the named types. -/
instance : D.Holding Session :=
  ⟨fun w σ => D.count w = σ.supply.count ∧ D.Registers w σ.registry ∧ D.Ending σ.ends⟩

section Runs

variable {S : Type} [D.Holding S] {α β : Type} {made : D.Stage → α → Prop}
  {made' : D.Stage → β → Prop}

/-- A run comes to a later stage, where its result is in order. -/
def Keeps (D : Discipline) [D.Holding S] (w : D.Stage) (made : D.Stage → α → Prop)
    (m : StateM S α) : Prop :=
  ∀ σ : S, Holding.At w σ → ∃ w', D.Before w w' ∧ Holding.At w' (m.run σ).2 ∧
    made w' (m.run σ).1

/-- A run that may fail comes to a later stage, where its result is in order. -/
def KeepsOk (D : Discipline) [D.Holding S] (w : D.Stage) (made : D.Stage → α → Prop)
    (m : ExceptT Diagnostic (StateM S) α) : Prop :=
  D.Keeps w (fun w' (r : Except Diagnostic α) => ∀ a, r = .ok a → made w' a) m.run

theorem keeps_pure {a : α} (h : made w a) : D.Keeps w made (pure a : StateM S α) :=
  fun _ hσ => ⟨w, D.refl w, hσ, h⟩

theorem Keeps.bind {m : StateM S α} {f : α → StateM S β} (h : D.Keeps w made m)
    (hf : ∀ a w', D.Before w w' → made w' a → D.Keeps w' made' (f a)) :
    D.Keeps w made' (m >>= f) := by
  intro σ hσ
  obtain ⟨w', hw', hτ, ha⟩ := h σ hσ
  obtain ⟨w'', hw'', hυ, hb⟩ := hf _ w' hw' ha _ hτ
  exact ⟨w'', hw'.trans hw'', hυ, hb⟩

theorem Keeps.imp {m : StateM S α} {made₁ : D.Stage → α → Prop} (h : D.Keeps w made m)
    (himp : ∀ w' a, made w' a → made₁ w' a) : D.Keeps w made₁ m := by
  intro σ hσ
  obtain ⟨w', hw', hτ, ha⟩ := h σ hσ
  exact ⟨w', hw', hτ, himp w' _ ha⟩

/-- A step that looks at the state goes on with what is known about it. -/
theorem keeps_get {f : S → StateM S β}
    (h : ∀ σ : S, Holding.At w σ → D.Keeps w made' (f σ)) : D.Keeps w made' (get >>= f) :=
  fun σ hσ => h σ hσ σ hσ

theorem keepsOk_pure {a : α} (h : made w a) :
    D.KeepsOk w made (pure a : ExceptT Diagnostic (StateM S) α) :=
  keeps_pure (by rintro b ⟨⟩; exact h)

theorem keepsOk_throw {e : Diagnostic} :
    D.KeepsOk w made (throw e : ExceptT Diagnostic (StateM S) α) :=
  keeps_pure (by rintro b ⟨⟩)

theorem KeepsOk.bind {m : ExceptT Diagnostic (StateM S) α}
    {f : α → ExceptT Diagnostic (StateM S) β} (h : D.KeepsOk w made m)
    (hf : ∀ a w', D.Before w w' → made w' a → D.KeepsOk w' made' (f a)) :
    D.KeepsOk w made' (m >>= f) := by
  unfold KeepsOk
  rw [ExceptT.run_bind]
  refine Keeps.bind h fun r w' hw' hr => ?_
  cases r with
  | error e => exact keeps_pure (by rintro b ⟨⟩)
  | ok a => exact hf a w' hw' (hr a rfl)

theorem KeepsOk.imp {m : ExceptT Diagnostic (StateM S) α} {made₁ : D.Stage → α → Prop}
    (h : D.KeepsOk w made m) (himp : ∀ w' a, made w' a → made₁ w' a) : D.KeepsOk w made₁ m :=
  Keeps.imp h fun w' _ hr a ha => himp w' a (hr a ha)

/-- What is known anyway of what a run gives. -/
theorem Keeps.and {m : StateM S α} {Q : α → Prop} (h : D.Keeps w made m)
    (hQ : ∀ σ, Q (m.run σ).1) : D.Keeps w (fun w' a => made w' a ∧ Q a) m := by
  intro σ hσ
  obtain ⟨w', hw', hτ, ha⟩ := h σ hσ
  exact ⟨w', hw', hτ, ha, hQ σ⟩

/-- A run that cannot fail, among runs that may. -/
theorem Keeps.lift {m : StateM S α} (h : D.Keeps w made m) :
    D.KeepsOk w made (liftM m : ExceptT Diagnostic (StateM S) α) := by
  refine Keeps.bind h fun a w' _ ha => keeps_pure ?_
  rintro b ⟨⟩
  exact ha

theorem keepsOk_get {f : S → ExceptT Diagnostic (StateM S) β}
    (h : ∀ σ : S, Holding.At w σ → D.KeepsOk w made' (f σ)) : D.KeepsOk w made' (get >>= f) :=
  fun σ hσ => h σ hσ σ hσ

/-- What a run ends with, read off its ending. -/
theorem keepsOk_of_ends {m : ExceptT Diagnostic (StateM S) α}
    (h : ∀ σ : S, Holding.At w σ → Ends m σ
      (fun a τ => ∃ w', D.Before w w' ∧ Holding.At w' τ ∧ made w' a)
      fun _ τ => ∃ w', D.Before w w' ∧ Holding.At w' τ) : D.KeepsOk w made m := by
  intro σ hσ
  have hends := h σ hσ
  unfold Ends at hends
  show ∃ w', D.Before w w' ∧ Holding.At w' (m.run σ).2 ∧ ∀ a, (m.run σ).1 = .ok a → made w' a
  generalize m.run σ = out at hends ⊢
  obtain ⟨r, τ⟩ := out
  cases r with
  | ok a =>
      obtain ⟨w', hw', hτ, ha⟩ := hends
      exact ⟨w', hw', hτ, by rintro b ⟨⟩; exact ha⟩
  | error e =>
      obtain ⟨w', hw', hτ⟩ := hends
      exact ⟨w', hw', hτ, by rintro b ⟨⟩⟩

theorem KeepsOk.ends {m : ExceptT Diagnostic (StateM S) α} (h : D.KeepsOk w made m) {σ : S}
    (hσ : Holding.At w σ) : Ends m σ
      (fun a τ => ∃ w', D.Before w w' ∧ Holding.At w' τ ∧ made w' a)
      fun _ τ => ∃ w', D.Before w w' ∧ Holding.At w' τ := by
  obtain ⟨w', hw', hτ, ha⟩ := h σ hσ
  unfold Ends
  split
  · next a τ heq =>
      have heq' : m.run.run σ = (.ok a, τ) := heq
      rw [heq'] at hτ ha
      exact ⟨w', hw', hτ, ha a rfl⟩
  · next e τ heq =>
      have heq' : m.run.run σ = (.error e, τ) := heq
      rw [heq'] at hτ
      exact ⟨w', hw', hτ⟩

/-- What is known anyway of what a run gives, if it does. -/
theorem KeepsOk.and {m : ExceptT Diagnostic (StateM S) α} {Q : α → Prop} (h : D.KeepsOk w made m)
    (hQ : ∀ σ, Ends m σ (fun a _ => Q a) fun _ _ => True) :
    D.KeepsOk w (fun w' a => made w' a ∧ Q a) m := by
  refine keepsOk_of_ends fun σ hσ => ((h.ends hσ).and (hQ σ)).imp ?_ fun _ _ h => h.1
  rintro a τ ⟨⟨w', hw', hτ, ha⟩, hQa⟩
  exact ⟨w', hw', hτ, ha, hQa⟩

end Runs

end Discipline

end RowTypes
