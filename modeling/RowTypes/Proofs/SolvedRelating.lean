import RowTypes.Proofs.SolvedForms

/-!
# Relating types finds solved forms

Unification and subtyping give back a substitution in solved form, which mentions only what the
types mention and unknowns that were made on the way, if the relation that they call further down
does.

A run keeps a substitution beside it and applies it before it relates the next two types.  What is
found for them is then composed with it, and the result is in solved form because what was found
mentions nothing that is bound already.  Until a substitution is applied, types may mention whatever
is known by then.
-/

namespace RowTypes

/-- What a run gives may be described more loosely. -/
theorem Traced.weaken {S : Type} [Holding S] {α : Type} {P : Int → Prop} {n : Nat} {σ : S}
    {made made' : (Int → Prop) → α → Prop} {m : StateM S α} (h : Traced P n made m σ)
    (himp : ∀ (Q : Int → Prop) a, made Q a → made' Q a) : Traced P n made' m σ := fun hn hσ =>
  ⟨(h hn hσ).1, (h hn hσ).2.1, himp _ _ (h hn hσ).2.2⟩

theorem TracedOk.weaken {S : Type} [Holding S] {α : Type} {P : Int → Prop} {n : Nat} {σ : S}
    {made made' : (Int → Prop) → α → Prop} {m : ExceptT Diagnostic (StateM S) α}
    (h : TracedOk P n made m σ) (himp : ∀ (Q : Int → Prop) a, made Q a → made' Q a) :
    TracedOk P n made' m σ := by
  intro hn hσ
  obtain ⟨hcount, hτ, ha⟩ := h hn hσ
  exact ⟨hcount, hτ, fun a heq => himp _ a (ha a heq)⟩

namespace Grammar

open Relate

variable {G : Grammar} {P : Int → Prop} {n : Nat} {p q : Progress} {ctx : Context} {α : Type}
  {s : Subst} {a b t : Ty}

/-! ## Going on under a substitution -/

/-- A run may start: the numbers it knows were given out before, and unknowns that are made from
there on are rows. -/
structure Started (G : Grammar) (P : Int → Prop) (n : Nat) : Prop where
  older : ∀ id, P id → id ≤ n
  rows : ∀ id : Int, n < id → G.isRow id

/-- What a run may look at: types of the grammar, whose unknowns are known by then. -/
abbrev Sees (G : Grammar) (P : Int → Prop) (n : Nat) (p : Progress) (t : Ty) : Prop :=
  G.Within (Known P n p.supply.count) t

/-- What a run has found: a substitution in solved form, whose unknowns are known by then. -/
abbrev Has (G : Grammar) (P : Int → Prop) (n : Nat) (p : Progress) (s : Subst) : Prop :=
  G.Solved (Known P n p.supply.count) s

theorem Within.later (h : G.Sees P n p t) (hq : p.supply.count ≤ q.supply.count) :
    G.Sees P n q t := h.mono (Known.mono hq)

theorem Solved.later (h : G.Has P n p s) (hq : p.supply.count ≤ q.supply.count) :
    G.Has P n q s := h.mono (Known.mono hq)

/-- What is known where a run goes on under a substitution. -/
abbrev Remaining (P : Int → Prop) (n : Nat) (p : Progress) (s : Subst) : Int → Prop :=
  Left (Known P n p.supply.count) s

theorem Started.resume (st : G.Started P n) (hn : n ≤ p.supply.count) :
    G.Started (Remaining P n p s) p.supply.count where
  older := by
    rintro id ⟨hid | ⟨-, hid⟩, -⟩
    · have := st.older id hid
      omega
    · exact hid
  rows id hid := st.rows id (by omega)

theorem known_of_remaining (hn : n ≤ p.supply.count) {m : Nat} (hm : p.supply.count ≤ m) (id : Int)
    (h : Known (Remaining P n p s) p.supply.count m id) : Known P n m id := by
  rcases h with ⟨h, -⟩ | ⟨hlt, hle⟩
  · exact Known.mono hm id h
  · exact .inr ⟨by omega, hle⟩

/-- A type under the substitution is something that is known where the run goes on. -/
theorem Within.resume (h : G.Sees P n p t) (hs : G.Has P n p s) :
    G.Sees (Remaining P n p s) p.supply.count p (s.apply t) := (h.apply hs).mono fun _ => .inl

section Resuming

variable {made made' : (Int → Prop) → α → Prop}

/-- What a run gives, going on under a substitution, in terms of where it started. -/
theorem traced_resume {m : StateM Progress α}
    (h : Traced (Remaining P n p s) p.supply.count made m p)
    (hmade : ∀ (q : Progress) a, p.supply.count ≤ q.supply.count →
      made (Known (Remaining P n p s) p.supply.count q.supply.count) a →
      made' (Known P n q.supply.count) a) : Traced P n made' m p := by
  intro _ _
  obtain ⟨hcount, -, hm⟩ := h (Nat.le_refl _) trivial
  exact ⟨hcount, trivial, hmade _ _ hcount hm⟩

theorem tracedOk_resume {m : Relate α}
    (h : TracedOk (Remaining P n p s) p.supply.count made m p)
    (hmade : ∀ (q : Progress) a, p.supply.count ≤ q.supply.count →
      made (Known (Remaining P n p s) p.supply.count q.supply.count) a →
      made' (Known P n q.supply.count) a) : TracedOk P n made' m p :=
  traced_resume h fun q _ hq hr a ha => hmade q a hq (hr a ha)

end Resuming

/-- What is found going on under a substitution is composed with it. -/
theorem Solved.resume (st : G.Started P n) (hn : n ≤ p.supply.count) (hs : G.Has P n p s)
    (hq : p.supply.count ≤ q.supply.count) {next : Subst}
    (hnext : G.Has (Remaining P n p s) p.supply.count q next) : G.Has P n q (next.after s) :=
  (hs.later hq).after (hnext.mono (known_of_remaining hn hq))
    (clears_of_apart (hs.apart st.older hn hnext))

/-- A relation finds solved forms for what it sees. -/
def SolvedRel (G : Grammar) (rel : Relation) : Prop :=
  ∀ {P : Int → Prop} {n : Nat} {p : Progress} {a b : Ty}, G.Started P n → n ≤ p.supply.count →
    G.Sees P n p a → G.Sees P n p b → TracedOk P n G.Solved (rel a b) p

variable {rel unify subtype : Relation}

/-- Relating two types under a substitution, and composing what is found with it. -/
theorem SolvedRel.next (hrel : G.SolvedRel rel) (st : G.Started P n) (hn : n ≤ p.supply.count)
    (hs : G.Has P n p s) (ha : G.Sees P n p a) (hb : G.Sees P n p b) :
    TracedOk P n (fun Q next => G.Solved Q (next.after s)) (rel (s.apply a) (s.apply b)) p :=
  tracedOk_resume (hrel (st.resume hn) (Nat.le_refl _) (ha.resume hs) (hb.resume hs))
    fun _ _ hq hnext => hs.resume st hn hq hnext

/-! ## Steps of relating types -/

theorem Expands.within (hr : G.Expands ctx.registry) {Q : Int → Prop} {name : String}
    {args : List Ty} (h : G.Within Q (.named name args))
    (ht : ctx.registry.expand? name args = some t) : G.Within Q t := by
  obtain ⟨hok, hfree⟩ := hr ht h.ok
  refine ⟨hok, fun id hid => ?_⟩
  obtain ⟨u, hu, hid⟩ := hfree id hid
  exact (h.named u hu).free id hid

theorem solved_expand (hr : G.Expands ctx.registry) {name : String} {args : List Ty}
    (h : G.Sees P n p (.named name args)) : TracedOk P n G.Within (expand ctx name args) p := by
  unfold expand
  split
  · exact tracedOk_throw
  · next d hd =>
      split
      · next t ht =>
          refine tracedOk_pure (hr.within h ?_)
          rw [Registry.expand?, hd]
          exact ht
      · exact tracedOk_throw

/-- An unknown of a type of the grammar may be bound to any type of the grammar. -/
theorem solved_bindTo {v : TyVar} (hv : G.Sees P n p (.var v)) (ht : G.Sees P n p t) :
    TracedOk P n (fun Q s => G.Solved Q s ∧ ∀ id u, s.get? id = some u → u = t)
      (bindVar ctx v t) p := by
  have hempty : G.Solved (Known P n p.supply.count) .empty ∧
      ∀ id u, Subst.empty.get? id = some u → u = t := ⟨solved_empty, by simp⟩
  have hsingle : ¬ t.Mentions v.id → G.Solved (Known P n p.supply.count) (.single v t) ∧
      ∀ id u, (Subst.single v t).get? id = some u → u = t := by
    refine fun hoccurs => ⟨solved_single hv.var.1 ht hoccurs fun hrow => absurd hrow hv.var.2,
      fun id u hu => ?_⟩
    rw [Subst.get?_single] at hu
    split at hu
    · exact (Subst.held_eq_some hu).1
    · cases hu
  unfold bindVar
  split
  · next w =>
      split
      · exact tracedOk_pure hempty
      · next hne => exact tracedOk_pure (hsingle (by simpa using hne))
  · split
    · exact tracedOk_throw
    · next hoccurs => exact tracedOk_pure (hsingle fun h => hoccurs (Ty.occurs_iff_mentions.2 h))

theorem solved_bindVar {v : TyVar} (hv : G.Sees P n p (.var v)) (ht : G.Sees P n p t) :
    TracedOk P n G.Solved (bindVar ctx v t) p :=
  (solved_bindTo hv ht).weaken fun _ _ h => h.1

theorem solved_thread (hrel : G.SolvedRel rel) (st : G.Started P n) : ∀ {pairs : List (Ty × Ty)}
    {s : Subst} {p : Progress}, n ≤ p.supply.count →
    (∀ pair ∈ pairs, G.Sees P n p pair.1 ∧ G.Sees P n p pair.2) → G.Has P n p s →
    TracedOk P n G.Solved (thread rel pairs s) p
  | [], s, p, _, _, hs => tracedOk_pure hs
  | (a, b) :: pairs, s, p, hn, h, hs => by
      obtain ⟨ha, hb⟩ := h (a, b) List.mem_cons_self
      rw [thread]
      refine (hrel.next st hn hs ha hb).bind fun next q hq hnext => ?_
      refine solved_thread hrel st (Nat.le_trans hn hq) (fun pair hpair => ?_) hnext
      obtain ⟨h₁, h₂⟩ := h pair (List.mem_cons_of_mem _ hpair)
      exact ⟨h₁.later hq, h₂.later hq⟩

/-! ## Records -/

theorem within_field {r : RecordTy} {Q : Int → Prop} {name : String} (hr : G.Within Q r.toTy)
    (h : r.field? name = some t) : G.Within Q t := hr.field _ (Table.mem_of_get? h)

/-- Some fields of a record under a substitution, with a row or nothing behind them. -/
theorem within_picked {r : RecordTy} {Q : Int → Prop} (hr : G.Within Q r.toTy) (hs : G.Solved Q s)
    (names : List String) {behind : Option TyVar}
    (hbehind : ∀ v, behind = some v → Left Q s v.id ∧ G.isRow v.id) :
    G.Within (Left Q s) (.record (r.pick s names) behind) := by
  refine within_record (Table.ascending_ofList _) (fun f hf => ?_) hbehind
  obtain ⟨name, -, hname⟩ := List.mem_filterMap.1 (Table.mem_ofList hf)
  obtain ⟨t, ht, rfl⟩ := Option.map_eq_some_iff.1 hname
  exact (within_field hr ht).apply hs

theorem sees_sharedFields {ra rb : RecordTy} {Q : Int → Prop} (ha : G.Within Q ra.toTy)
    (hb : G.Within Q rb.toTy) :
    ∀ pair ∈ ra.sharedFields rb, G.Within Q pair.1 ∧ G.Within Q pair.2 := by
  intro pair hpair
  obtain ⟨name, -, hname⟩ := List.mem_filterMap.1 hpair
  obtain ⟨x, hx, hname⟩ := Option.bind_eq_some_iff.1 hname
  obtain ⟨y, hy, hname⟩ := Option.bind_eq_some_iff.1 hname
  cases hname
  exact ⟨within_field ha hx, within_field hb hy⟩

/-- The row of a record under a substitution is free. -/
theorem left_rowUnder {r : RecordTy} {Q : Int → Prop} (hr : G.Within Q r.toTy) (hs : G.Solved Q s)
    {x : TyVar} (hx : r.rowUnder s = some x) : Left Q s x.id ∧ G.isRow x.id := by
  obtain ⟨fs, row⟩ := r
  cases row with
  | none => cases hx
  | some v =>
      obtain ⟨hv, hrow⟩ := hr.rowOf
      unfold RecordTy.rowUnder at hx
      dsimp only at hx
      rw [Subst.apply_var] at hx
      cases hget : s.get? v.id with
      | none =>
          rw [hget] at hx
          cases hx
          exact ⟨⟨hv, hget⟩, hrow⟩
      | some u =>
          obtain ⟨gs, rest, rfl⟩ := hs.rows v.id u hrow hget
          rw [hget] at hx
          obtain rfl : rest = some x := hx
          have hmem : (Ty.record gs (some x)).Mentions x.id :=
            Ty.mentions_record.2 (.inr ⟨x, rfl, rfl⟩)
          exact ⟨⟨hs.inside _ (.inr ⟨v.id, _, hget, hmem⟩), hs.fixed hget _ hmem⟩,
            (Ty.kinded_record.1 (G.kinded (hs.ok _ _ hget))).2 x rfl⟩

/-- What a run knows was given out before. -/
theorem Started.known_le (st : G.Started P n) (hn : n ≤ p.supply.count) {id : Int}
    (h : Known P n p.supply.count id) : id ≤ p.supply.count := by
  rcases h with h | ⟨-, h⟩
  · exact Int.le_trans (st.older id h) (by omega)
  · exact h

/-- An unknown that is made is a row, and is not bound. -/
theorem solved_fresh (st : G.Started P n) (hn : n ≤ p.supply.count) (hs : G.Has P n p s)
    (level : Int) : TracedOk P n (fun Q v => Left Q s v.id ∧ G.isRow v.id ∧
      (p.supply.count : Int) < v.id) (fresh level) p := by
  have hnew : (p.supply.count : Int) < ((p.supply.count + 1 : Nat) : Int) := by omega
  refine fun _ _ => ⟨Nat.le_succ _, trivial, ?_⟩
  rintro v ⟨⟩
  show Left _ s ((p.supply.count + 1 : Nat) : Int) ∧ G.isRow ((p.supply.count + 1 : Nat) : Int) ∧ _
  refine ⟨⟨.inr ⟨by omega, Int.le_refl _⟩, ?_⟩, st.rows _ (by omega), hnew⟩
  cases hget : s.get? ((p.supply.count + 1 : Nat) : Int) with
  | none => rfl
  | some u =>
      have := st.known_le hn (hs.inside _ (.inl ⟨u, hget⟩))
      omega

/-- A row takes fields in, if it is free: what was found is composed with one more binding. -/
structure Grown (G : Grammar) (s : Subst) (row : TyVar) (r : Ty) (Q : Int → Prop) (s' : Subst) :
    Prop where
  bound : G.Solved Q (.single row r)
  apart : (Subst.single row r).Apart s
  eq : s' = (Subst.single row r).after s
  solved : G.Solved Q s'
  keeps : ∀ id, id ≠ row.id → s.get? id = none → s'.get? id = none

theorem grown_extendRow (st : G.Started P n) (hn : n ≤ p.supply.count) (hs : G.Has P n p s)
    {row : TyVar} {fields : List (String × Ty)} {behind : Option TyVar}
    (hrow : Remaining P n p s row.id ∧ G.isRow row.id)
    (h : G.Within (Remaining P n p s) (.record fields behind)) :
    TracedOk P n (G.Grown s row (.record fields behind)) (extendRow ctx s row fields behind) p := by
  show TracedOk P n _ (bindVar ctx row (.record fields behind) >>= fun bound =>
    pure (bound.after s)) p
  unfold bindVar
  split
  · next heq => cases heq
  split
  · exact tracedOk_throw
  · next hoccurs =>
      have hbound : G.Solved (Remaining P n p s) (.single row (.record fields behind)) :=
        solved_single hrow.1 h (fun hid => hoccurs (Ty.occurs_iff_mentions.2 hid))
          fun _ => ⟨_, _, rfl⟩
      have hnext : G.Has (Remaining P n p s) p.supply.count p (.single row (.record fields behind)) :=
        hbound.mono fun _ => .inl
      have hapart := hs.apart st.older hn hnext
      refine tracedOk_pure ⟨hbound.mono fun _ h => h.1, hapart, rfl,
        hs.resume st hn (Nat.le_refl _) hnext, fun id hne hfree => ?_⟩
      rw [hs.get?_after hnext (clears_of_apart hapart), hfree, Subst.get?_single, if_neg hne]

/-- What `extendRow` binds its row to mentions nothing else that is bound. -/
theorem solved_unifyRows (st : G.Started P n) (hn : n ≤ p.supply.count) {ra rb : RecordTy}
    (ha : G.Sees P n p ra.toTy) (hb : G.Sees P n p rb.toTy) (hs : G.Has P n p s)
    (onlyA onlyB : List String) :
    TracedOk P n G.Solved (unifyRows ctx s ra rb onlyA onlyB) p := by
  unfold unifyRows
  split
  · split
    · exact tracedOk_pure hs
    · exact tracedOk_throw
  · next row hrow _ =>
      split
      · exact (grown_extendRow st hn hs (left_rowUnder ha hs hrow)
          (within_picked hb hs _ (by rintro v ⟨⟩))).weaken fun _ _ h => h.solved
      · exact tracedOk_throw
  · next row _ hrow =>
      split
      · exact (grown_extendRow st hn hs (left_rowUnder hb hs hrow)
          (within_picked ha hs _ (by rintro v ⟨⟩))).weaken fun _ _ h => h.solved
      · exact tracedOk_throw
  · next rowA rowB hrowA hrowB =>
      split
      · split
        · exact tracedOk_pure hs
        · exact tracedOk_throw
      · next hne =>
          have hleftA := left_rowUnder ha hs hrowA
          have hleftB := left_rowUnder hb hs hrowB
          -- The one new unknown stands behind both records.
          refine (solved_fresh st hn hs _).bind fun behind q hq hbehind => ?_
          obtain ⟨hleft, hisRow, hnew⟩ := hbehind
          have hn' := Nat.le_trans hn hq
          have hs' := hs.later hq
          have hother : behind.id ≠ rowA.id := by
            have := st.known_le hn hleftA.1.1
            omega
          refine (grown_extendRow st hn' hs' ⟨⟨Known.mono hq _ hleftA.1.1, hleftA.1.2⟩, hleftA.2⟩
            (within_picked (hb.later hq) hs' onlyB (by rintro v ⟨⟩; exact ⟨hleft, hisRow⟩))).bind
            fun s' q' hq' hext => ?_
          have hs'' := hext.solved
          have hall := Nat.le_trans hq hq'
          refine (grown_extendRow st (Nat.le_trans hn hall) hs'' ⟨⟨Known.mono hall _ hleftB.1.1,
            hext.keeps _ (fun heq => hne heq.symm) hleftB.1.2⟩, hleftB.2⟩
            (within_picked (ha.later hall) hs'' onlyA ?_)).weaken fun _ _ h => h.solved
          rintro v ⟨⟩
          exact ⟨⟨Known.mono hq' _ hleft.1, hext.keeps _ hother hleft.2⟩, hisRow⟩

theorem solved_unifyRecords (hunify : G.SolvedRel unify) (st : G.Started P n)
    (hn : n ≤ p.supply.count) {ra rb : RecordTy} (ha : G.Sees P n p ra.toTy)
    (hb : G.Sees P n p rb.toTy) : TracedOk P n G.Solved (unifyRecords ctx unify ra rb) p := by
  unfold unifyRecords
  refine (solved_thread hunify st hn (sees_sharedFields ha hb) solved_empty).bind
    fun s q hq hs => ?_
  have hn' := Nat.le_trans hn hq
  split
  · exact (hunify.next st hn' hs (ha.later hq) (hb.later hq)).bind fun _ _ _ hnext =>
      tracedOk_pure hnext
  · exact solved_unifyRows st hn' (ha.later hq) (hb.later hq) hs _ _

/-! ## Unification -/

theorem solved_absorb (hunify : G.SolvedRel unify) (st : G.Started P n)
    (hn : n ≤ p.supply.count) {alts : List Ty} (ht : G.Sees P n p t)
    (halts : ∀ alt ∈ alts, G.Sees P n p alt) :
    TracedOk P n G.Solved (absorb ctx unify t alts) p := by
  have hfirst : Traced P n (fun Q o => ∀ s, o = some s → G.Solved Q s)
      (firstOf (unify t) alts) p := traced_firstOf fun alt halt q hq =>
    hunify st (Nat.le_trans hn hq) (ht.later hq) ((halts alt halt).later hq)
  unfold absorb
  refine hfirst.lift.bind fun o q hq ho => ?_
  cases o with
  | some s => exact tracedOk_pure (ho s rfl)
  | none => exact tracedOk_throw

theorem solved_absorbAll (hunify : G.SolvedRel unify) (st : G.Started P n) {target : Ty} :
    ∀ {alts : List Ty} {s : Subst} {p : Progress}, n ≤ p.supply.count → G.Sees P n p target →
    (∀ alt ∈ alts, G.Sees P n p alt) → G.Has P n p s →
    TracedOk P n G.Solved (absorbAll ctx unify target alts s) p
  | [], s, p, _, _, _, hs => tracedOk_pure hs
  | alt :: alts, s, p, hn, htarget, halts, hs => by
      have halt := halts alt List.mem_cons_self
      have hrest : ∀ (next : Subst) (q : Progress), p.supply.count ≤ q.supply.count →
          G.Has P n q (next.after s) →
          TracedOk P n G.Solved (absorbAll ctx unify target alts (next.after s)) q :=
        fun next q hq hnext => solved_absorbAll hunify st (Nat.le_trans hn hq) (htarget.later hq)
          (fun alt halt => (halts alt (List.mem_cons_of_mem _ halt)).later hq) hnext
      rw [absorbAll]
      split
      · next ts hts =>
          have htarget' := htarget.resume hs
          rw [hts] at htarget'
          have habsorbed : TracedOk P n (fun Q next => G.Solved Q (next.after s))
              (absorb ctx unify (s.apply alt) ts) p :=
            tracedOk_resume (solved_absorb hunify (st.resume hn) (Nat.le_refl _)
              (halt.resume hs) htarget'.union) fun _ _ hq hnext => hs.resume st hn hq hnext
          exact habsorbed.bind hrest
      · exact (hunify.next st hn hs halt htarget).bind hrest

theorem solved_unifyUnions (hunify : G.SolvedRel unify) (st : G.Started P n)
    (hn : n ≤ p.supply.count) {as bs : List Ty} (has : G.Sees P n p (.union as))
    (hbs : G.Sees P n p (.union bs)) :
    TracedOk P n G.Solved (unifyUnions ctx unify as bs) p := by
  refine tracedOk_orElseThrow ?_ _
  refine (solved_absorbAll hunify st hn hbs has.union solved_empty).bind fun s q hq hs => ?_
  exact solved_absorbAll hunify st (Nat.le_trans hn hq) (has.later hq)
    (fun t ht => (hbs.union t ht).later hq) hs

theorem solved_unifyWithMembers (hunify : G.SolvedRel unify) (st : G.Started P n)
    (hn : n ≤ p.supply.count) {members : List Ty} (ht : G.Sees P n p t)
    (hmembers : ∀ m ∈ members, G.Sees P n p m) :
    TracedOk P n G.Solved (unifyWithMembers ctx unify t members) p := by
  refine tracedOk_orElseThrow
    (solved_thread hunify st hn (fun pair hpair => ?_) solved_empty) _
  obtain ⟨m, hm, rfl⟩ := List.mem_map.1 hpair
  exact ⟨ht, hmembers m hm⟩

theorem sees_sameNameArgs? {Q : Int → Prop} {pairs : List (Ty × Ty)} (ha : G.Within Q a)
    (hb : G.Within Q b) (h : sameNameArgs? a b = some pairs) :
    ∀ pair ∈ pairs, G.Within Q pair.1 ∧ G.Within Q pair.2 := by
  unfold sameNameArgs? at h
  split at h
  · split at h
    · cases h
      intro pair hpair
      obtain ⟨h₁, h₂⟩ := List.of_mem_zip hpair
      exact ⟨ha.named _ h₁, hb.named _ h₂⟩
    · cases h
  · cases h

/-- A type with a reference or a binder at its head is related to another once it is expanded. -/
theorem solved_unifyExpanded (hr : G.Expands ctx.registry) (hunify : G.SolvedRel unify)
    (st : G.Started P n) (hn : n ≤ p.supply.count) (ha : G.Sees P n p a) (hb : G.Sees P n p b) :
    TracedOk P n G.Solved (match a, b with
      | .named name args, b => do unify (← expand ctx name args) b
      | a, .named name args => do unify a (← expand ctx name args)
      | .mu v t, b => unify (.unfold v t) b
      | a, .mu v t => unify a (.unfold v t)
      | a, b => unify a b) p := by
  split
  · exact (solved_expand hr ha).bind fun t q hq ht =>
      hunify st (Nat.le_trans hn hq) ht (hb.later hq)
  · exact (solved_expand hr hb).bind fun t q hq ht =>
      hunify st (Nat.le_trans hn hq) (ha.later hq) ht
  · exact hunify st hn ha.unfold hb
  · exact hunify st hn ha hb.unfold
  · exact hunify st hn ha hb

theorem solved_unifyIndirect (hr : G.Expands ctx.registry) (hunify : G.SolvedRel unify)
    (st : G.Started P n) (hn : n ≤ p.supply.count) (ha : G.Sees P n p a) (hb : G.Sees P n p b) :
    TracedOk P n G.Solved (unifyIndirect ctx unify a b) p := by
  unfold unifyIndirect
  refine (tracedOk_assume a b).bind fun assumed q hq _ => ?_
  replace hn := Nat.le_trans hn hq
  replace ha := ha.later hq
  replace hb := hb.later hq
  split
  · exact tracedOk_pure solved_empty
  · dsimp only
    split
    · next pairs hpairs =>
        have hthread := solved_thread hunify st hn
          (sees_sameNameArgs? ha hb hpairs) solved_empty
        refine (traced_attempt hthread).lift.bind fun o r hr' ho => ?_
        split
        · exact tracedOk_pure (ho _ rfl)
        · exact solved_unifyExpanded hr hunify st (Nat.le_trans hn hr') (ha.later hr')
            (hb.later hr')
    · exact solved_unifyExpanded hr hunify st hn ha hb

theorem solved_unifyShapes (hunify : G.SolvedRel unify) (st : G.Started P n)
    (hn : n ≤ p.supply.count) (ha : G.Sees P n p a) (hb : G.Sees P n p b) :
    TracedOk P n G.Solved (unifyShapes ctx unify a b) p := by
  unfold unifyShapes
  split
  · exact solved_unifyUnions hunify st hn ha hb
  · exact solved_absorb hunify st hn ha hb.union
  · exact solved_unifyWithMembers hunify st hn ha hb.inter
  · exact solved_absorb hunify st hn hb ha.union
  · exact solved_unifyWithMembers hunify st hn hb ha.inter
  · exact tracedOk_pure solved_empty
  · exact tracedOk_pure solved_empty
  · refine solved_thread hunify st hn ?_ solved_empty
    simp [ha.fn.1, ha.fn.2, hb.fn.1, hb.fn.2]
  · split
    · refine solved_thread hunify st hn (fun pair hpair => ?_) solved_empty
      obtain ⟨h₁, h₂⟩ := List.of_mem_zip hpair
      exact ⟨within_tuple.1 ha _ h₁, within_tuple.1 hb _ h₂⟩
    · exact tracedOk_throw
  · exact solved_unifyRecords hunify st hn ha hb
  · exact tracedOk_throw

theorem solved_unifyStep (hr : G.Expands ctx.registry) (hunify : G.SolvedRel unify) :
    G.SolvedRel (unifyStep ctx unify) := by
  intro P n p a b st hn ha hb
  unfold unifyStep
  split
  · exact tracedOk_pure solved_empty
  · split
    · exact solved_bindVar ha hb
    · exact solved_bindVar hb ha
    · split
      · exact solved_unifyIndirect hr hunify st hn ha hb
      · exact solved_unifyShapes hunify st hn ha hb

/-- Unification finds solved forms. -/
theorem solvedRel_unify (hr : G.Expands ctx.registry) :
    ∀ limit : Nat, G.SolvedRel (Relate.unify ctx limit)
  | 0 => fun _ _ _ _ => tracedOk_exceed _ _
  | limit + 1 => solved_unifyStep hr (solvedRel_unify hr limit)

/-! ## Subtyping -/

theorem solved_unifyWidth (hunify : G.SolvedRel unify) (st : G.Started P n)
    {sub super : RecordTy} : ∀ {fs : List (String × Ty)} {s : Subst} {p : Progress},
      n ≤ p.supply.count → G.Sees P n p sub.toTy → (∀ f ∈ fs, G.Sees P n p f.2) → G.Has P n p s →
      TracedOk P n G.Solved (unifyWidth ctx unify sub super fs s) p
  | [], s, p, _, _, _, hs => tracedOk_pure hs
  | (name, t) :: fs, s, p, hn, hsub, hfs, hs => by
      have hrest := fun f hf => hfs f (List.mem_cons_of_mem _ hf)
      rw [unifyWidth]
      split
      · exact solved_unifyWidth hunify st hn hsub hrest hs
      · next u hu =>
          refine (tracedOk_orElseThrow (hunify.next st hn hs (within_field hsub hu)
            (hfs _ List.mem_cons_self)) _).bind fun next q hq hnext => ?_
          exact solved_unifyWidth hunify st (Nat.le_trans hn hq) (hsub.later hq)
            (fun f hf => (hrest f hf).later hq) hnext

theorem solved_subtypeRecords (hunify : G.SolvedRel unify) (st : G.Started P n)
    (hn : n ≤ p.supply.count) {sub super : RecordTy} (hsub : G.Sees P n p sub.toTy)
    (hsuper : G.Sees P n p super.toTy) :
    TracedOk P n G.Solved (subtypeRecords ctx unify sub super) p := by
  unfold subtypeRecords
  refine (solved_unifyWidth hunify st hn hsub hsuper.field solved_empty).bind fun s q hq hs => ?_
  replace hn := Nat.le_trans hn hq
  dsimp only
  split
  · exact tracedOk_pure hs
  · split
    · exact tracedOk_throw
    · next row hrow =>
        obtain ⟨hleft, hisRow⟩ := left_rowUnder (hsub.later hq) hs hrow
        refine (solved_fresh st hn hs _).bind fun behind r hr hbehind => ?_
        refine (grown_extendRow st (Nat.le_trans hn hr) (hs.later hr)
          ⟨⟨Known.mono hr _ hleft.1, hleft.2⟩, hisRow⟩
          (within_picked ((hsuper.later hq).later hr) (hs.later hr) _ ?_)).weaken
          fun _ _ h => h.solved
        rintro v ⟨⟩
        exact ⟨hbehind.1, hbehind.2.1⟩

theorem solved_subtypeIndirect (hr : G.Expands ctx.registry) (hsubtype : G.SolvedRel subtype)
    (st : G.Started P n) (hn : n ≤ p.supply.count) {sub super : Ty} (hsub : G.Sees P n p sub)
    (hsuper : G.Sees P n p super) :
    TracedOk P n G.Solved (subtypeIndirect ctx subtype sub super) p := by
  unfold subtypeIndirect
  refine (tracedOk_assume sub super).bind fun assumed q hq _ => ?_
  replace hn := Nat.le_trans hn hq
  replace hsub := hsub.later hq
  replace hsuper := hsuper.later hq
  split
  · exact tracedOk_pure solved_empty
  · split
    · exact (solved_expand hr hsub).bind fun t r hle ht =>
        hsubtype st (Nat.le_trans hn hle) ht (hsuper.later hle)
    · exact hsubtype st hn hsub.unfold hsuper
    · exact (solved_expand hr hsuper).bind fun t r hle ht =>
        hsubtype st (Nat.le_trans hn hle) (hsub.later hle) ht
    · exact hsubtype st hn hsub hsuper.unfold
    · exact hsubtype st hn hsub hsuper

theorem solved_subtypeSome {sub super : Ty} {reason : String}
    {found : StateM Progress (Option Subst)}
    (h : Traced P n (fun Q o => ∀ s, o = some s → G.Solved Q s) found p) :
    TracedOk P n G.Solved (subtypeSome ctx sub super reason found) p := by
  unfold subtypeSome
  refine h.lift.bind fun o q _ ho => ?_
  cases o with
  | some s => exact tracedOk_pure (ho s rfl)
  | none => exact tracedOk_throw

theorem solved_subtypeShapes (hunify : G.SolvedRel unify) (hsubtype : G.SolvedRel subtype)
    (st : G.Started P n) (hn : n ≤ p.supply.count) {sub super : Ty} (hsub : G.Sees P n p sub)
    (hsuper : G.Sees P n p super) :
    TracedOk P n G.Solved (subtypeShapes ctx unify subtype sub super) p := by
  have hunified : TracedOk P n G.Solved (subtypeUnified ctx unify sub super) p :=
    tracedOk_orElseThrow (hunify st hn hsub hsuper) _
  unfold subtypeShapes
  split
  · refine solved_thread hsubtype st hn (fun pair hpair => ?_) solved_empty
    obtain ⟨t, ht, rfl⟩ := List.mem_map.1 hpair
    exact ⟨hsub.union t ht, hsuper⟩
  · exact solved_subtypeSome (traced_firstOf fun t ht q hq =>
      hsubtype st (Nat.le_trans hn hq) (hsub.later hq) ((hsuper.union t ht).later hq))
  · exact solved_subtypeSome (traced_firstOf fun t ht q hq =>
      hsubtype st (Nat.le_trans hn hq) ((hsub.inter t ht).later hq) (hsuper.later hq))
  · refine solved_thread hsubtype st hn (fun pair hpair => ?_) solved_empty
    obtain ⟨t, ht, rfl⟩ := List.mem_map.1 hpair
    exact ⟨hsub, hsuper.inter t ht⟩
  · exact solved_subtypeRecords hunify st hn hsub hsuper
  · refine (hsubtype st hn hsuper.fn.1 hsub.fn.1).bind fun params q hq hparams => ?_
    exact (hsubtype.next st (Nat.le_trans hn hq) hparams (hsub.fn.2.later hq)
      (hsuper.fn.2.later hq)).bind fun _ _ _ hresults => tracedOk_pure hresults
  · split
    · refine solved_thread hsubtype st hn (fun pair hpair => ?_) solved_empty
      obtain ⟨h₁, h₂⟩ := List.of_mem_zip hpair
      exact ⟨within_tuple.1 hsub _ h₁, within_tuple.1 hsuper _ h₂⟩
    · exact hunified
  · exact tracedOk_pure solved_empty
  · exact hunified

theorem solved_subtypeStep (hr : G.Expands ctx.registry) (hunify : G.SolvedRel unify)
    (hsubtype : G.SolvedRel subtype) : G.SolvedRel (subtypeStep ctx unify subtype) := by
  intro P n p sub super st hn hsub hsuper
  unfold subtypeStep
  split
  · exact tracedOk_pure solved_empty
  · split
    · exact hunify st hn hsub hsuper
    · exact hunify st hn hsub hsuper
    · split
      · exact solved_subtypeIndirect hr hsubtype st hn hsub hsuper
      · exact solved_subtypeShapes hunify hsubtype st hn hsub hsuper

/-- Subtyping finds solved forms. -/
theorem solvedRel_subtype (hr : G.Expands ctx.registry) :
    ∀ limit : Nat, G.SolvedRel (Relate.subtype ctx limit)
  | 0 => fun _ _ _ _ => tracedOk_exceed _ _
  | limit + 1 => solved_subtypeStep hr (solvedRel_unify hr limit) (solvedRel_subtype hr limit)

end Grammar

end RowTypes
