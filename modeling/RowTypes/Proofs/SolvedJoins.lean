import RowTypes.Proofs.SolvedRelating

/-!
# Joining and spreading find solved forms

Branches and patterns are joined, and records are spread, by relating types one after the other.
What is joined is carried along without the substitution that is found meanwhile, and gets it in
the end, so that nothing that is bound is left in it.

Two kinds of runs are joined: those that may fail and those that cannot.  `Grammar.Carries` is what
both have in common.
-/

namespace RowTypes

namespace Grammar

open Relate

variable {G : Grammar} {P : Int → Prop} {n : Nat} {p : Progress} {ctx : Context} {s : Subst}
  {a b t : Ty} {unify subtype : Relation}

/-! ## Joins -/

/-- A join gives a type that is known by then, and a solved form. -/
def JoinsTo (G : Grammar) (Q : Int → Prop) (j : Joined) : Prop := G.Within Q j.1 ∧ G.Solved Q j.2

theorem within_widest {Q : Int → Prop} (ha : G.Within Q a) (hb : G.Within Q b) :
    G.Within Q (widest a b) := by
  unfold widest
  split
  · exact hb
  · exact ha

theorem solved_joinUnified (hunify : G.SolvedRel unify) (st : G.Started P n)
    (hn : n ≤ p.supply.count) (ha : G.Sees P n p a) (hb : G.Sees P n p b) :
    TracedOk P n G.JoinsTo (joinUnified unify a b) p :=
  (hunify st hn ha hb).bind fun _ _ hq hs =>
    tracedOk_pure ⟨((within_widest ha hb).later hq).apply' hs, hs⟩

/-- A notion of being traced, for runs of one kind. -/
abbrev Tracing (m : Type → Type) : Type 1 :=
  (Int → Prop) → Nat → ∀ {α : Type}, ((Int → Prop) → α → Prop) → m α → Progress → Prop

/-- Being traced, for runs that cannot fail. -/
abbrev traces : Tracing (StateM Progress) := fun P n _ => Traced P n

/-- Being traced, for runs that may fail. -/
abbrev tracesOk : Tracing Relate := fun P n _ => TracedOk P n

/-- A notion of being traced that follows the ways in which runs are put together, also where they
go on under a substitution. -/
structure Carries {m : Type → Type} [Monad m] (T : Tracing m) : Prop where
  follows : ∀ P n, Follows P n (T P n)
  resume : ∀ {P n p s} {α : Type} {made made' : (Int → Prop) → α → Prop} {x : m α},
    T (Remaining P n p s) p.supply.count made x p →
    (∀ (q : Progress) a, p.supply.count ≤ q.supply.count →
      made (Known (Remaining P n p s) p.supply.count q.supply.count) a →
      made' (Known P n q.supply.count) a) → T P n made' x p

theorem carries_traces : Carries traces :=
  ⟨fun _ _ => follows_traced, traced_resume⟩

theorem carries_tracesOk : Carries tracesOk :=
  ⟨fun _ _ => follows_tracedOk, tracedOk_resume⟩

section Carrying

variable {m : Type → Type} [Monad m] {T : Tracing m} {join : Ty → Ty → m Joined}

/-- A way to join two types finds solved forms for what it sees. -/
def SolvedJoin (G : Grammar) {m : Type → Type} (T : Tracing m) (join : Ty → Ty → m Joined) : Prop :=
  ∀ {P : Int → Prop} {n : Nat} {p : Progress} {a b : Ty}, G.Started P n → n ≤ p.supply.count →
    G.Sees P n p a → G.Sees P n p b → T P n G.JoinsTo (join a b) p

/-- Joining two types under a substitution, and composing what is found with it. -/
theorem SolvedJoin.next (hT : Carries T) (hjoin : G.SolvedJoin T join) (st : G.Started P n)
    (hn : n ≤ p.supply.count) (hs : G.Has P n p s) (ha : G.Sees P n p a) (hb : G.Sees P n p b) :
    T P n (fun Q j => G.Within Q j.1 ∧ G.Solved Q (j.2.after s))
      (join (s.apply a) (s.apply b)) p :=
  hT.resume (hjoin (st.resume hn) (Nat.le_refl _) (ha.resume hs) (hb.resume hs))
    fun _ _ hq hj => ⟨hj.1.mono (known_of_remaining hn hq), hs.resume st hn hq hj.2⟩

theorem solved_joinAll (hT : Carries T) (hjoin : G.SolvedJoin T join) (st : G.Started P n) :
    ∀ {pairs : List (Ty × Ty)} {done : List Ty} {s : Subst} {p : Progress},
      n ≤ p.supply.count → (∀ pair ∈ pairs, G.Sees P n p pair.1 ∧ G.Sees P n p pair.2) →
      (∀ t ∈ done, G.Sees P n p t) → G.Has P n p s →
      T P n G.JoinsTo (joinAll join pairs done s) p
  | [], done, s, p, _, _, hdone, hs => by
      refine (hT.follows P n).pure ⟨within_tuple.2 fun t ht => ?_, hs⟩
      rw [Subst.applyAll_eq_map] at ht
      obtain ⟨u, hu, rfl⟩ := List.mem_map.1 ht
      exact (hdone u hu).apply' hs
  | (a, b) :: pairs, done, s, p, hn, h, hdone, hs => by
      obtain ⟨ha, hb⟩ := h (a, b) List.mem_cons_self
      rw [joinAll]
      refine (hT.follows P n).bind (hjoin.next hT st hn hs ha hb) ?_
      rintro ⟨t, next⟩ q hq ⟨ht, hnext⟩
      refine solved_joinAll hT hjoin st (Nat.le_trans hn hq) (fun pair hpair => ?_)
        (fun u hu => ?_) hnext
      · obtain ⟨h₁, h₂⟩ := h pair (List.mem_cons_of_mem _ hpair)
        exact ⟨h₁.later hq, h₂.later hq⟩
      · rcases List.mem_append.1 hu with hu | hu
        · exact (hdone u hu).later hq
        · rw [List.mem_singleton.1 hu]
          exact ht

theorem solved_joinTuples (hT : Carries T) (hjoin : G.SolvedJoin T join) (st : G.Started P n)
    (hn : n ≤ p.supply.count) {as bs : List Ty} (has : G.Sees P n p (.tuple as))
    (hbs : G.Sees P n p (.tuple bs)) :
    T P n G.JoinsTo (joinAll join (as.zip bs) [] .empty) p := by
  refine solved_joinAll hT hjoin st hn (fun pair hpair => ?_) (by simp) solved_empty
  obtain ⟨h₁, h₂⟩ := List.of_mem_zip hpair
  exact ⟨within_tuple.1 has _ h₁, within_tuple.1 hbs _ h₂⟩

/-- In the end, the substitution is applied to what was joined. -/
theorem solved_joinList (hT : Carries T) (hjoin : G.SolvedJoin T join) (st : G.Started P n) :
    ∀ {ts : List Ty} {j : Joined} {p : Progress}, n ≤ p.supply.count →
      (∀ t ∈ ts, G.Sees P n p t) → G.JoinsTo (Known P n p.supply.count) j →
      T P n (fun Q j => G.Within (Left Q j.2) j.1 ∧ G.Solved Q j.2) (joinList join ts j) p
  | [], (t, s), p, _, _, hj => (hT.follows P n).pure ⟨hj.1.apply hj.2, hj.2⟩
  | b :: bs, (t, s), p, hn, hts, hj => by
      obtain ⟨ht, hs⟩ := hj
      rw [joinList]
      refine (hT.follows P n).bind (hjoin.next hT st hn hs ht (hts b List.mem_cons_self)) ?_
      rintro ⟨u, next⟩ q hq hnext
      exact solved_joinList hT hjoin st (Nat.le_trans hn hq)
        (fun t ht => (hts t (List.mem_cons_of_mem _ ht)).later hq) hnext

end Carrying

theorem within_unionOf_pair {Q : Int → Prop} (ha : G.Within Q a) (hb : G.Within Q b) :
    G.Within Q (Ty.unionOf [a, b]) := within_unionOf (by simp) (by simp [ha, hb])

theorem within_unionOf_append {Q : Int → Prop} {alts : List Ty} (halts : G.Within Q (.union alts))
    (hb : G.Within Q b) : G.Within Q (Ty.unionOf (alts ++ [b])) := by
  refine within_unionOf (by simp) fun t ht => ?_
  rcases List.mem_append.1 ht with ht | ht
  · exact halts.union t ht
  · rw [List.mem_singleton.1 ht]
    exact hb

theorem solved_joinIntoUnion (hunify : G.SolvedRel unify) (st : G.Started P n)
    (hn : n ≤ p.supply.count) {alts : List Ty} (halts : G.Sees P n p (.union alts))
    (hb : G.Sees P n p b) : TracedOk P n G.JoinsTo (joinIntoUnion ctx unify alts b) p := by
  have hfirst : Traced P n (fun Q o => ∀ s, o = some s → G.Solved Q s)
      (firstOf (fun alt => unify alt b) alts) p := traced_firstOf fun t ht q hq =>
    hunify st (Nat.le_trans hn hq) ((halts.union t ht).later hq) (hb.later hq)
  unfold joinIntoUnion
  refine hfirst.lift.bind fun o q hq ho => ?_
  cases o with
  | some s => exact tracedOk_pure ⟨(halts.later hq).apply' (ho s rfl), ho s rfl⟩
  | none =>
      have hjoined : G.JoinsTo (Known P n q.supply.count) (Ty.unionOf (alts ++ [b]), .empty) :=
        ⟨within_unionOf_append (halts.later hq) (hb.later hq), solved_empty⟩
      dsimp only
      split
      · split
        · exact tracedOk_pure hjoined
        · exact tracedOk_throw
      · exact tracedOk_throw

theorem solved_joinBranchesStep (hunify : G.SolvedRel unify) {join : Ty → Ty → Relate Joined}
    (hjoin : G.SolvedJoin tracesOk join) :
    G.SolvedJoin tracesOk (joinBranchesStep ctx unify join) := by
  intro P n p a b st hn ha hb
  have hunified := solved_joinUnified hunify st hn ha hb
  unfold joinBranchesStep
  split
  · exact hunified
  · exact hunified
  · split
    · exact tracedOk_pure ⟨within_unionOf_pair ha hb, solved_empty⟩
    · exact hunified
  · exact solved_joinIntoUnion hunify st hn ha hb
  · split
    · exact solved_joinTuples carries_tracesOk hjoin st hn ha hb
    · exact hunified
  · split
    · exact hunified
    · exact tracedOk_pure ⟨within_prim _, solved_empty⟩
  · exact hunified

theorem solvedJoin_joinBranches (hunify : G.SolvedRel unify) :
    ∀ depth : Nat, G.SolvedJoin tracesOk (joinBranches ctx unify depth)
  | 0 => fun _ _ _ _ => tracedOk_throw
  | depth + 1 => solved_joinBranchesStep hunify (solvedJoin_joinBranches hunify depth)

theorem solved_fitBranches (hsubtype : G.SolvedRel subtype) (st : G.Started P n) {result : Ty} :
    ∀ {bs : List Ty} {s : Subst} {p : Progress}, n ≤ p.supply.count → G.Sees P n p result →
      (∀ b ∈ bs, G.Sees P n p b) → G.Has P n p s →
      TracedOk P n G.Solved (fitBranches ctx subtype result bs s) p
  | [], s, p, _, _, _, hs => tracedOk_pure hs
  | b :: bs, s, p, hn, hresult, hbs, hs => by
      rw [fitBranches]
      refine (tracedOk_orElseThrow (hsubtype.next st hn hs (hbs b List.mem_cons_self) hresult)
        _).bind fun next q hq hnext => ?_
      exact solved_fitBranches hsubtype st (Nat.le_trans hn hq) (hresult.later hq)
        (fun b hb => (hbs b (List.mem_cons_of_mem _ hb)).later hq) hnext

theorem solved_branch (hr : G.Expands ctx.registry) (limit : Nat) (st : G.Started P n)
    (hn : n ≤ p.supply.count) {result : Ty} {branches : List Ty} (hresult : G.Sees P n p result)
    (hbranches : ∀ b ∈ branches, G.Sees P n p b) :
    TracedOk P n G.Solved (branch ctx limit result branches) p := by
  unfold branch
  split
  · exact tracedOk_pure solved_empty
  · next first others =>
      split
      · next v =>
        have hfirst : G.JoinsTo (Known P n p.supply.count) (first, .empty) :=
          ⟨hbranches first List.mem_cons_self, solved_empty⟩
        refine (solved_joinList carries_tracesOk
          (solvedJoin_joinBranches (solvedRel_unify hr limit) _) st hn
          (fun t ht => hbranches t (List.mem_cons_of_mem _ ht)) hfirst).bind ?_
        rintro ⟨joined, s⟩ q hq ⟨hjoined, hs⟩
        replace hn := Nat.le_trans hn hq
        have hunified : TracedOk P n (fun Q next => G.Solved Q (next.after s))
            (Relate.unify ctx limit (s.apply (.var v)) joined) q :=
          tracedOk_resume (solvedRel_unify hr limit (st.resume hn) (Nat.le_refl _)
            ((hresult.later hq).resume hs) (hjoined.mono fun _ => .inl))
            fun _ _ hle hnext => hs.resume st hn hle hnext
        exact hunified.bind fun _ _ _ hbound => tracedOk_pure hbound
      · exact solved_fitBranches (solvedRel_subtype hr limit) st hn hresult hbranches solved_empty

/-! ## Patterns -/

theorem solved_joinOrUnion (hunify : G.SolvedRel unify) :
    G.SolvedJoin traces (joinOrUnion unify) := by
  intro P n p a b st hn ha hb
  unfold joinOrUnion
  refine (traced_attempt (hunify st hn ha hb)).bind fun o q hq ho => ?_
  cases o with
  | some s => exact traced_pure ⟨((within_widest ha hb).later hq).apply' (ho s rfl), ho s rfl⟩
  | none => exact traced_pure ⟨within_unionOf_pair (ha.later hq) (hb.later hq), solved_empty⟩

theorem solved_joinPatternsStep (hunify : G.SolvedRel unify)
    {join : Ty → Ty → StateM Progress Joined} (hjoin : G.SolvedJoin traces join) :
    G.SolvedJoin traces (joinPatternsStep unify join) := by
  intro P n p a b st hn ha hb
  have hunified := solved_joinOrUnion hunify st hn ha hb
  unfold joinPatternsStep
  split
  · split
    · exact traced_pure ⟨within_unionOf_pair ha hb, solved_empty⟩
    · exact hunified
  · split
    · exact solved_joinTuples carries_traces hjoin st hn ha hb
    · exact hunified
  · split
    · exact hunified
    · exact traced_pure ⟨within_unionOf_pair ha hb, solved_empty⟩
  · refine (traced_firstOf fun t ht q hq => hunify st (Nat.le_trans hn hq)
      ((ha.union t ht).later hq) (hb.later hq)).bind fun o q hq ho => ?_
    cases o with
    | some s => exact traced_pure ⟨(ha.later hq).apply' (ho s rfl), ho s rfl⟩
    | none => exact traced_pure ⟨within_unionOf_append (ha.later hq) (hb.later hq), solved_empty⟩
  · exact hunified

theorem solvedJoin_joinPatterns (hunify : G.SolvedRel unify) :
    ∀ depth : Nat, G.SolvedJoin traces (joinPatterns unify depth)
  | 0 => solved_joinOrUnion hunify
  | depth + 1 => solved_joinPatternsStep hunify (solvedJoin_joinPatterns hunify depth)

theorem solvedRel_matchAlternative (hunify : G.SolvedRel unify) :
    G.SolvedRel (matchAlternative ctx unify) := by
  intro P n p a b st hn ha hb
  unfold matchAlternative
  split
  · exact solved_bindVar ha hb
  · split
    · exact solved_absorb hunify st hn ha hb.union
    · exact hunify st hn ha hb

/-- The unknown that a join is bound to may be bound already; what it was bound to stands then. -/
theorem solved_holds (hr : G.Expands ctx.registry) (limit : Nat) (st : G.Started P n)
    (hn : n ≤ p.supply.count) {scrutinee : Ty} {patterns : List Ty}
    (hscrutinee : G.Sees P n p scrutinee) (hpatterns : ∀ t ∈ patterns, G.Sees P n p t) :
    TracedOk P n G.Solved (holds ctx limit scrutinee patterns) p := by
  have hunify : G.SolvedRel (Relate.unify ctx limit) := solvedRel_unify hr limit
  have hpairs : ∀ pair ∈ patterns.map fun t => (t, scrutinee),
      G.Sees P n p pair.1 ∧ G.Sees P n p pair.2 := by
    intro pair hpair
    obtain ⟨t, ht, rfl⟩ := List.mem_map.1 hpair
    exact ⟨hpatterns t ht, hscrutinee⟩
  unfold holds
  split
  · next v =>
      split
      · exact tracedOk_pure solved_empty
      · next first others =>
          have hfirst : G.JoinsTo (Known P n p.supply.count) (first, .empty) :=
            ⟨hpatterns first List.mem_cons_self, solved_empty⟩
          refine (solved_joinList carries_traces (solvedJoin_joinPatterns hunify _) st hn
            (fun t ht => hpatterns t (List.mem_cons_of_mem _ ht)) hfirst).lift.bind ?_
          rintro ⟨joined, s⟩ q hq ⟨hjoined, hs⟩
          refine (solved_bindTo (hscrutinee.later hq) (hjoined.mono fun _ h => h.1)).bind
            fun bound r hle hbound => tracedOk_pure ((hs.later hle).after hbound.1 ?_)
          rintro id u hu j hj
          rw [hbound.2 id u hu] at hj
          exact (hjoined.free j hj).2
  · exact solved_thread (solvedRel_matchAlternative hunify) st hn hpairs solved_empty
  · exact solved_thread hunify st hn hpairs solved_empty

/-! ## Spreads -/

theorem solved_head (hr : G.Expands ctx.registry) (ht : G.Sees P n p t) :
    TracedOk P n G.Within (head ctx t) p := by
  refine tracedOk_of_ends fun _ _ => ends_head (fun u hu => ⟨Nat.le_refl _, trivial, ?_⟩)
    fun _ => ⟨Nat.le_refl _, trivial⟩
  exact Registry.head?_induction (motive := G.Sees P n p) (fun h hexpands => hr.within h hexpands)
    (fun h => h.unfold) ht hu

theorem solved_recordShape (hr : G.Expands ctx.registry) (st : G.Started P n)
    (hn : n ≤ p.supply.count) (ht : G.Sees P n p t) :
    TracedOk P n G.Solved (recordShape ctx t) p := by
  unfold recordShape
  refine (solved_head hr ht).bind fun u q hq hu => ?_
  split
  · exact tracedOk_pure solved_empty
  · refine (solved_fresh st (Nat.le_trans hn hq) solved_empty _).bind fun row r hle hrow => ?_
    refine solved_bindVar (hu.later hle) (within_record List.Pairwise.nil (by simp) ?_)
    rintro v ⟨⟩
    exact ⟨hrow.1.1, hrow.2.1⟩
  · exact tracedOk_throw

/-- What is spread has fields that are known; its row may be any unknown. -/
theorem solved_spreadRecord (hr : G.Expands ctx.registry) (ht : G.Sees P n p t) :
    TracedOk P n (fun Q r => ∀ f ∈ r.fields, G.Within Q f.2) (spreadRecord ctx t) p := by
  unfold spreadRecord
  refine (solved_head hr ht).bind fun u q hq hu => ?_
  split
  · exact tracedOk_pure hu.field
  · exact tracedOk_pure (by simp)
  · exact tracedOk_throw

/-- What spreading has collected is known by then, and its substitution is in solved form. -/
structure Collects (G : Grammar) (Q : Int → Prop) (m : Merging) : Prop where
  ascending : Table.Ascending m.fields
  fields : ∀ f ∈ m.fields, G.Within Q f.2
  solved : G.Solved Q m.subst

theorem Collects.later {m : Merging} {k k' : Nat} (h : G.Collects (Known P n k) m) (hk : k ≤ k') :
    G.Collects (Known P n k') m :=
  ⟨h.ascending, fun f hf => (h.fields f hf).mono (Known.mono hk), h.solved.mono (Known.mono hk)⟩

theorem within_insert {Q : Int → Prop} {fs : Table String Ty} {name : String}
    (hfs : ∀ f ∈ fs, G.Within Q f.2) (ht : G.Within Q t) :
    ∀ f ∈ Table.insert name t fs, G.Within Q f.2 := by
  intro f hf
  rcases Table.mem_insert hf with rfl | hf
  · exact ht
  · exact hfs f hf

theorem solved_overlay (hunify : G.SolvedRel unify) (st : G.Started P n) (replace : Bool) :
    ∀ {fs : List (String × Ty)} {m : Merging} {p : Progress}, n ≤ p.supply.count →
      (∀ f ∈ fs, G.Sees P n p f.2) → G.Collects (Known P n p.supply.count) m →
      TracedOk P n G.Collects (overlay ctx unify replace fs m) p
  | [], m, p, _, _, hm => tracedOk_pure hm
  | (name, t) :: fs, m, p, hn, hfs, hm => by
      have ht := hfs _ List.mem_cons_self
      have ht' := ht.apply' hm.solved
      have hrest : ∀ (m : Merging) (q : Progress), p.supply.count ≤ q.supply.count →
          G.Collects (Known P n q.supply.count) m →
          TracedOk P n G.Collects (overlay ctx unify replace fs m) q := fun m q hq hm =>
        solved_overlay hunify st replace (Nat.le_trans hn hq)
          (fun f hf => (hfs f (List.mem_cons_of_mem _ hf)).later hq) hm
      rw [overlay]
      dsimp only
      split
      · exact (tracedOk_pure ⟨hm.ascending.insert _ _, within_insert hm.fields ht',
          hm.solved⟩).bind hrest
      · next existing hexisting =>
          have hold := hm.fields _ (Table.mem_of_get? hexisting)
          refine (tracedOk_orElseThrow (hunify.next st hn hm.solved hold ht) _).bind
            fun next q hq hnext => ?_
          refine (tracedOk_pure ⟨?_, ?_, hnext⟩).bind
            fun m' q' hq' hm' => hrest m' q' (Nat.le_trans hq hq') hm'
          · dsimp only
            split
            · exact hm.ascending.insert _ _
            · exact hm.ascending
          · dsimp only
            split
            · exact within_insert (hm.later hq).fields (ht'.later hq)
            · exact (hm.later hq).fields

theorem solved_overlaySpreads (hr : G.Expands ctx.registry) (hunify : G.SolvedRel unify)
    (st : G.Started P n) : ∀ {ts : List Ty} {m : Merging} {p : Progress}, n ≤ p.supply.count →
      (∀ t ∈ ts, G.Sees P n p t) → G.Collects (Known P n p.supply.count) m →
      TracedOk P n G.Collects (overlaySpreads ctx unify ts m) p
  | [], m, p, _, _, hm => tracedOk_pure hm
  | t :: ts, m, p, hn, hts, hm => by
      rw [overlaySpreads]
      refine (solved_spreadRecord hr ((hts t List.mem_cons_self).apply' hm.solved)).bind
        fun r q hq hr' => ?_
      refine (solved_overlay hunify st false (Nat.le_trans hn hq) hr' (hm.later hq)).bind
        fun m' q' hq' hm' => ?_
      have hle := Nat.le_trans hq hq'
      exact solved_overlaySpreads hr hunify st (Nat.le_trans hn hle)
        (fun u hu => (hts u (List.mem_cons_of_mem _ hu)).later hle) hm'

theorem solved_merge (hr : G.Expands ctx.registry) (hunify : G.SolvedRel unify)
    (st : G.Started P n) (hn : n ≤ p.supply.count) {result : Ty} {spreads : List Ty}
    {explicit : RecordTy} (hresult : G.Sees P n p result)
    (hspreads : ∀ t ∈ spreads, G.Sees P n p t)
    (hexplicit : ∀ f ∈ explicit.fields, G.Sees P n p f.2) :
    TracedOk P n G.Solved (merge ctx unify result spreads explicit) p := by
  have hempty : G.Collects (Known P n p.supply.count) {} :=
    ⟨List.Pairwise.nil, by simp, solved_empty⟩
  unfold merge
  refine (solved_overlaySpreads hr hunify st hn hspreads hempty).bind fun m q hq hm => ?_
  refine (solved_overlay hunify st true (Nat.le_trans hn hq)
    (fun f hf => (hexplicit f hf).later hq) hm).bind fun m' q' hq' hm' => ?_
  have hle := Nat.le_trans hq hq'
  refine (solved_fresh st (Nat.le_trans hn hle) hm'.solved 0).bind fun row r hle' hrow => ?_
  have hm'' := hm'.later hle'
  have hmerged : G.Sees P n r (.record m'.fields (some row)) := by
    refine within_record hm''.ascending hm''.fields ?_
    rintro v ⟨⟩
    exact ⟨hrow.1.1, hrow.2.1⟩
  have hall := Nat.le_trans hle hle'
  exact (hunify.next st (Nat.le_trans hn hall) hm''.solved (hresult.later hall) hmerged).bind
    fun _ _ _ hnext => tracedOk_pure hnext

end Grammar

end RowTypes
