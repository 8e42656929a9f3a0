import RowTypes.Proofs.Reachability

/-!
# Leaving out the cases that never match

That one pattern subsumes another is asked of the first as a pattern and of the second as a space,
in which a name, and a field that is not named, count as anything.  The two views meet where the
first pattern covers anything at all: only names and wildcards do, so nothing is asked of the value
there, whichever pattern stands between.  So whatever the second pattern covers the first one
covers as well (`covers_of_subsumes`), and subsumption is transitive.

A case is listed as unreachable for any earlier case that subsumes it, listed itself or not.  Going
back from a listed case to one that subsumes it, and so on, ends at a case that is not listed.  So
the listed cases are those that a case which stays takes over, and they can be left out all at once.
-/

namespace RowTypes.Pattern

open Space

/-! ## Subsumption is transitive -/

theorem covers_of_isIrrefutable {p : Pattern} (h : p.isIrrefutable = true) (s : Space) :
    p.covers s = true := by
  cases p with
  | var | wildcard => simp [covers]
  | _ => cases h

/-- Only names and wildcards cover anything at all. -/
theorem covers_anything {p : Pattern} : p.covers .anything = p.isIrrefutable := by
  cases p <;> simp [covers, isIrrefutable]

/-- What is covered under the name of a field is the first pattern of that name, or anything. -/
theorem fieldOf_ofFieldPatterns (name : String) (fs : List (String × Pattern)) :
    fieldOf (ofFieldPatterns fs) name = .anything ∨
      ∃ q, (name, q) ∈ fs ∧ fieldOf (ofFieldPatterns fs) name = ofPattern q := by
  induction fs with
  | nil => exact .inl rfl
  | cons f fs ih =>
      rw [ofFieldPatterns, fieldOf, List.lookup_cons]
      by_cases hname : name = f.1
      · exact .inr ⟨f.2, by simp [hname], by simp [hname]⟩
      · rw [beq_false_of_ne hname]
        exact ih.imp_right (Exists.imp fun _ => And.imp_left (List.mem_cons_of_mem _))

mutual

/-- A pattern covers what a pattern covers that it subsumes. -/
theorem covers_of_subsumes : ∀ {p q : Pattern} {s : Space}, p.covers (ofPattern q) = true →
    q.covers s = true → p.covers s = true
  | .missing, q, _, hpq, _ => by cases q <;> simp [covers] at hpq
  | .var .., _, _, _, _ | .wildcard _, _, _, _, _ => covers_of_isIrrefutable rfl _
  | .literal _ kind text, q, s, hpq, hq => by
      cases q with
      | literal _ kind' text' =>
          obtain ⟨rfl, rfl⟩ : kind = kind' ∧ text = text' := by
            simpa [covers, ofPattern] using hpq
          cases s with
          | literal => simpa [covers] using hq
          | _ => simp [covers] at hq
      | _ => simp [covers, ofPattern] at hpq
  | .tuple _ ps, q, s, hpq, hq => by
      cases q with
      | tuple _ qs =>
          cases s with
          | tuple ss =>
              rw [ofPattern, covers] at hpq
              rw [covers] at hq ⊢
              exact coversAll_of_subsumes hpq hq
          | _ => simp [covers] at hq
      | _ => simp [covers, ofPattern] at hpq
  | .record _ fs, q, s, hpq, hq => by
      cases q with
      | record _ gs =>
          cases s with
          | record ss =>
              rw [ofPattern, covers] at hpq
              rw [covers] at hq ⊢
              exact coversFields_of_subsumes hpq hq
          | _ => simp [covers] at hq
      | _ => simp [covers, ofPattern] at hpq

theorem coversAll_of_subsumes : ∀ {ps qs : List Pattern} {ss : List Space},
    coversAll ps (ofPatterns qs) = true → coversAll qs ss = true → coversAll ps ss = true
  | [], [], _, _, hqs => hqs
  | [], _ :: _, _, hpqs, _ | _ :: _, [], _, hpqs, _ => by simp [ofPatterns, coversAll] at hpqs
  | _ :: _, _ :: _, [], _, hqs => by simp [coversAll] at hqs
  | p :: ps, q :: qs, s :: ss, hpqs, hqs => by
      rw [ofPatterns, coversAll, Bool.and_eq_true] at hpqs
      rw [coversAll, Bool.and_eq_true] at hqs ⊢
      exact ⟨covers_of_subsumes hpqs.1 hqs.1, coversAll_of_subsumes hpqs.2 hqs.2⟩

theorem coversFields_of_subsumes : ∀ {fs gs : List (String × Pattern)} {ss : List (String × Space)},
    coversFields fs (ofFieldPatterns gs) = true → coversFields gs ss = true →
      coversFields fs ss = true
  | [], _, _, _, _ => by rw [coversFields]
  | (name, p) :: fs, gs, ss, hfgs, hgs => by
      rw [coversFields, Bool.and_eq_true] at hfgs ⊢
      refine ⟨?_, coversFields_of_subsumes hfgs.2 hgs⟩
      rcases fieldOf_ofFieldPatterns name gs with hany | ⟨q, hq, hfield⟩
      · -- The pattern between names no such field, so the first one asks nothing of it.
        have hirr : p.isIrrefutable = true := by
          rw [← covers_anything, ← hany]
          exact hfgs.1
        exact covers_of_isIrrefutable hirr _
      · have hcovers := hfgs.1
        rw [hfield] at hcovers
        exact covers_of_subsumes hcovers (coversFields_iff.1 hgs _ hq)

end

/-! ## The cases that are listed -/

/-- A case is listed if an earlier one subsumes it. -/
theorem mem_unreachableFrom {e l : Pattern} {after : List Pattern} (hsub : e.subsumes l = true) :
    ∀ {before earlier : List Pattern} {n : Nat}, e ∈ earlier ++ before →
      n + before.length ∈ unreachableFrom earlier n (before ++ l :: after)
  | [], earlier, n, he => by
      have hany : earlier.any (·.subsumes l) = true :=
        List.any_eq_true.2 ⟨e, by simpa using he, hsub⟩
      rw [List.nil_append, unreachableFrom, if_pos hany]
      exact List.mem_cons_self
  | p :: before, earlier, n, he => by
      have hlater : n + (p :: before).length ∈
          unreachableFrom (earlier ++ [p]) (n + 1) (before ++ l :: after) := by
        rw [List.length_cons, ← Nat.add_assoc, Nat.add_right_comm]
        exact mem_unreachableFrom hsub (by simpa using he)
      rw [List.cons_append, unreachableFrom]
      split
      · exact List.mem_cons_of_mem _ hlater
      · exact hlater

theorem mem_unreachable {ps : List Pattern} {i : Nat} : i ∈ unreachable ps ↔
    ∃ l, ps[i]? = some l ∧ ∃ j e, j < i ∧ ps[j]? = some e ∧ e.subsumes l = true := by
  constructor
  · intro h
    obtain ⟨before, l, after, rfl, rfl, e, he, hsub⟩ := exists_subsumes h
    obtain ⟨j, hj, rfl⟩ := List.getElem_of_mem he
    rw [List.nil_append] at hj
    refine ⟨l, by simp, j, before[j], by omega, ?_, hsub⟩
    rw [List.getElem?_append_left hj, List.getElem?_eq_getElem hj]
  · rintro ⟨l, hl, j, e, hj, he, hsub⟩
    have hi := (List.getElem?_eq_some_iff.1 hl).1
    have hsplit : ps.take i ++ l :: ps.drop (i + 1) = ps := by
      rw [← (List.getElem?_eq_some_iff.1 hl).2, List.getElem_cons_drop, List.take_append_drop]
    have hmem : e ∈ [] ++ ps.take i :=
      List.mem_of_getElem? (i := j) (by rw [List.nil_append, List.getElem?_take_of_lt hj, he])
    have h : 0 + (ps.take i).length ∈ unreachable (ps.take i ++ l :: ps.drop (i + 1)) :=
      mem_unreachableFrom hsub hmem
    rwa [hsplit, List.length_take, Nat.min_eq_left (Nat.le_of_lt hi), Nat.zero_add] at h

/-- What a case covers, one that is not listed and stands no later covers. -/
theorem exists_reachable_covers {ps : List Pattern} {s : Space} {j : Nat} {e : Pattern}
    (he : ps[j]? = some e) (hcovers : e.covers s = true) :
    ∃ k r, k ≤ j ∧ ps[k]? = some r ∧ k ∉ unreachable ps ∧ r.covers s = true := by
  induction j using Nat.strong_induction_on generalizing e with
  | _ j ih =>
    by_cases hlisted : j ∈ unreachable ps
    · obtain ⟨l, hl, i, f, hij, hf, hsub⟩ := mem_unreachable.1 hlisted
      cases he.symm.trans hl
      obtain ⟨k, r, hk, hr⟩ := ih i hij hf (covers_of_subsumes hsub hcovers)
      exact ⟨k, r, by omega, hr⟩
    · exact ⟨j, e, Nat.le_refl j, he, hlisted, hcovers⟩

/-! ## The cases that stay -/

/-- The cases that no earlier one takes over. -/
def reachable (ps : List Pattern) : List Pattern :=
  (ps.zipIdx.filter fun entry => entry.2 ∉ unreachable ps).map (·.1)

theorem mem_reachable {ps : List Pattern} {p : Pattern} :
    p ∈ reachable ps ↔ ∃ i, ps[i]? = some p ∧ i ∉ unreachable ps := by
  simp [reachable, List.mem_zipIdx_iff_getElem?, and_comm]

theorem unreachable_eq_nil {ps : List Pattern} (h : ps.Pairwise fun e l => ¬ e.subsumes l = true) :
    unreachable ps = [] := by
  refine List.eq_nil_iff_forall_not_mem.2 fun i hi => ?_
  obtain ⟨l, hl, j, e, hji, he, hsub⟩ := mem_unreachable.1 hi
  obtain ⟨hj, rfl⟩ := List.getElem?_eq_some_iff.1 he
  obtain ⟨hi, rfl⟩ := List.getElem?_eq_some_iff.1 hl
  exact List.pairwise_iff_getElem.1 h j i hj hi hji hsub

/-- Of the cases that stay none subsumes a later one. -/
theorem pairwise_reachable (ps : List Pattern) :
    (reachable ps).Pairwise fun e l => ¬ e.subsumes l = true := by
  have hplaces : ps.zipIdx.Pairwise fun a b =>
      a.1.subsumes b.1 = true → b.2 ∈ unreachable ps := by
    refine List.pairwise_iff_getElem.2 fun j i hj hi hji hsub => ?_
    rw [List.length_zipIdx] at hj hi
    simp only [List.getElem_zipIdx, Nat.zero_add] at hsub ⊢
    exact mem_unreachable.2 ⟨_, List.getElem?_eq_getElem hi, j, _, hji,
      List.getElem?_eq_getElem hj, hsub⟩
  rw [reachable, List.pairwise_map]
  refine (hplaces.filter _).imp_of_mem fun {a b} _ hb himp hsub => ?_
  exact absurd (himp hsub) (by simpa using (List.mem_filter.1 hb).2)

theorem nodup_unreachableFrom : ∀ (earlier : List Pattern) (n : Nat) (ps : List Pattern),
    (unreachableFrom earlier n ps).Nodup
  | _, _, [] => by simp [unreachableFrom]
  | earlier, n, p :: ps => by
      have hlater := nodup_unreachableFrom (earlier ++ [p]) (n + 1) ps
      have hnew : n ∉ unreachableFrom (earlier ++ [p]) (n + 1) ps := fun h => by
        obtain ⟨before, _, _, _, hn, _⟩ := exists_subsumes h
        omega
      rw [unreachableFrom]
      split
      · exact List.nodup_cons.2 ⟨hnew, hlater⟩
      · exact hlater

/-- Each case is listed or stays. -/
theorem length_reachable (ps : List Pattern) :
    (reachable ps).length + (unreachable ps).length = ps.length := by
  have hlisted : ((List.range ps.length).filter (· ∈ unreachable ps)).Perm (unreachable ps) := by
    refine (List.perm_ext_iff_of_nodup (List.nodup_range.filter _)
      (nodup_unreachableFrom [] 0 ps)).2 fun i => ?_
    rw [List.mem_filter, List.mem_range, decide_eq_true_iff]
    refine and_iff_right_of_imp fun hi => ?_
    obtain ⟨l, hl, _⟩ := mem_unreachable.1 hi
    exact (List.getElem?_eq_some_iff.1 hl).1
  have hstays : (reachable ps).length =
      ((List.range ps.length).filter fun i => decide (i ∉ unreachable ps)).length := by
    rw [reachable, List.length_map, List.range_eq_range', ← List.zipIdx_map_snd, List.filter_map,
      List.length_map]
    rfl
  have hsplit := List.length_eq_length_filter_add (l := List.range ps.length)
    (decide <| · ∈ unreachable ps)
  simp only [List.length_range, ← decide_not] at hsplit
  rw [hstays, ← hlisted.length_eq]
  omega

/-- The cases that stay cover what all cases covered. -/
theorem any_covers_reachable (ps : List Pattern) (s : Space) :
    (reachable ps).any (·.covers s) = ps.any (·.covers s) := by
  rw [Bool.eq_iff_iff, List.any_eq_true, List.any_eq_true]
  constructor
  · rintro ⟨p, hp, hcovers⟩
    obtain ⟨i, hi, -⟩ := mem_reachable.1 hp
    exact ⟨p, List.mem_of_getElem? hi, hcovers⟩
  · rintro ⟨p, hp, hcovers⟩
    obtain ⟨i, hi⟩ := List.getElem?_of_mem hp
    obtain ⟨k, r, -, hr, hstays, hcovers⟩ := exists_reachable_covers hi hcovers
    exact ⟨r, mem_reachable.2 ⟨k, hr, hstays⟩, hcovers⟩

/-- Leaving out the listed cases changes nothing of what is missing from a match. -/
theorem uncovered?_reachable (t : Ty) (ps : List Pattern) :
    uncovered? t (reachable ps) = uncovered? t ps := by
  have hirr := any_covers_reachable ps .anything
  simp only [covers_anything] at hirr
  simp only [uncovered?, any_covers_reachable, hirr]

/-- Subsumption is transitive.  A case is listed just in case an earlier one subsumes it that is not
listed.  So what is left after leaving out all listed cases lists none of them, and every case that
was not listed is left. -/
theorem reachability_stable :
    (∀ p q r : Pattern, p.subsumes q = true → q.subsumes r = true → p.subsumes r = true) ∧
    ∀ ps : List Pattern,
      (∀ i, i ∈ unreachable ps ↔ ∃ l, ps[i]? = some l ∧ ∃ j e, j < i ∧ ps[j]? = some e ∧
        j ∉ unreachable ps ∧ e.subsumes l = true) ∧
      unreachable (reachable ps) = [] ∧
      (∀ p, p ∈ reachable ps ↔ ∃ i, ps[i]? = some p ∧ i ∉ unreachable ps) ∧
      (reachable ps).length + (unreachable ps).length = ps.length := by
  refine ⟨fun p q r hpq hqr => covers_of_subsumes hpq hqr, fun ps => ⟨fun i => ?_,
    unreachable_eq_nil (pairwise_reachable ps), fun p => mem_reachable, length_reachable ps⟩⟩
  rw [mem_unreachable]
  refine exists_congr fun l => and_congr_right fun _ => ⟨?_, ?_⟩
  · rintro ⟨j, e, hji, he, hsub⟩
    obtain ⟨k, r, hkj, hr, hstays, hsub⟩ := exists_reachable_covers he hsub
    exact ⟨k, r, by omega, hr, hstays, hsub⟩
  · rintro ⟨j, e, hji, he, -, hsub⟩
    exact ⟨j, e, hji, he, hsub⟩

/-- A record with a field `a`, with `1` in it and a field `b`, and with two parts left out. -/
def narrowing : List Pattern := [
  .record .unknown [("a", .wildcard .unknown)],
  .record .unknown [("a", .literal .unknown .int "1"), ("b", .var .unknown "x")],
  .record .unknown [("a", .literal .unknown .int "1"), ("b", .missing), ("a", .missing)]]

theorem reachability_stable_narrowing :
    (narrowing[0].subsumes narrowing[1] = true ∧ narrowing[1].subsumes narrowing[2] = true ∧
      narrowing[0].subsumes narrowing[2] = true) ∧
    unreachable narrowing = [1, 2] ∧ unreachable (reachable narrowing) = [] :=
  ⟨⟨by decide +kernel, by decide +kernel, reachability_stable.1 narrowing[0] narrowing[1]
    narrowing[2] (by decide +kernel) (by decide +kernel)⟩, by decide +kernel,
    (reachability_stable.2 narrowing).2.1⟩

end RowTypes.Pattern
