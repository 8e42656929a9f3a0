import RowTypes.Proofs.Readability
import RowTypes.Proofs.Values

/-!
# Cases that never match

A case is taken over by an earlier one that covers its space, and it repeats an earlier one whose
space has the same text.  Either way the earlier case should accept what the later one does.  Both
ways miss the same thing: a field that the later case does not name.  It counts as anything where
spaces are covered, and it is left out of a text where it is not narrowed down, though a record
pattern only accepts the records that have the field.  So the earlier case has to name no other
fields than the later one, and then it is right.
-/

namespace RowTypes.Pattern

open Space

mutual

/-- Whether no part of a pattern is left out. -/
def isComplete : Pattern → Bool
  | .missing => false
  | .tuple _ ps => isCompleteAll ps
  | .record _ fs => isCompleteFields fs
  | _ => true

/-- The same for several patterns. -/
def isCompleteAll : List Pattern → Bool
  | [] => true
  | p :: ps => p.isComplete && isCompleteAll ps

/-- The same for the patterns of fields. -/
def isCompleteFields : List (String × Pattern) → Bool
  | [] => true
  | (_, p) :: fs => p.isComplete && isCompleteFields fs

end

theorem accepts_of_isAnything {p : Pattern} (hcomplete : p.isComplete = true)
    (h : (ofPattern p).isAnything = true) (v : Value) : p.accepts v = true := by
  cases p with
  | missing => cases hcomplete
  | var | wildcard => simp [accepts]
  | literal | tuple | record => simp [ofPattern, isAnything] at h

theorem exists_of_mem_ofFieldPatterns {f : String × Space} : ∀ {fs : List (String × Pattern)},
    f ∈ ofFieldPatterns fs → ∃ p, (f.1, p) ∈ fs ∧ ofPattern p = f.2
  | [], h => by simp [ofFieldPatterns] at h
  | (name, p) :: fs, h => by
      rw [ofFieldPatterns, List.mem_cons] at h
      rcases h with rfl | h
      · exact ⟨p, List.mem_cons_self, rfl⟩
      · obtain ⟨q, hq, heq⟩ := exists_of_mem_ofFieldPatterns h
        exact ⟨q, List.mem_cons_of_mem _ hq, heq⟩

section

variable {units : Bool}

mutual

/-- A pattern accepts what another of the same text accepts, if it names no field that the other
does not. -/
theorem accepts_of_render : ∀ {e l : Pattern} {v : Value}, e.isComplete = true →
    (ofPattern e).readable units = true → (ofPattern l).readable units = true →
    (ofPattern e).render = (ofPattern l).render → e.namesWithin (ofPattern l) = true →
    l.accepts v = true → e.accepts v = true
  | .missing, _, _, hcomplete, _, _, _, _, _ => by cases hcomplete
  | .var .., _, _, _, _, _, _, _, _ | .wildcard _, _, _, _, _, _, _, _, _ => by simp [accepts]
  | .literal _ kind text, l, v, _, he, hl, heq, _, hv => by
      rw [ofPattern] at he heq
      obtain ⟨text', hl', htext⟩ := eq_literal_of_render he hl heq
      cases l with
      | literal _ kind' text'' =>
          cases hl'
          cases v with
          | const c =>
              rw [accepts, Const.isWritten_iff] at hv ⊢
              obtain ⟨rfl, hc⟩ := hv
              refine ⟨rfl, ?_⟩
              -- Unit has one constant, whatever text is written for it.
              rcases htext with hunit | rfl
              · cases c with
                | unit => exact .inl rfl
                | _ => cases hunit
              · exact hc
          | _ => cases hv
      | _ => cases hl'
  | .tuple _ ps, l, v, hcomplete, he, hl, heq, hnames, hv => by
      rw [ofPattern] at he heq
      obtain ⟨ss, hl', htexts⟩ := eq_tuple_of_render he hl heq
      cases l with
      | tuple _ qs =>
          cases v with
          | tuple vs =>
              simp only [isComplete, ofPattern, readable, namesWithin, accepts, Bool.and_eq_true,
                Space.tuple.injEq] at hcomplete hl' he hl hnames hv ⊢
              rw [← hl'] at htexts
              exact acceptsAll_of_render hcomplete he.2 hl.2 htexts hnames hv
          | _ => cases hv
      | _ => cases hl'
  | .record _ fs, l, v, hcomplete, he, hl, heq, hnames, hv => by
      cases l with
      | record _ gs =>
          cases v with
          | record vs =>
              rw [ofPattern] at he hl
              rw [ofPattern, ofPattern] at heq
              have htexts := renderFields_eq_of_render he hl heq
              simp only [isComplete, ofPattern, readable, namesWithin, accepts]
                at hcomplete he hl hnames hv ⊢
              exact acceptsFields_of_render hcomplete he hl (fun text htext => htexts ▸ htext)
                hnames hv
          | _ => cases hv
      | _ => simp [ofPattern, namesWithin] at hnames

theorem acceptsAll_of_render : ∀ {es ls : List Pattern} {vs : List Value},
    isCompleteAll es = true → readableAll units (ofPatterns es) = true →
    readableAll units (ofPatterns ls) = true →
    Space.renderAll (ofPatterns es) = Space.renderAll (ofPatterns ls) →
    namesWithinAll es (ofPatterns ls) = true → acceptsAll ls vs = true → acceptsAll es vs = true
  | [], [], _, _, _, _, _, _, hvs => hvs
  | [], _ :: _, _, _, _, _, heq, _, _ | _ :: _, [], _, _, _, _, heq, _, _ => by
      simp [ofPatterns, Space.renderAll] at heq
  | _ :: _, _ :: _, [], _, _, _, _, _, hvs => by simp [acceptsAll] at hvs
  | e :: es, l :: ls, v :: vs, hcomplete, hes, hls, heq, hnames, hvs => by
      simp only [isCompleteAll, ofPatterns, readableAll, Space.renderAll, namesWithinAll, acceptsAll,
        Bool.and_eq_true, List.cons.injEq] at hcomplete hes hls heq hnames hvs ⊢
      exact ⟨accepts_of_render hcomplete.1 hes.1 hls.1 heq.1 hnames.1 hvs.1,
        acceptsAll_of_render hcomplete.2 hes.2 hls.2 heq.2 hnames.2 hvs.2⟩

theorem acceptsFields_of_render : ∀ {es ls : List (String × Pattern)} {vs : List (String × Value)},
    isCompleteFields es = true → readableFields units (ofFieldPatterns es) = true →
    readableFields units (ofFieldPatterns ls) = true →
    (∀ text ∈ Space.renderFields (ofFieldPatterns es),
      text ∈ Space.renderFields (ofFieldPatterns ls)) →
    namesWithinFields es (ofFieldPatterns ls) = true → acceptsFields ls vs = true →
    acceptsFields es vs = true
  | [], _, _, _, _, _, _, _, _ => by simp [acceptsFields]
  | (name, e) :: es, ls, vs, hcomplete, hes, hls, htexts, hnames, hvs => by
      have hhere := readable_of_mem_fields hes (name, ofPattern e) (by simp [ofFieldPatterns])
      rw [isCompleteFields, Bool.and_eq_true] at hcomplete
      rw [ofFieldPatterns, readableFields, Bool.and_eq_true] at hes
      have hall := namesWithinFields_iff.1 hnames
      rw [namesWithinFields, Bool.and_eq_true] at hnames
      rw [acceptsFields, Bool.and_eq_true, Option.any_eq_true]
      constructor
      · -- A field that is narrowed down is one of the later pattern's, with the same text; one that
        -- is not is at least named there.
        by_cases hany : (ofPattern e).isAnything = true
        · obtain ⟨⟨s, hs, hname⟩, -⟩ := hall _ List.mem_cons_self
          obtain ⟨l, hl, -⟩ := exists_of_mem_ofFieldPatterns hs
          obtain ⟨v, hv, -⟩ := acceptsFields_iff.1 hvs _ hl
          rw [show s.1 = name from hname] at hv
          exact ⟨v, hv, accepts_of_isAnything hcomplete.1 hany v⟩
        · obtain ⟨f, hf, -, htext⟩ := mem_renderFields.1 (htexts _ (mem_renderFields.2
            ⟨(name, ofPattern e), by simp [ofFieldPatterns], Bool.eq_false_iff.2 hany, rfl⟩))
          obtain ⟨hcolon, hread⟩ := readable_of_mem_fields hls f hf
          obtain ⟨hname, htext⟩ := eq_of_fieldText hhere.1 hcolon htext.symm
          obtain ⟨l, hl, hf'⟩ := exists_of_mem_ofFieldPatterns hf
          obtain ⟨v, hv, hlv⟩ := acceptsFields_iff.1 hvs _ hl
          have hwithin := (hall _ List.mem_cons_self).2 f hf hname.symm
          rw [← hf'] at htext hread hwithin
          rw [show f.1 = name from hname.symm] at hv
          exact ⟨v, hv, accepts_of_render hcomplete.1 hhere.2 hread htext hwithin hlv⟩
      · refine acceptsFields_of_render hcomplete.2 hes.2 hls (fun text htext => htexts text ?_)
          hnames.2 hvs
        rw [ofFieldPatterns, mem_renderFields, List.exists_mem_cons_iff]
        exact .inr (mem_renderFields.1 htext)

end

end

/-! ## What is reported -/

/-- Cases that are taken over come after one that covers their space. -/
theorem exists_subsumes : ∀ {earlier ps : List Pattern} {n i : Nat},
    i ∈ unreachableFrom earlier n ps → ∃ before l after, ps = before ++ l :: after ∧
      i = n + before.length ∧ ∃ e ∈ earlier ++ before, e.subsumes l = true
  | _, [], _, _, h => by simp [unreachableFrom] at h
  | earlier, p :: ps, n, i, h => by
      have hlater : i ∈ unreachableFrom (earlier ++ [p]) (n + 1) ps →
          ∃ before l after, p :: ps = before ++ l :: after ∧ i = n + before.length ∧
            ∃ e ∈ earlier ++ before, e.subsumes l = true := by
        intro hi
        obtain ⟨before, l, after, rfl, rfl, e, he, hsub⟩ := exists_subsumes hi
        exact ⟨p :: before, l, after, rfl, by simp [Nat.add_right_comm, Nat.add_assoc], e,
          by simpa using he, hsub⟩
      rw [unreachableFrom] at h
      split at h
      · next hany =>
          rcases List.mem_cons.1 h with rfl | hi
          · obtain ⟨e, he, hsub⟩ := List.any_eq_true.1 hany
            exact ⟨[], p, ps, rfl, rfl, e, by simpa using he, hsub⟩
          · exact hlater hi
      · exact hlater h

/-- Whether the text of an earlier case is that of a later one, where neither is a bare name or a
wildcard. -/
def isRepeatedBy (e l : Pattern) : Bool :=
  !e.isIrrefutable && !l.isIrrefutable && (ofPattern e).render == (ofPattern l).render

theorem selfContradiction?_ne {p : Pattern} {rest : String} :
    p.selfContradiction? ≠ some ("duplicate " ++ rest) := by
  have hhead : ∀ {c : Char} {a b : String}, c ≠ 'd' → a.toList.head? = some c →
      a ++ b ≠ "duplicate " ++ rest := by
    intro c a b hc ha heq
    have htexts := congrArg (fun text => text.toList.head?) heq
    simp [ha] at htexts
    exact hc htexts
  intro h
  unfold selfContradiction? at h
  split at h
  · next name _ =>
      rw [Option.some.injEq, String.append_assoc] at h
      exact hhead (c := 'v') (by decide) rfl h
  · obtain ⟨name, -, h⟩ := Option.map_eq_some_iff.1 h
    rw [String.append_assoc] at h
    exact hhead (c := 'f') (by decide) rfl h

/-- The texts that were seen are those of earlier cases that are not irrefutable. -/
def SeenIn (earlier : List Pattern) (seen : List (String × Nat)) : Prop :=
  ∀ entry ∈ seen, ∃ e ∈ earlier, e.isIrrefutable = false ∧ (ofPattern e).render = entry.1

/-- Cases that are reported as duplicates come after one with their text. -/
theorem exists_isRepeatedBy {rest : String} : ∀ {earlier ps : List Pattern}
    {seen : List (String × Nat)} {n i : Nat}, SeenIn earlier seen →
    ⟨i, "duplicate " ++ rest⟩ ∈ contradictionsFrom seen n ps →
      ∃ before l after, ps = before ++ l :: after ∧ i = n + before.length ∧
        ∃ e ∈ earlier ++ before, e.isRepeatedBy l = true
  | _, [], _, _, _, _, h => by simp [contradictionsFrom] at h
  | earlier, p :: ps, seen, n, i, hseen, h => by
      have hlater : ∀ {seen'}, SeenIn (earlier ++ [p]) seen' →
          ⟨i, "duplicate " ++ rest⟩ ∈ contradictionsFrom seen' (n + 1) ps →
          ∃ before l after, p :: ps = before ++ l :: after ∧ i = n + before.length ∧
            ∃ e ∈ earlier ++ before, e.isRepeatedBy l = true := by
        intro seen' hseen' hi
        obtain ⟨before, l, after, rfl, rfl, e, he, hrep⟩ := exists_isRepeatedBy hseen' hi
        exact ⟨p :: before, l, after, rfl, by simp [Nat.add_right_comm, Nat.add_assoc], e,
          by simpa using he, hrep⟩
      have hmore : SeenIn (earlier ++ [p]) seen := by
        intro entry hentry
        obtain ⟨e, he, hkey⟩ := hseen entry hentry
        exact ⟨e, List.mem_append_left _ he, hkey⟩
      have hown : ⟨i, "duplicate " ++ rest⟩ ∉
          (p.selfContradiction?.map fun reason => (⟨n, reason⟩ : Contradiction)).toList := by
        simp only [Option.mem_toList, Option.map_eq_some_iff, Contradiction.mk.injEq, not_exists,
          not_and]
        rintro reason hreason - rfl
        exact selfContradiction?_ne hreason
      rw [contradictionsFrom] at h
      dsimp only at h
      split at h
      · exact hlater hmore ((List.mem_append.1 h).resolve_left hown)
      · next hirr =>
          split at h
          · next first hlookup =>
              rcases List.mem_cons.1 ((List.mem_append.1 h).resolve_left hown) with heq | hi
              · obtain ⟨front, back, hfront, -⟩ := List.lookup_eq_some_iff.1 hlookup
                obtain ⟨e, he, hirr', hkey⟩ := hseen ((ofPattern p).render, first)
                  (hfront ▸ List.mem_append_cons_self)
                obtain rfl : i = n := congrArg Contradiction.index heq
                exact ⟨[], p, ps, rfl, rfl, e, by simpa using he, by
                  simp [isRepeatedBy, hirr', hirr, hkey]⟩
              · exact hlater hmore hi
          · refine hlater (List.forall_mem_cons.2 ⟨⟨p, by simp, by simpa using hirr, rfl⟩, hmore⟩)
              ((List.mem_append.1 h).resolve_left hown)

/-- Whether the texts of two patterns can be read back, the one without a part left out. -/
def areReadable (e l : Pattern) : Bool :=
  e.isComplete &&
    [true, false].any fun units => (ofPattern e).readable units && (ofPattern l).readable units

/-- What a case accepts that is reported as unreachable or as a duplicate, an earlier case
accepts. -/
theorem exists_earlier_accepts {ps : List Pattern} {i : Nat}
    (hnames : ps.Pairwise fun e l =>
      (e.subsumes l || e.isRepeatedBy l) = true → e.namesWithin (ofPattern l) = true)
    (hread : ps.Pairwise fun e l => e.isRepeatedBy l = true → e.areReadable l = true)
    (h : i ∈ unreachable ps ∨ ∃ rest, ⟨i, "duplicate " ++ rest⟩ ∈ contradictions ps) :
    ∃ l, ps[i]? = some l ∧
      ∀ v, l.accepts v = true → ∃ e ∈ ps.take i, e.accepts v = true := by
  rcases h with h | ⟨rest, h⟩
  · obtain ⟨before, l, after, rfl, rfl, e, he, hsub⟩ := exists_subsumes h
    rw [List.nil_append] at he
    have hwithin := (List.pairwise_append.1 hnames).2.2 e he l List.mem_cons_self (by simp [hsub])
    refine ⟨l, by simp, fun v hv => ⟨e, by simpa using he, ?_⟩⟩
    exact accepts_of_covers hsub hwithin (has_ofPattern hv)
  · have hseen : SeenIn [] [] := by simp [SeenIn]
    obtain ⟨before, l, after, rfl, rfl, e, he, hrep⟩ := exists_isRepeatedBy hseen h
    rw [List.nil_append] at he
    have hwithin := (List.pairwise_append.1 hnames).2.2 e he l List.mem_cons_self (by simp [hrep])
    have hreadable := (List.pairwise_append.1 hread).2.2 e he l List.mem_cons_self hrep
    rw [areReadable, Bool.and_eq_true, List.any_eq_true] at hreadable
    obtain ⟨hcomplete, units, -, hunits⟩ := hreadable
    rw [Bool.and_eq_true] at hunits
    simp only [isRepeatedBy, Bool.and_eq_true, beq_iff_eq] at hrep
    refine ⟨l, by simp, fun v hv => ⟨e, by simpa using he, ?_⟩⟩
    exact accepts_of_render hcomplete hunits.1 hunits.2 hrep.2 hwithin hv

/-- A pair of a number and a record that is not looked into. -/
def onePair (name : String) : Pattern :=
  .tuple .unknown [.literal .unknown .int "1", .record .unknown [(name, .wildcard .unknown)]]

theorem exists_earlier_onePair : ∃ l, [onePair "a", onePair "a"][1]? = some l ∧
    ∀ v, l.accepts v = true → ∃ e ∈ [onePair "a", onePair "a"].take 1, e.accepts v = true :=
  exists_earlier_accepts (by decide +kernel) (by decide +kernel) (.inl (by decide +kernel))

-- Cases that name different fields are told apart neither by what they cover nor by their text.
example : unreachable [onePair "a", onePair "b"] = [1] ∧
    (contradictions [onePair "a", onePair "b"]).length = 1 ∧
    (onePair "b").accepts (.tuple [.const (.int 1), .record [("b", .const .unit)]]) = true ∧
    (onePair "a").accepts (.tuple [.const (.int 1), .record [("b", .const .unit)]]) = false := by
  decide +kernel

end RowTypes.Pattern
