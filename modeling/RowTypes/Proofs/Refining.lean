import RowTypes.Coverage.Narrow
import RowTypes.Proofs.Tables

/-!
# What refining passes on

Refining a type by a pattern takes the type apart: it unfolds it, goes to alternatives, elements and
fields, and puts alternatives together again.  A property of types that is passed on by these steps
is one of everything that refining comes to.
-/

namespace RowTypes

namespace Ty

/-- A property of types that is passed on when types are unfolded and taken apart, and when
alternatives are put together. -/
structure Inherited (Q : Ty → Prop) : Prop where
  fields : ∀ {fs row}, Q (.record fs row) → ∀ f ∈ fs, Q f.2
  elems : ∀ {ts}, Q (.tuple ts) → ∀ t ∈ ts, Q t
  alternatives : ∀ {ts}, Q (.union ts) → ∀ t ∈ ts, Q t
  unionOf : ∀ {ts}, ts ≠ [] → (∀ t ∈ ts, Q t) → Q (unionOf ts)
  unfold : ∀ {v t}, Q (.mu v t) → Q (unfold v t)

theorem exists_of_mem_mapM {α β : Type} {f : α → Option β} {b : β} : ∀ {l : List α} {bs : List β},
    l.mapM f = some bs → b ∈ bs → ∃ a ∈ l, f a = some b
  | [], bs, h, hb => by
      cases h
      cases hb
  | a :: l, bs, h, hb => by
      rw [List.mapM_cons] at h
      obtain ⟨c, hc, h⟩ := Option.bind_eq_some_iff.1 h
      obtain ⟨cs, hcs, h⟩ := Option.bind_eq_some_iff.1 h
      cases h
      rcases List.mem_cons.1 hb with rfl | hb
      · exact ⟨a, List.mem_cons_self, hc⟩
      · obtain ⟨a', ha', hf⟩ := exists_of_mem_mapM hcs hb
        exact ⟨a', List.mem_cons_of_mem _ ha', hf⟩

namespace Inherited

variable {Q : Ty → Prop} (hQ : Inherited Q) {t u : Ty} {ts : List Ty}

include hQ

theorem unionOf? (h : ∀ t ∈ ts, Q t) (hu : Ty.unionOf? ts = some u) : Q u := by
  have hne : ts ≠ [] := by
    rintro rfl
    cases hu
  have hunion := hQ.unionOf hne h
  rwa [Ty.unionOf, hu] at hunion

theorem unfoldOnce (h : Q t) : Q t.unfoldOnce := by
  unfold Ty.unfoldOnce
  split
  · exact hQ.unfold h
  · exact h

theorem narrow (h : Q t) (p : Pattern) : Q (t.narrow p) := by
  have hunfolded := hQ.unfoldOnce h
  unfold Ty.narrow
  split
  · next ts hts =>
      rw [hts] at hunfolded
      split
      · exact hunfolded
      · next hne =>
          exact hQ.unionOf hne fun t ht => hQ.alternatives hunfolded t (List.mem_filter.1 ht).1
  · exact hunfolded

theorem elem? (h : Q t) {i length : Nat} (hu : t.elem? i length = some u) : Q u := by
  have htuple : ∀ {ts : List Ty} {u : Ty}, Q (.tuple ts) →
      (if ts.length = length then ts[i]? else none) = some u → Q u := by
    intro ts u h hu
    split at hu
    · exact hQ.elems h u (List.mem_of_getElem? hu)
    · cases hu
  unfold Ty.elem? at hu
  split at hu
  · exact htuple h hu
  · refine hQ.unionOf? (fun a ha => ?_) hu
    obtain ⟨alt, halt, ha⟩ := List.mem_filterMap.1 ha
    split at ha
    · exact htuple (hQ.alternatives h _ halt) ha
    · cases ha
  · cases hu

theorem field? (h : Q t) {name : String} (hu : t.field? name = some u) : Q u := by
  have hrecord : ∀ {fs : List (String × Ty)} {row : Option TyVar} {u : Ty},
      Q (.record fs row) → Table.get? name fs = some u → Q u :=
    fun h hu => hQ.fields h _ (Table.mem_of_get? hu)
  unfold Ty.field? at hu
  split at hu
  · exact hrecord h hu
  · obtain ⟨us, hus, hu⟩ := Option.bind_eq_some_iff.1 hu
    refine hQ.unionOf? (fun a ha => ?_) hu
    obtain ⟨alt, halt, ha⟩ := exists_of_mem_mapM hus ha
    split at ha
    · exact hrecord (hQ.alternatives h _ halt) ha
    · cases ha
  · cases hu

mutual

theorem refineInto : ∀ {p : Pattern} {o : Option Ty} {found : Table String Ty},
    (∀ t, o = some t → Q t) → (∀ entry ∈ found, Q entry.2) →
    ∀ entry ∈ Pattern.refineInto p o found, Q entry.2
  | _, none, _, _, hfound => by
      rw [Pattern.refineInto]
      exact hfound
  | .var _ name, some t, found, ho, hfound => by
      have ht := hQ.unfoldOnce (ho t rfl)
      rw [Pattern.refineInto]
      split
      · exact hfound
      · intro entry hentry
        rcases Table.mem_insert hentry with rfl | hentry
        · exact ht
        · exact hfound entry hentry
  | .tuple span ps, some t, found, ho, hfound => by
      rw [Pattern.refineInto]
      exact refineElems (hQ.narrow (hQ.unfoldOnce (ho t rfl)) _) hfound
  | .record span fs, some t, found, ho, hfound => by
      rw [Pattern.refineInto]
      exact refineFields (hQ.narrow (hQ.unfoldOnce (ho t rfl)) _) hfound
  | .missing, some _, _, _, hfound | .literal .., some _, _, _, hfound
  | .wildcard _, some _, _, _, hfound => by
      simpa only [Pattern.refineInto] using hfound

theorem refineElems : ∀ {ps : List Pattern} {t : Ty} {i length : Nat} {found : Table String Ty},
    Q t → (∀ entry ∈ found, Q entry.2) →
    ∀ entry ∈ Pattern.refineElems ps t i length found, Q entry.2
  | [], _, _, _, _, _, hfound => by
      rw [Pattern.refineElems]
      exact hfound
  | _ :: _, _, _, _, _, ht, hfound => by
      rw [Pattern.refineElems]
      exact refineElems ht (refineInto (fun _ hu => hQ.elem? ht hu) hfound)

theorem refineFields : ∀ {fs : List (String × Pattern)} {t : Ty} {found : Table String Ty},
    Q t → (∀ entry ∈ found, Q entry.2) →
    ∀ entry ∈ Pattern.refineFields fs t found, Q entry.2
  | [], _, _, _, hfound => by
      rw [Pattern.refineFields]
      exact hfound
  | (_, _) :: _, _, _, ht, hfound => by
      rw [Pattern.refineFields]
      exact refineFields ht (refineInto (fun _ hu => hQ.field? ht hu) hfound)

end

/-- The property is one of the types that a pattern gives to names. -/
theorem refine (h : Q t) (p : Pattern) : ∀ entry ∈ p.refine t, Q entry.2 :=
  hQ.refineInto (by rintro _ ⟨⟩; exact h) (by simp)

end Inherited

end Ty

end RowTypes
