import RowTypes.Coverage.Ending
import RowTypes.Proofs.FormedTypes
import RowTypes.Proofs.MustBuild

/-!
# Analysing a match ends

Whether a pattern could match a value of a type is asked of the type's heads, and to come to a head
recursive types are unfolded, which uses up nothing of the pattern.  Nothing bounds that search; it
ends only if each unfolding brings the head closer.

If unfolding brings the heads of a type closer, and of whatever refining the type comes to, then the
search ends, and so does all of the analysis, with the answers that it gives where it is not followed
step by step.  Where a recursive type has its own binder at the head, the search never ends.

Listing the values of a type keeps account of the binders that are being unfolded, and ends for
every type.
-/

namespace RowTypes

open Ty

/-! ## Coming to an answer -/

section ComesTo

variable {α β : Type} {f f' : Nat → Option α} {a : α} {b : β}

theorem comesTo_some (a : α) : ComesTo (fun _ => some a) a := ⟨0, fun _ _ => rfl⟩

theorem ComesTo.bind {g : Nat → α → Option β} (h : ComesTo f a) (hg : ComesTo (g · a) b) :
    ComesTo (fun n => f n >>= g n) b := by
  obtain ⟨N, hN⟩ := h
  obtain ⟨M, hM⟩ := hg
  refine ⟨max N M, fun n hn => ?_⟩
  dsimp only
  rw [hN n (by omega)]
  exact hM n (by omega)

/-- One call more. -/
theorem ComesTo.call (h : ComesTo f a) (hf : ∀ n, f' (n + 1) = f n) : ComesTo f' a := by
  obtain ⟨N, hN⟩ := h
  refine ⟨N + 1, fun n hn => ?_⟩
  obtain ⟨m, rfl⟩ : ∃ m, n = m + 1 := ⟨n - 1, by omega⟩
  rw [hf, hN m (by omega)]

variable {l : List α} {g : Nat → α → Option β} {ans : α → β}

/-- There is one limit that is high enough for all of a list. -/
theorem ComesTo.forall (h : ∀ x ∈ l, ComesTo (g · x) (ans x)) :
    ∃ N, ∀ n, N ≤ n → ∀ x ∈ l, g n x = some (ans x) := by
  induction l with
  | nil => exact ⟨0, by simp⟩
  | cons x l ih =>
      obtain ⟨hx, hl⟩ := List.forall_mem_cons.1 h
      obtain ⟨N, hN⟩ := hx
      obtain ⟨M, hM⟩ := ih hl
      refine ⟨max N M, fun n hn => List.forall_mem_cons.2 ⟨hN n (by omega), hM n (by omega)⟩⟩

theorem mapM_eq {f : α → Option β} (h : ∀ x ∈ l, f x = some (ans x)) :
    l.mapM f = some (l.map ans) := by
  induction l with
  | nil => rfl
  | cons x l ih =>
      obtain ⟨hx, hl⟩ := List.forall_mem_cons.1 h
      rw [List.mapM_cons, hx, ih hl]
      rfl

theorem comesTo_mapM (h : ∀ x ∈ l, ComesTo (g · x) (ans x)) :
    ComesTo (fun n => l.mapM (g n)) (l.map ans) :=
  (ComesTo.forall h).imp fun _ hN n hn => mapM_eq (hN n hn)

variable {q : Nat → α → Option Bool} {p : α → Bool}

theorem comesTo_allM (h : ∀ x ∈ l, ComesTo (q · x) (p x)) :
    ComesTo (fun n => l.allM (q n)) (l.all p) :=
  (ComesTo.forall h).imp fun _ hN n hn => Must.allM_eq (hN n hn)

theorem anyM_eq {f : α → Option Bool} (h : ∀ x ∈ l, f x = some (p x)) :
    l.anyM f = some (l.any p) := by
  induction l with
  | nil => rfl
  | cons x l ih =>
      obtain ⟨hx, hl⟩ := List.forall_mem_cons.1 h
      rw [List.anyM, hx, ih hl, List.any_cons]
      cases p x <;> rfl

theorem comesTo_anyM (h : ∀ x ∈ l, ComesTo (q · x) (p x)) :
    ComesTo (fun n => l.anyM (q n)) (l.any p) :=
  (ComesTo.forall h).imp fun _ hN n hn => anyM_eq (hN n hn)

end ComesTo

/-! ## The search for heads -/

namespace Pattern

/-- Whether a pattern that is not irrefutable could match some value of a type that is its own
head. -/
def fitsHead : Pattern → Ty → Bool
  | _, .var _ => true
  | .literal _ kind value, t => literalFits kind value t
  | .tuple _ ps, .tuple ts => compatibleAll ps ts
  | .record _ fs, .record ts row => compatibleFields fs ts row.isSome
  | _, _ => false

theorem compatible_eq_anyHead {p : Pattern} (h : p.isIrrefutable = false) (t : Ty) :
    p.compatible t = t.anyHead p.fitsHead := by
  have hfits : ∀ {q : Ty → Bool}, (∀ t, q t = p.fitsHead t) → t.anyHead q = t.anyHead p.fitsHead :=
    fun hq => congrArg t.anyHead (funext hq)
  cases p with
  | var _ _ | wildcard _ => cases h
  | missing => rw [compatible]; exact hfits fun t => by cases t <;> rfl
  | literal _ _ _ => rw [compatible]; exact hfits fun t => by cases t <;> rfl
  | tuple _ _ => rw [compatible]; exact hfits fun t => by cases t <;> rfl
  | record _ _ => rw [compatible]; exact hfits fun t => by cases t <;> rfl

theorem comesTo_of_isIrrefutable {p : Pattern} (h : p.isIrrefutable = true) (t : Ty) :
    ComesTo (compatibleWithin · p t) true := by
  refine ⟨1, fun n hn => ?_⟩
  obtain ⟨n, rfl⟩ : ∃ m, n = m + 1 := ⟨n - 1, by omega⟩
  exact if_pos h

section Search

variable {p : Pattern} (hp : p.isIrrefutable = false)

include hp

theorem compatibleWithin_mu (n : Nat) (v : TyVar) (t : Ty) :
    compatibleWithin (n + 1) p (.mu v t) = compatibleWithin n p (.unfold v t) := by
  rw [compatibleWithin, if_neg (hp ▸ Bool.false_ne_true)]

theorem compatibleWithin_union (n : Nat) (ts : List Ty) :
    compatibleWithin (n + 1) p (.union ts) = ts.anyM (compatibleWithin n p) := by
  rw [compatibleWithin, if_neg (hp ▸ Bool.false_ne_true)]

/-- The search never ends at a recursive type that is its own head. -/
theorem compatibleWithin_knot (v : TyVar) : ∀ n : Nat,
    compatibleWithin n p (.mu v (.var v)) = none
  | 0 => rfl
  | n + 1 => by
      have hunfold : Ty.unfold v (.var v) = .mu v (.var v) := by
        rw [Ty.unfold, Subst.apply_var, Subst.get?_single, if_pos rfl,
          Subst.held_of_ne fun _ h => by cases h]
        rfl
      rw [compatibleWithin_mu hp, hunfold]
      exact compatibleWithin_knot v n

end Search

end Pattern

/-! ### Where unfolding brings heads closer -/

namespace Ty

/-- Refining passes the property on, and with it unfolding brings heads closer. -/
structure Productive (Q : Ty → Prop) : Prop extends Inherited Q where
  lowers : ∀ {v t}, Q (.mu v t) → (Ty.unfold v t).tower ≤ t.tower

end Ty

namespace Pattern

variable {Q : Ty → Prop}

/-- The search ends if it ends at heads. -/
theorem comesTo_anyHead (hQ : Productive Q) {p : Pattern} (hp : p.isIrrefutable = false)
    (hheads : ∀ t, Q t →
      ComesTo (fun n => fitsHeadWith (compatibleWithin n) p t) (p.fitsHead t))
    {t : Ty} (h : Q t) : ComesTo (compatibleWithin · p t) (t.anyHead p.fitsHead) := by
  induction htower : t.tower using Nat.strong_induction_on generalizing t with
  | _ k ih =>
    subst htower
    have hhead : (∀ n, compatibleWithin (n + 1) p t = fitsHeadWith (compatibleWithin n) p t) →
        t.anyHead p.fitsHead = p.fitsHead t →
        ComesTo (compatibleWithin · p t) (t.anyHead p.fitsHead) :=
      fun hsearch hmodel => hmodel ▸ (hheads t h).call hsearch
    cases t with
    | union ts =>
        rw [anyHead_union]
        exact ComesTo.call (comesTo_anyM fun t ht =>
          ih _ (tower_lt_of (k := .union) ht) (hQ.alternatives h t ht) rfl) fun n =>
            compatibleWithin_union hp n ts
    | mu v t =>
        rw [anyHead_mu]
        exact ComesTo.call (ih _ (Nat.lt_succ_of_le (hQ.lowers h)) (hQ.unfold h) rfl) fun n =>
          compatibleWithin_mu hp n v t
    | _ => exact hhead (fun n => if_neg (hp ▸ Bool.false_ne_true)) (anyHead_of_shows nofun nofun)

theorem compatibleAll_eq : ∀ (ps : List Pattern) (ts : List Ty),
    compatibleAll ps ts =
      (ps.length == ts.length && (ps.zip ts).all fun e => e.1.compatible e.2)
  | [], [] => by rw [compatibleAll]; rfl
  | [], _ :: _ | _ :: _, [] => by rw [compatibleAll] <;> simp
  | p :: ps, t :: ts => by
      have hlen : ((p :: ps).length == (t :: ts).length) = (ps.length == ts.length) := by simp
      rw [compatibleAll, compatibleAll_eq ps ts, List.zip_cons_cons, List.all_cons, hlen]
      exact Bool.and_left_comm _ _ _

theorem compatibleFields_eq_all (ts : List (String × Ty)) (isOpen : Bool) :
    ∀ fs : List (String × Pattern), compatibleFields fs ts isOpen = fs.all fun f =>
      match Table.get? f.1 ts with
      | some t => f.2.compatible t
      | none => isOpen
  | [] => rfl
  | (name, p) :: fs => by
      rw [compatibleFields, compatibleFields_eq_all ts isOpen fs]
      rfl

mutual

/-- Asking whether a pattern could match some value of a type ends. -/
theorem comesTo_compatible (hQ : Productive Q) : ∀ {p : Pattern} {t : Ty}, Q t →
    ComesTo (compatibleWithin · p t) (p.compatible t)
  | .var .., t, _ | .wildcard _, t, _ => by
      rw [compatible]
      exact comesTo_of_isIrrefutable rfl t
  | .missing, t, h => by
      rw [compatible_eq_anyHead rfl]
      exact comesTo_anyHead hQ rfl (fun t _ => by cases t <;> exact comesTo_some _) h
  | .literal _ kind value, t, h => by
      rw [compatible_eq_anyHead rfl]
      exact comesTo_anyHead hQ rfl (fun t _ => by cases t <;> exact comesTo_some _) h
  | .tuple _ ps, t, h => by
      rw [compatible_eq_anyHead rfl]
      refine comesTo_anyHead hQ rfl (fun t h => ?_) h
      cases t with
      | tuple ts =>
          show ComesTo (fun n => if ps.length = ts.length then _ else _) (compatibleAll ps ts)
          rw [compatibleAll_eq]
          by_cases hlen : ps.length = ts.length
          · simp only [if_pos hlen, beq_iff_eq.2 hlen, Bool.true_and]
            exact comesTo_allM fun e he =>
              comesTo_compatibleAll hQ ps _ (List.of_mem_zip he).1 _
                (hQ.elems h _ (List.of_mem_zip he).2)
          · simp only [if_neg hlen, beq_false_of_ne hlen, Bool.false_and]
            exact comesTo_some false
      | _ => exact comesTo_some _
  | .record _ fs, t, h => by
      rw [compatible_eq_anyHead rfl]
      refine comesTo_anyHead hQ rfl (fun t h => ?_) h
      cases t with
      | record ts row =>
          show ComesTo (fun n => fs.allM _) (compatibleFields fs ts row.isSome)
          rw [compatibleFields_eq_all]
          refine comesTo_allM fun f hf => ?_
          cases ht : Table.get? f.1 ts with
          | none => exact comesTo_some _
          | some t =>
              exact comesTo_compatibleFields hQ fs f hf t (hQ.fields h _ (Table.mem_of_get? ht))
      | _ => exact comesTo_some _

theorem comesTo_compatibleAll (hQ : Productive Q) : ∀ (ps : List Pattern), ∀ p ∈ ps,
    ∀ t, Q t → ComesTo (compatibleWithin · p t) (p.compatible t)
  | [] => List.forall_mem_nil _
  | _ :: ps =>
      List.forall_mem_cons.2 ⟨fun _ h => comesTo_compatible hQ h, comesTo_compatibleAll hQ ps⟩

theorem comesTo_compatibleFields (hQ : Productive Q) : ∀ (fs : List (String × Pattern)),
    ∀ f ∈ fs, ∀ t, Q t → ComesTo (compatibleWithin · f.2 t) (f.2.compatible t)
  | [] => List.forall_mem_nil _
  | (_, _) :: fs =>
      List.forall_mem_cons.2 ⟨fun _ h => comesTo_compatible hQ h, comesTo_compatibleFields hQ fs⟩

end

end Pattern

/-! ## Narrowing and refining -/

section Refine

variable {Q : Ty → Prop}

theorem Ty.comesTo_narrow (hQ : Productive Q) {t : Ty} (h : Q t) (p : Pattern) :
    ComesTo (fun n => t.narrowWithin n p) (t.narrow p) := by
  have hunfolded := hQ.unfoldOnce h
  unfold narrowWithin narrow
  cases hshape : t.unfoldOnce with
  | union ts =>
      rw [hshape] at hunfolded
      have hfilter : ComesTo (fun n => ts.filterM (p.compatibleWithin n))
          (ts.filter fun t => p.compatible t) :=
        (ComesTo.forall fun t ht =>
          Pattern.comesTo_compatible hQ (hQ.alternatives hunfolded t ht)).imp
            fun _ hN n hn => Must.filterM_eq (hN n hn)
      refine hfilter.bind ?_
      dsimp only
      cases ts.filter fun t => p.compatible t <;> exact comesTo_some _
  | _ => exact comesTo_some _

namespace Pattern

mutual

theorem comesTo_refineInto (hQ : Productive Q) : ∀ {p : Pattern} {o : Option Ty}
    {found : Table String Ty}, (∀ t, o = some t → Q t) →
    ComesTo (fun n => refineIntoWithin n p o found) (refineInto p o found)
  | _, none, _, _ => by
      simp only [refineIntoWithin, refineInto]
      exact comesTo_some _
  | .var _ name, some t, found, _ => by
      simp only [refineIntoWithin, refineInto]
      cases t.unfoldOnce <;> exact comesTo_some _
  | .tuple span ps, some t, found, ho => by
      simp only [refineIntoWithin, refineInto]
      have hunfolded := hQ.unfoldOnce (ho t rfl)
      exact comesTo_refineElems hQ (hQ.narrow hunfolded _) (comesTo_narrow hQ hunfolded _)
  | .record span fs, some t, found, ho => by
      simp only [refineIntoWithin, refineInto]
      have hunfolded := hQ.unfoldOnce (ho t rfl)
      exact (comesTo_narrow hQ hunfolded _).bind
        (comesTo_refineFields hQ (hQ.narrow hunfolded _))
  | .missing, some _, _, _ | .literal .., some _, _, _ | .wildcard _, some _, _, _ => by
      simp only [refineIntoWithin, refineInto]
      exact comesTo_some _

theorem comesTo_refineElems (hQ : Productive Q) : ∀ {ps : List Pattern} {t : Ty}
    {narrowed : Nat → Option Ty} {i length : Nat} {found : Table String Ty}, Q t →
    ComesTo narrowed t →
    ComesTo (fun n => refineElemsWithin n ps (narrowed n) i length found)
      (refineElems ps t i length found)
  | [], _, _, _, _, _, _, _ => by
      simp only [refineElemsWithin, refineElems]
      exact comesTo_some _
  | _ :: _, _, _, _, _, _, h, hnarrowed => by
      simp only [refineElemsWithin, refineElems]
      exact hnarrowed.bind ((comesTo_refineInto hQ fun _ hu => hQ.elem? h hu).bind
        (comesTo_refineElems hQ h hnarrowed))

theorem comesTo_refineFields (hQ : Productive Q) : ∀ {fs : List (String × Pattern)} {t : Ty}
    {found : Table String Ty}, Q t →
    ComesTo (fun n => refineFieldsWithin n fs t found) (refineFields fs t found)
  | [], _, _, _ => by
      simp only [refineFieldsWithin, refineFields]
      exact comesTo_some _
  | (_, _) :: _, _, _, h => by
      simp only [refineFieldsWithin, refineFields]
      exact (comesTo_refineInto hQ fun _ hu => hQ.field? h hu).bind (comesTo_refineFields hQ h)

end

theorem comesTo_refine (hQ : Productive Q) {t : Ty} (h : Q t) (p : Pattern) :
    ComesTo (fun n => refineWithin n t p) (p.refine t) :=
  comesTo_refineInto hQ (by rintro _ ⟨⟩; exact h)

end Pattern

end Refine

/-! ## Listing values -/

namespace Space

/-- The spaces of a type, where some binders are being unfolded, with so many calls below each
other that unfold one. -/
def listWithin : Nat → List Int → Ty → OptionT Option (List Space)
  | 0, _, _ => .mk none
  | n + 1, unfolding, t =>
    Must.enumerateWith (fun v body =>
      if v.id ∈ unfolding then pure [.anything]
      else listWithin n (v.id :: unfolding) (.unfold v body)) t

/-- How many of some binders are not being unfolded. -/
def remaining (binders unfolding : List Int) : Nat := (binders.filter (· ∉ unfolding)).length

theorem remaining_cons_lt {binders unfolding : List Int} {id : Int} (hid : id ∈ binders)
    (hnew : id ∉ unfolding) :
    remaining binders (id :: unfolding) < remaining binders unfolding := by
  have hsplit : binders.filter (· ∉ id :: unfolding) =
      (binders.filter (· ∉ unfolding)).filter (· ≠ id) := by
    rw [List.filter_filter]
    exact List.filter_congr fun a _ => by simp [not_or]
  rw [remaining, remaining, hsplit, List.length_filter_lt_length_iff_exists]
  exact ⟨id, List.mem_filter.2 ⟨hid, by simpa using hnew⟩, by simp⟩

/-- Listing the values of a type ends: there is a binder less for each that is being unfolded. -/
theorem listWithin_eq {binders : List Int} : ∀ {k n : Nat} {unfolding : List Int} {t : Ty},
    t.Formed (fun v _ => v.id ∈ binders) (fun _ => True) → remaining binders unfolding ≤ k →
    remaining binders unfolding ≤ n →
    listWithin (n + 1) unfolding t = Must.listed (enumerateWithin k unfolding t) := by
  intro k n
  induction n generalizing k with
  | zero =>
      intro unfolding t h _ hn
      have hmem : ∀ v b, (Ty.mu v b).Formed (fun v _ => v.id ∈ binders) (fun _ => True) →
          v.id ∈ unfolding := fun v b h => by
        by_contra hnew
        have := remaining_cons_lt (formed_mu.1 h).1 hnew
        omega
      cases k with
      | zero => exact Must.enumerateWith_eq inherited_formed (fun v b h => if_pos (hmem v b h)) h
      | succ k =>
          refine Must.enumerateWith_eq inherited_formed (fun v b h => ?_) h
          rw [if_pos (hmem v b h), if_pos (hmem v b h)]
          rfl
  | succ n ih =>
      intro unfolding t h hk hn
      cases k with
      | zero =>
          refine Must.enumerateWith_eq inherited_formed (fun v b h => if_pos ?_) h
          by_contra hnew
          have := remaining_cons_lt (formed_mu.1 h).1 hnew
          omega
      | succ k =>
          refine Must.enumerateWith_eq inherited_formed (fun v b h => ?_) h
          by_cases hmem : v.id ∈ unfolding
          · rw [if_pos hmem, if_pos hmem]
            rfl
          · have := remaining_cons_lt (formed_mu.1 h).1 hmem
            rw [if_neg hmem, if_neg hmem]
            exact ih (inherited_formed.unfold h) (by omega) (by omega)

theorem listWithin_eq_spaces? {n : Nat} {t : Ty} (h : t.binders.length < n) :
    listWithin n [] t = Must.listed t.spaces? := by
  obtain ⟨n, rfl⟩ : ∃ m, n = m + 1 := ⟨n - 1, by omega⟩
  have hle : remaining t.binders [] ≤ t.binders.length := List.length_filter_le _ _
  exact listWithin_eq ((formed_binders t).mono (fun v b h => h.subset List.mem_cons_self)
    fun _ h => h) hle (by omega)

end Space

/-- The values of a type that no pattern matches, as far as they are listed. -/
def Pattern.uncoveredWithin (n : Nat) (t : Ty) (patterns : List Pattern) :
    OptionT Option (List String) :=
  if patterns.any isIrrefutable then pure []
  else do
    let spaces ← Space.listWithin n [] t
    return Text.Names.sorted ((spaces.filter fun s => !patterns.any (·.covers s)).map Space.render)

theorem Pattern.comesTo_uncovered? (t : Ty) (patterns : List Pattern) :
    ComesTo (fun n => (uncoveredWithin n t patterns).run) (uncovered? t patterns) := by
  refine ⟨t.binders.length + 1, fun n hn => ?_⟩
  unfold uncoveredWithin uncovered?
  dsimp only
  split
  · rfl
  · rw [Space.listWithin_eq_spaces? hn, Option.map_eq_bind]
    exact Must.listed_bind fun _ => rfl

/-! ## The whole analysis -/

namespace Analysis

/-- The analysis of a match, with so many calls below each other where it asks whether a pattern
could match and where it lists values. -/
def within (n : Nat) (t : Ty) (patterns : List Pattern) : Option Analysis := do
  let missing? ← (Pattern.uncoveredWithin n t patterns).run
  let refinements ← patterns.mapM (Pattern.refineWithin n t)
  return {
    missing?, refinements
    unreachable := Pattern.unreachable patterns
    contradictions := Pattern.contradictions patterns }

/-- Analysing a match on a type ends if unfolding brings heads closer. -/
theorem comesTo_ofMatch {Q : Ty → Prop} (hQ : Productive Q) {t : Ty} (h : Q t)
    (patterns : List Pattern) : ComesTo (fun n => within n t patterns) (ofMatch t patterns) :=
  (Pattern.comesTo_uncovered? t patterns).bind
    ((comesTo_mapM fun p _ => Pattern.comesTo_refine hQ h p).bind (comesTo_some _))

end Analysis

end RowTypes
