import Mathlib.Algebra.GroupWithZero.Nat
import RowTypes.Proofs.EndingAnalysis
import RowTypes.Proofs.Exhaustiveness

/-!
# Listing the values of a type

Unfolding a recursive type makes it larger, so what bounds the listing is not the type but the
binders that are not being unfolded yet: unfolding brings in none, and takes one away.  The listing
is therefore given the number of binders as a limit, and every larger limit gives the same answer
(`enumerateWithin_eq_spacesUnder`).  That leaves the equations of a listing without a limit: a
recursive type whose binder is being unfolded counts as anything, and any other one is unfolded.

Unions and products are collected part by part, left to right, and differ in how the numbers of
spaces add up.  What is said of both is said of a type that `Collects` parts.  A listing is given up
just in case the parts of some type that it meets come to more than `spaceLimit` spaces.
-/

namespace RowTypes

open Ty

/-! ## The limit on unfolding -/

namespace Space

/-- The spaces of a type, where some binders are being unfolded. -/
def spacesUnder (unfolding : List Int) (t : Ty) : Option (List Space) :=
  enumerateWithin t.binders.length unfolding t

theorem remaining_le (binders unfolding : List Int) :
    remaining binders unfolding ≤ binders.length := List.length_filter_le _ _

theorem formed_own_binders (t : Ty) : t.Formed (fun v _ => v.id ∈ t.binders) fun _ => True :=
  (formed_binders t).mono (fun _ _ h => h.subset List.mem_cons_self) fun _ h => h

variable {binders unfolding : List Int} {t : Ty}

/-- Every limit gives the same spaces that is not below the number of binders that may still be
unfolded. -/
theorem enumerateWithin_eq_spacesUnder (h : t.Formed (fun v _ => v.id ∈ binders) fun _ => True)
    {n : Nat} (hn : remaining binders unfolding ≤ n) :
    enumerateWithin n unfolding t = spacesUnder unfolding t := by
  have hown := remaining_le t.binders unfolding
  have hlist := listWithin_eq (n := max n t.binders.length) h hn (by omega)
  have hlist' := listWithin_eq (n := max n t.binders.length) (formed_own_binders t) hown (by omega)
  exact Option.some.inj (hlist.symm.trans hlist')

/-- What a recursive type counts as: anything inside its own unfolding, else its unfolding. -/
def ofUnfolding (unfolding : List Int) (v : TyVar) (b : Ty) : Option (List Space) :=
  if v.id ∈ unfolding then some [.anything] else spacesUnder (v.id :: unfolding) (.unfold v b)

theorem inherited_true : Inherited fun _ => True where
  fields _ _ _ := trivial
  elems _ _ _ := trivial
  alternatives _ _ _ := trivial
  unionOf _ _ := trivial
  unfold _ := trivial

/-- The listing has no limit of its own. -/
theorem spacesUnder_eq (unfolding : List Int) (t : Ty) :
    spacesUnder unfolding t = enumerateWith (ofUnfolding unfolding) t := by
  have hmu : ∀ v b, (Ty.mu v b).Formed (fun v _ => v.id ∈ t.binders) (fun _ => True) →
      ofMu t.binders.length unfolding v b = ofUnfolding unfolding v b := by
    intro v b h
    have hle := remaining_le t.binders unfolding
    by_cases hmem : v.id ∈ unfolding
    · cases hlen : t.binders.length with
      | zero => rw [ofMu, ofUnfolding, if_pos hmem]
      | succ n => rw [ofMu, ofUnfolding, if_pos hmem, if_pos hmem]
    · have hlt := remaining_cons_lt (formed_mu.1 h).1 hmem
      cases hlen : t.binders.length with
      | zero => omega
      | succ n =>
          rw [ofMu, ofUnfolding, if_neg hmem, if_neg hmem]
          exact enumerateWithin_eq_spacesUnder (inherited_formed.unfold h) (by omega)
  have hlist : Must.enumerateWith (fun v b => Must.listed (ofUnfolding unfolding v b)) t =
      Must.listed (enumerateWith (ofMu t.binders.length unfolding) t) :=
    Must.enumerateWith_eq inherited_formed (fun v b h => (congrArg Must.listed (hmu v b h)).symm)
      (formed_own_binders t)
  have hlist' : Must.enumerateWith (fun v b => Must.listed (ofUnfolding unfolding v b)) t =
      Must.listed (enumerateWith (ofUnfolding unfolding) t) :=
    Must.enumerateWith_eq inherited_true (fun _ _ _ => rfl) trivial
  rw [spacesUnder, enumerateWithin_eq]
  exact Option.some.inj (hlist.symm.trans hlist')

end Space

/-! ## Parts -/

/-- A type whose spaces are collected from those of its parts: those of a union are as many as those
of the parts together, and those of a tuple or a record as many as their product. -/
inductive Ty.Collects : Ty → List Ty → (List Nat → Nat) → Prop where
  | union (ts : List Ty) : Collects (.union ts) ts List.sum
  | tuple (ts : List Ty) : Collects (.tuple ts) ts List.prod
  | record (fs : List (String × Ty)) (row : Option TyVar) :
      Collects (.record fs row) (fs.map (·.2)) List.prod

namespace Space

/-- As many spaces as parts with these spaces come to. -/
def count (size : List Nat → Nat) (parts : List (List Space)) : Nat := size (parts.map List.length)

/-- At no point too many spaces are collected. -/
def Fits (size : List Nat → Nat) (parts : List (List Space)) : Prop :=
  ∀ front, front <+: parts → count size front ≤ spaceLimit

section Collecting

variable {onMu : TyVar → Ty → Option (List Space)}

/-- The parts have these spaces. -/
def Gathers (onMu : TyVar → Ty → Option (List Space)) (ts : List Ty)
    (parts : List (List Space)) : Prop :=
  List.Forall₂ (fun t part => enumerateWith onMu t = some part) ts parts

theorem Gathers.concat {ts : List Ty} {parts : List (List Space)} (h : Gathers onMu ts parts)
    {u : Ty} {part : List Space} (hu : enumerateWith onMu u = some part) :
    Gathers onMu (ts ++ [u]) (parts ++ [part]) := List.rel_append h (.cons hu .nil)

theorem Gathers.exists_part {ts : List Ty} {parts : List (List Space)} (h : Gathers onMu ts parts)
    {u : Ty} (hu : u ∈ ts) : ∃ part, enumerateWith onMu u = some part := by
  induction h with
  | nil => cases hu
  | cons hpart _ ih =>
      rcases List.mem_cons.1 hu with rfl | hu
      · exact ⟨_, hpart⟩
      · exact ih hu

theorem Gathers.isPrefix {before after : List Ty} {parts parts' : List (List Space)}
    (h : Gathers onMu before parts) (h' : Gathers onMu (before ++ after) parts') :
    parts <+: parts' := by
  induction h generalizing parts' with
  | nil => exact List.nil_prefix
  | cons hpart _ ih =>
      cases h' with
      | cons hpart' hrest' =>
          cases hpart.symm.trans hpart'
          exact (List.prefix_cons_inj _).2 (ih hrest')

theorem count_sum_le {front parts : List (List Space)} (h : front <+: parts) :
    count List.sum front ≤ count List.sum parts := by
  obtain ⟨back, rfl⟩ := h
  rw [count, count, List.map_append, List.sum_append]
  exact Nat.le_add_right _ _

theorem enumerateAlts_iff : ∀ {ts : List Ty} {ss : List Space}, enumerateAlts onMu ts = some ss ↔
    ∃ parts, Gathers onMu ts parts ∧ count List.sum parts ≤ spaceLimit ∧ ss = parts.flatten
  | [], ss => by
      rw [enumerateAlts, Option.some.injEq]
      constructor
      · rintro rfl
        exact ⟨[], .nil, Nat.zero_le _, rfl⟩
      · rintro ⟨parts, hparts, -, rfl⟩
        cases hparts
        rfl
  | t :: ts, ss => by
      rw [enumerateAlts]
      simp only [Option.bind_eq_bind, Option.bind_eq_some_iff]
      constructor
      · rintro ⟨here, hhere, rest, hrest, h⟩
        obtain ⟨parts, hparts, -, rfl⟩ := enumerateAlts_iff.1 hrest
        split at h
        · cases h
        · next hle =>
            cases h
            refine ⟨here :: parts, .cons hhere hparts, ?_, rfl⟩
            rw [List.length_append, List.length_flatten] at hle
            exact Nat.not_lt.1 hle
      · rintro ⟨parts, hparts, hle, rfl⟩
        cases hparts with
        | @cons _ here _ parts hhere hparts =>
            rw [count, List.map_cons, List.sum_cons] at hle
            refine ⟨here, hhere, parts.flatten,
              enumerateAlts_iff.2 ⟨parts, hparts, by rw [count]; omega, rfl⟩, ?_⟩
            rw [if_neg (by rw [List.length_append, List.length_flatten]; omega)]
            rfl

theorem extend?_iff {front : List (List Space)} {spaces : List Space} {n : Nat} :
    (∃ rows, extend? front spaces = some rows ∧ rows.length = n) ↔
      n = front.length * spaces.length ∧ n ≤ spaceLimit := by
  unfold extend?
  split
  · next hlt =>
      simp only [reduceCtorEq, false_and, exists_false, false_iff, not_and]
      omega
  · next hle =>
      simp only [Option.some.injEq, exists_eq_left', List.length_flatMap, List.length_map,
        List.map_const', List.sum_replicate_nat]
      omega

theorem productOf_iff : ∀ {ts : List Ty} {front : List (List Space)} {n : Nat},
    front.length ≤ spaceLimit → ((∃ rows, productOf onMu front ts = some rows ∧ rows.length = n) ↔
      ∃ parts, Gathers onMu ts parts ∧ n = front.length * count List.prod parts ∧
        ∀ pre, pre <+: parts → front.length * count List.prod pre ≤ spaceLimit)
  | [], front, n, hfront => by
      rw [productOf]
      constructor
      · rintro ⟨rows, hrows, rfl⟩
        cases hrows
        refine ⟨[], .nil, (Nat.mul_one _).symm, fun pre hpre => ?_⟩
        rw [List.prefix_nil.1 hpre]
        exact (Nat.mul_one _).trans_le hfront
      · rintro ⟨parts, hparts, rfl, -⟩
        cases hparts
        exact ⟨front, rfl, (Nat.mul_one _).symm⟩
  | t :: ts, front, n, hfront => by
      have hcons : ∀ (k : Nat) (part : List Space) (parts : List (List Space)),
          k * part.length * count List.prod parts = k * count List.prod (part :: parts) :=
        fun k part parts => Nat.mul_assoc _ _ _
      rw [productOf]
      simp only [Option.bind_eq_bind, Option.bind_eq_some_iff]
      constructor
      · rintro ⟨rows, ⟨here, hhere, front', hfront', hrows⟩, hn⟩
        obtain ⟨hlen, hle⟩ := extend?_iff.1 ⟨front', hfront', rfl⟩
        obtain ⟨parts, hparts, hn, hfits⟩ := (productOf_iff hle).1 ⟨rows, hrows, hn⟩
        rw [hlen] at hn hfits
        refine ⟨here :: parts, .cons hhere hparts, hn.trans (hcons _ _ _), fun pre hpre => ?_⟩
        rcases List.prefix_cons_iff.1 hpre with rfl | ⟨pre', rfl, hpre'⟩
        · exact (Nat.mul_one _).trans_le hfront
        · exact (hcons _ _ _).symm.trans_le (hfits pre' hpre')
      · rintro ⟨parts, hparts, hn, hfits⟩
        cases hparts with
        | @cons _ here _ parts hhere hparts =>
            have hle := hfits [here] (List.prefix_append [here] parts)
            rw [← hcons, count, List.map_nil, List.prod_nil, Nat.mul_one] at hle
            obtain ⟨front', hfront', hlen⟩ := extend?_iff.2 ⟨rfl, hle⟩
            obtain ⟨rows, hrows, hn'⟩ := (productOf_iff (n := n) (hlen.trans_le hle)).2
              ⟨parts, hparts, by rw [hn, hlen, hcons], fun pre hpre => by
                rw [hlen, hcons]
                exact hfits _ (List.prefix_cons_inj here |>.2 hpre)⟩
            exact ⟨rows, ⟨here, hhere, front', hfront', hrows⟩, hn'⟩

/-- What is collected from parts is there if at no point there is too much of it. -/
theorem enumerateWith_iff {t : Ty} {ts : List Ty} {size : List Nat → Nat}
    (h : t.Collects ts size) {n : Nat} :
    (∃ ss, enumerateWith onMu t = some ss ∧ ss.length = n) ↔
      ∃ parts, Gathers onMu ts parts ∧ Fits size parts ∧ n = count size parts := by
  have hproduct : ∀ {ts : List Ty} {make : List Space → Space},
      (∃ ss, (productOf onMu [[]] ts).map (List.map make) = some ss ∧ ss.length = n) ↔
        ∃ parts, Gathers onMu ts parts ∧ Fits List.prod parts ∧ n = count List.prod parts := by
    intro ts make
    have hrows : (∃ rows, productOf onMu [[]] ts = some rows ∧ rows.length = n) ↔
        ∃ parts, Gathers onMu ts parts ∧ n = 1 * count List.prod parts ∧
          ∀ pre, pre <+: parts → 1 * count List.prod pre ≤ spaceLimit := productOf_iff (by decide)
    simp only [Nat.one_mul] at hrows
    have hmap : (∃ ss, (productOf onMu [[]] ts).map (List.map make) = some ss ∧ ss.length = n) ↔
        ∃ rows, productOf onMu [[]] ts = some rows ∧ rows.length = n := by
      cases productOf onMu [[]] ts <;> simp
    rw [hmap, hrows]
    exact exists_congr fun parts => and_congr_right fun _ => and_comm
  cases h with
  | union ts =>
      simp only [enumerateWith, enumerateAlts_iff]
      constructor
      · rintro ⟨ss, ⟨parts, hparts, hle, rfl⟩, rfl⟩
        exact ⟨parts, hparts, fun front hfront => (count_sum_le hfront).trans hle,
          List.length_flatten⟩
      · rintro ⟨parts, hparts, hfits, rfl⟩
        exact ⟨_, ⟨parts, hparts, hfits parts List.prefix_rfl, rfl⟩, List.length_flatten⟩
  | tuple ts => simpa only [enumerateWith] using hproduct
  | record fs row => simpa only [enumerateWith, productOfFields_eq] using hproduct

/-- Either everything is collected, or there is a first part that has no spaces or too many. -/
theorem exists_first_failure {size : List Nat → Nat} (hnil : size [] ≤ spaceLimit) (ts : List Ty) :
    (∃ parts, Gathers onMu ts parts ∧ Fits size parts) ∨
      ∃ before u after parts, ts = before ++ u :: after ∧ Gathers onMu before parts ∧
        Fits size parts ∧
        ∀ part, enumerateWith onMu u = some part → spaceLimit < count size (parts ++ [part]) := by
  induction ts using List.reverseRecOn with
  | nil =>
      refine .inl ⟨[], .nil, fun front hfront => ?_⟩
      rw [List.prefix_nil.1 hfront]
      exact hnil
  | append_singleton ts u ih =>
      obtain ⟨parts, hparts, hfits⟩ | ⟨before, w, after, parts, rfl, hparts, hfits, hfails⟩ := ih
      · by_cases hnext : ∃ part, enumerateWith onMu u = some part ∧
            count size (parts ++ [part]) ≤ spaceLimit
        · obtain ⟨part, hpart, hle⟩ := hnext
          refine .inl ⟨parts ++ [part], hparts.concat hpart, fun front hfront => ?_⟩
          rcases List.prefix_concat_iff.1 hfront with rfl | hfront
          · exact hle
          · exact hfits front hfront
        · refine .inr ⟨ts, u, [], parts, rfl, hparts, hfits, fun part hpart => ?_⟩
          exact Nat.not_le.1 fun hle => hnext ⟨part, hpart, hle⟩
      · exact .inr ⟨before, w, after ++ [u], parts, by simp, hparts, hfits, hfails⟩

end Collecting

/-! ## At most so many -/

theorem length_enumerateWith_le {onMu : TyVar → Ty → Option (List Space)}
    (hmu : ∀ v b ss, onMu v b = some ss → ss.length ≤ spaceLimit) {t : Ty} {ss : List Space}
    (h : enumerateWith onMu t = some ss) : ss.length ≤ spaceLimit := by
  have hparts : ∀ {ts : List Ty} {size : List Nat → Nat}, t.Collects ts size →
      ss.length ≤ spaceLimit := by
    intro ts size hcollects
    obtain ⟨parts, -, hfits, hlen⟩ := (enumerateWith_iff hcollects).1 ⟨ss, h, rfl⟩
    exact hlen.trans_le (hfits parts List.prefix_rfl)
  cases t with
  | union ts => exact hparts (.union ts)
  | tuple ts => exact hparts (.tuple ts)
  | record fs row => exact hparts (.record fs row)
  | mu v b => exact hmu v b ss h
  | prim name =>
      cases h
      unfold ofPrimitive
      split
      · decide
      · split <;> decide
  | var | lit | fn | inter | named =>
      cases h
      exact (by decide : 1 ≤ spaceLimit)

theorem length_enumerateWithin_le : ∀ {n : Nat} {unfolding : List Int} {t : Ty} {ss : List Space},
    enumerateWithin n unfolding t = some ss → ss.length ≤ spaceLimit
  | 0, _, _, _, h => length_enumerateWith_le (fun _ _ _ h => by cases h; decide) h
  | n + 1, _, _, _, h => by
      refine length_enumerateWith_le (fun v b ss h => ?_) h
      split at h
      · cases h
        decide
      · exact length_enumerateWithin_le h

/-! ## What is given up -/

/-- A listing meets another type: a part, after those before it and before there is too much, or the
unfolding of a recursive type. -/
inductive Meets : List Int → Ty → List Int → Ty → Prop where
  | here (unfolding : List Int) (t : Ty) : Meets unfolding t unfolding t
  | part {unfolding unfolding' : List Int} {t u w : Ty} {before after : List Ty}
      {size : List Nat → Nat} {parts : List (List Space)} : t.Collects (before ++ u :: after) size →
      Gathers (ofUnfolding unfolding) before parts → Fits size parts →
      Meets unfolding u unfolding' w → Meets unfolding t unfolding' w
  | unfold {unfolding unfolding' : List Int} {v : TyVar} {b w : Ty} : v.id ∉ unfolding →
      Meets (v.id :: unfolding) (.unfold v b) unfolding' w → Meets unfolding (.mu v b) unfolding' w

/-- A union or a product of which there are too many spaces. -/
def Overflows (unfolding : List Int) (t : Ty) : Prop :=
  ∃ before after size parts, t.Collects (before ++ after) size ∧
    Gathers (ofUnfolding unfolding) before parts ∧ spaceLimit < count size parts

/-- The listing of a type meets a union or a product of which there are too many spaces. -/
def Exceeds (unfolding : List Int) (t : Ty) : Prop :=
  ∃ unfolding' u, Meets unfolding t unfolding' u ∧ Overflows unfolding' u

section GivenUp

variable {unfolding : List Int} {t : Ty}

theorem Exceeds.of_parts {ts : List Ty} {size : List Nat → Nat} (hcollects : t.Collects ts size)
    (hparts : ∀ u ∈ ts, spacesUnder unfolding u = none → Exceeds unfolding u)
    (h : spacesUnder unfolding t = none) : Exceeds unfolding t := by
  have hnil : size [] ≤ spaceLimit := by cases hcollects <;> decide
  obtain ⟨parts, hgathers, hfits⟩ | ⟨before, u, after, parts, rfl, hgathers, hfits, hfails⟩ :
      (∃ parts, Gathers (ofUnfolding unfolding) ts parts ∧ Fits size parts) ∨ _ :=
    exists_first_failure hnil ts
  · obtain ⟨ss, hss, -⟩ := (enumerateWith_iff hcollects).2 ⟨parts, hgathers, hfits, rfl⟩
    rw [spacesUnder_eq, hss] at h
    cases h
  · cases hu : enumerateWith (ofUnfolding unfolding) u with
    | none =>
        obtain ⟨unfolding', w, hmeets, hover⟩ :=
          hparts u (List.mem_append_cons_self) ((spacesUnder_eq unfolding u).trans hu)
        exact ⟨unfolding', w, .part hcollects hgathers hfits hmeets, hover⟩
    | some part =>
        refine ⟨unfolding, t, .here unfolding t, before ++ [u], after, size, parts ++ [part], ?_,
          hgathers.concat hu, hfails part hu⟩
        rwa [List.append_assoc]

mutual

/-- Inside a type no listing is given up for nothing, if none is at a recursive type. -/
theorem exceeds_of_parts {Q : Ty → Prop} (hQ : Inherited Q)
    (hmu : ∀ v b, Q (.mu v b) → v.id ∉ unfolding →
      spacesUnder (v.id :: unfolding) (.unfold v b) = none →
        Exceeds (v.id :: unfolding) (.unfold v b)) :
    ∀ {t : Ty}, Q t → spacesUnder unfolding t = none → Exceeds unfolding t
  | .union ts, ht, h =>
      .of_parts (.union ts) (exceeds_of_elems hQ hmu (hQ.alternatives ht)) h
  | .tuple ts, ht, h => .of_parts (.tuple ts) (exceeds_of_elems hQ hmu (hQ.elems ht)) h
  | .record fs row, ht, h =>
      .of_parts (.record fs row) (exceeds_of_fields hQ hmu (hQ.fields ht)) h
  | .mu v b, ht, h => by
      rw [spacesUnder_eq, enumerateWith, ofUnfolding] at h
      split at h
      · cases h
      · next hnew =>
          obtain ⟨unfolding', u, hmeets, hover⟩ := hmu v b ht hnew h
          exact ⟨unfolding', u, .unfold hnew hmeets, hover⟩
  | .prim _, _, h | .lit _, _, h | .var _, _, h | .fn _ _, _, h | .inter _, _, h
  | .named _ _, _, h => by
      rw [spacesUnder_eq, enumerateWith] at h
      · cases h
      all_goals nofun

theorem exceeds_of_elems {Q : Ty → Prop} (hQ : Inherited Q)
    (hmu : ∀ v b, Q (.mu v b) → v.id ∉ unfolding →
      spacesUnder (v.id :: unfolding) (.unfold v b) = none →
        Exceeds (v.id :: unfolding) (.unfold v b)) :
    ∀ {ts : List Ty}, (∀ t ∈ ts, Q t) →
      ∀ t ∈ ts, spacesUnder unfolding t = none → Exceeds unfolding t
  | [], _ => List.forall_mem_nil _
  | _ :: _, hts => List.forall_mem_cons.2 ⟨exceeds_of_parts hQ hmu (List.forall_mem_cons.1 hts).1,
      exceeds_of_elems hQ hmu (List.forall_mem_cons.1 hts).2⟩

theorem exceeds_of_fields {Q : Ty → Prop} (hQ : Inherited Q)
    (hmu : ∀ v b, Q (.mu v b) → v.id ∉ unfolding →
      spacesUnder (v.id :: unfolding) (.unfold v b) = none →
        Exceeds (v.id :: unfolding) (.unfold v b)) :
    ∀ {fs : List (String × Ty)}, (∀ f ∈ fs, Q f.2) →
      ∀ t ∈ fs.map (·.2), spacesUnder unfolding t = none → Exceeds unfolding t
  | [], _ => List.forall_mem_nil _
  | (_, _) :: _, hfs => List.forall_mem_cons.2
      ⟨exceeds_of_parts hQ hmu (List.forall_mem_cons.1 hfs).1,
        exceeds_of_fields hQ hmu (List.forall_mem_cons.1 hfs).2⟩

end

/-- A listing that is given up has met too many spaces. -/
theorem exceeds_of_none {binders : List Int} : ∀ {n : Nat} {unfolding : List Int} {t : Ty},
    t.Formed (fun v _ => v.id ∈ binders) (fun _ => True) → remaining binders unfolding ≤ n →
      spacesUnder unfolding t = none → Exceeds unfolding t := by
  intro n
  induction n with
  | zero =>
      intro unfolding t ht hle h
      refine exceeds_of_parts inherited_formed (fun v b hmu hnew _ => ?_) ht h
      have := remaining_cons_lt (formed_mu.1 hmu).1 hnew
      omega
  | succ n ih =>
      intro unfolding t ht hle h
      refine exceeds_of_parts inherited_formed (fun v b hmu hnew hnone => ?_) ht h
      have := remaining_cons_lt (formed_mu.1 hmu).1 hnew
      exact ih (inherited_formed.unfold hmu) (by omega) hnone

theorem Overflows.eq_none (h : Overflows unfolding t) : spacesUnder unfolding t = none := by
  obtain ⟨before, after, size, parts, hcollects, hgathers, hlt⟩ := h
  by_contra hsome
  obtain ⟨ss, hss⟩ := Option.ne_none_iff_exists'.1 hsome
  rw [spacesUnder_eq] at hss
  obtain ⟨parts', hgathers', hfits, -⟩ := (enumerateWith_iff hcollects).1 ⟨ss, hss, rfl⟩
  have := hfits parts (hgathers.isPrefix hgathers')
  omega

theorem Meets.eq_none {unfolding' : List Int} {u : Ty} (h : Meets unfolding t unfolding' u)
    (hu : spacesUnder unfolding' u = none) : spacesUnder unfolding t = none := by
  induction h with
  | here => exact hu
  | @part unfolding _ t u _ before after _ _ hcollects _ _ _ ih =>
      by_contra hsome
      obtain ⟨ss, hss⟩ := Option.ne_none_iff_exists'.1 hsome
      rw [spacesUnder_eq] at hss
      obtain ⟨parts', hgathers', -, -⟩ := (enumerateWith_iff hcollects).1 ⟨ss, hss, rfl⟩
      obtain ⟨part, hpart⟩ := hgathers'.exists_part List.mem_append_cons_self
      cases hpart.symm.trans ((spacesUnder_eq unfolding u).symm.trans (ih hu))
  | unfold hnew _ ih =>
      rw [spacesUnder_eq, enumerateWith, ofUnfolding, if_neg hnew]
      exact ih hu

end GivenUp

/-- Listing the values of a type ends.  What is listed are at most `spaceLimit` spaces, and each
value that the type allows is in one of them.  Nothing is listed just in case a union or a product
is met of which there are more spaces than that. -/
theorem listing_complete (t : Ty) :
    ComesTo (fun n => (listWithin n [] t).run) t.spaces? ∧
    (∀ ss, t.spaces? = some ss →
      ss.length ≤ spaceLimit ∧ ∀ v, t.Allows v → ∃ s ∈ ss, s.has v = true) ∧
    (t.spaces? = none ↔ ∃ unfolding u, Meets [] t unfolding u ∧ Overflows unfolding u) := by
  refine ⟨⟨t.binders.length + 1, fun n hn => congrArg OptionT.run (listWithin_eq_spaces? hn)⟩,
    fun ss h => ⟨length_enumerateWithin_le h, fun v hv => hv.exists_space h⟩, fun h => ?_, ?_⟩
  · exact exceeds_of_none (formed_own_binders t) (remaining_le t.binders []) h
  · rintro ⟨unfolding, u, hmeets, hover⟩
    exact hmeets.eq_none hover.eq_none

/-- A recursive type that comes back to itself at its head, and below a field. -/
def knottedList : Ty :=
  .mu ⟨1, 0⟩ (.union [.var ⟨1, 0⟩, .unit, .record [("head", .bool), ("tail", .var ⟨1, 0⟩)] none])

/-- A record of two fields, each of seventeen different strings. -/
def manyPairs : Ty :=
  let strings : Ty := .union ((List.range 17).map fun n => .lit n.repr)
  .record [("a", strings), ("b", strings)] none

/-- What is listed of it: the list itself, met again, then unit, and a record for each head. -/
def knottedSpaces : List Space := [.anything, .literal .unit "()",
  .record [("head", .literal .bool "true"), ("tail", .anything)],
  .record [("head", .literal .bool "false"), ("tail", .anything)]]

theorem listing_complete_knottedList :
    (knottedList.spaces? = some knottedSpaces ∧ ∃ s ∈ knottedSpaces,
      s.has (.record [("head", .const (.bool false)), ("tail", .const .unit)]) = true) ∧
    manyPairs.spaces? = none ∧
      ∃ unfolding u, Meets [] manyPairs unfolding u ∧ Overflows unfolding u := by
  have hunfold : Ty.unfold ⟨1, 0⟩ (.union [.var ⟨1, 0⟩, .unit,
      .record [("head", .bool), ("tail", .var ⟨1, 0⟩)] none]) = .union [knottedList, .unit,
        .record [("head", .bool), ("tail", knottedList)] none] := by cbv
  have hunit : knottedList.Allows (.const .unit) :=
    .mu (hunfold ▸ .union (t := .unit) (by simp) .unit)
  have hcons : knottedList.Allows
      (.record [("head", .const (.bool false)), ("tail", .const .unit)]) := by
    refine .mu (hunfold ▸ .union (List.mem_cons_of_mem _ (List.mem_cons_of_mem _
      List.mem_cons_self)) (.record (by decide) fun f hf v hv => ?_))
    rcases List.mem_cons.1 hf with rfl | hf
    · cases hv
      exact .bool false
    · cases List.mem_singleton.1 hf
      cases hv
      exact hunit
  have hlist : knottedList.spaces? = some knottedSpaces := by cbv
  have hmany : manyPairs.spaces? = none := by cbv
  exact ⟨⟨hlist, ((listing_complete knottedList).2.1 _ hlist).2 _ hcons⟩, hmany,
    (listing_complete manyPairs).2.2.1 hmany⟩

end Space

end RowTypes
