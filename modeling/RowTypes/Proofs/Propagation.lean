import Mathlib
import RowTypes.Proofs.ConstraintSets

/-!
# What follows from equalities

Propagation adds to a set of constraints what follows from each two of its equalities, pass after
pass, until a pass adds nothing.  An added equality has sides that were sides before, and no digest
is listed twice, so there are not more of them than pairs of sides: the passes come to an end, and
the limit on their number is never what ends them (`propagateWithin_of_le`).

Of the result it matters only that another pass adds nothing to it (`Settled`).  Then what follows
from two of its equalities is listed as well, or holds by its form, and so does what a chain of
equalities leads to.  Listed means that there is a constraint of that digest.  So this is so only
as long as digests tell pairs of sides apart, from each other and from the other constraints of the
set (`ToldApart`).
-/

namespace RowTypes

open Ty

/-- The constraint is an equality between two types, in either order. -/
def Constraint.Relates (c : Constraint) (a b : Ty) : Prop :=
  c.demand = .equal a b ∨ c.demand = .equal b a

/-- The digest of an equality between two types. -/
def equalityDigest (a b : Ty) : Digest := (Constraint.equal a b .inference {}).digest

namespace Constraint

variable {c d first second : Constraint} {a b : Ty}

theorem Relates.symm (h : c.Relates a b) : c.Relates b a := Or.symm h

theorem Relates.kind (h : c.Relates a b) : c.kind = .equality := by
  unfold Constraint.kind
  rcases h with h | h <;> rw [h] <;> rfl

theorem digest_of_demand (h : c.demand = .equal a b) : c.digest =
    .ofWords (.ofInt DemandKind.equality.number :: Digest.sorted [a.digest, b.digest]) := by
  simp [digest, Constraint.kind, h, Demand.kind, Demand.digestParts, Demand.isPlaced]

/-- The digest of an equality depends on its sides alone, and not on their order. -/
theorem Relates.digest_eq (h : c.Relates a b) : c.digest = equalityDigest a b := by
  rw [equalityDigest, digest_of_demand (c := .equal a b .inference {}) rfl]
  rcases h with h | h
  · exact digest_of_demand h
  · rw [digest_of_demand h, Digest.sorted_eq_iff.2 (.swap a.digest b.digest [])]

theorem equalityDigest_congr {a' b' : Ty} (ha : a.digest = a'.digest) (hb : b.digest = b'.digest) :
    equalityDigest a b = equalityDigest a' b' := by
  rw [equalityDigest, equalityDigest, digest_of_demand (c := .equal a b .inference {}) rfl,
    digest_of_demand (c := .equal a' b' .inference {}) rfl, ha, hb]

end Constraint

namespace ConstraintSet

variable {s t u : ConstraintSet} {c d : Constraint} {cs : List Constraint} {a b x y : Ty}

/-- An equality of the set is between the two types, in either order. -/
def Equates (s : ConstraintSet) (a b : Ty) : Prop := ∃ c ∈ s.items, c.Relates a b

/-- The type is a side of an equality of the set. -/
def HasSide (s : ConstraintSet) (a : Ty) : Prop := ∃ b, s.Equates a b

/-- A chain of equalities leads from one type to another.  Each equality goes on with a side that is
equivalent to the one that the equality before it ended with. -/
inductive Linked (s : ConstraintSet) : Ty → Ty → Prop
  | one {a b : Ty} : s.Equates a b → Linked s a b
  | next {a b c d : Ty} : Linked s a b → b.equiv c = true → s.Equates c d → Linked s a d

theorem Equates.symm (h : s.Equates a b) : s.Equates b a :=
  let ⟨c, hc, hab⟩ := h
  ⟨c, hc, hab.symm⟩

theorem Equates.left (h : s.Equates a b) : s.HasSide a := ⟨b, h⟩

theorem Equates.right (h : s.Equates a b) : s.HasSide b := ⟨a, h.symm⟩

theorem equates_of_mem (hc : c ∈ s.items) (h : c.Relates a b) : s.Equates a b := ⟨c, hc, h⟩

theorem mem_equalities_of_kind (hc : c ∈ s.items) (h : c.kind = .equality) : c ∈ s.equalities := by
  rw [equalities, ofKinds, items_filter, List.mem_filter]
  exact ⟨hc, by rw [h]; rfl⟩

theorem mem_equalities : c ∈ s.equalities ↔ c ∈ s.items ∧ ∃ a b, c.Relates a b := by
  constructor
  · intro h
    rw [equalities, ofKinds, items_filter, List.mem_filter] at h
    have hkind : c.demand.kind = .equality := List.mem_singleton.1 (List.contains_iff_mem.1 h.2)
    refine ⟨h.1, ?_⟩
    cases hd : c.demand with
    | equal a b => exact ⟨a, b, .inl hd⟩
    | _ => rw [hd] at hkind; cases hkind
  · rintro ⟨hc, a, b, h⟩
    exact mem_equalities_of_kind hc h.kind

/-! ## What a pass adds -/

/-- Two equalities have a consequence for each pair of equivalent sides, one of either. -/
theorem mem_consequences {first second : Constraint} : d ∈ consequences first second ↔
    ∃ x y u v, first.Relates x y ∧ second.Relates u v ∧ x.equiv u = true ∧
      d = { first with demand := .equal y v } := by
  have hlink : ∀ {a b c e : Ty}, d ∈ (if a.equiv b then
      [({ first with demand := .equal c e } : Constraint)] else []) ↔
        a.equiv b = true ∧ d = { first with demand := .equal c e } := by
    intro a b c e
    split
    · next h => simp [h]
    · next h => simp [h]
  have hsides : ∀ c : Constraint, (∃ a b, sides? c = some (a, b) ∧ c.demand = .equal a b) ∨
      sides? c = none ∧ ∀ a b, ¬ c.Relates a b := by
    intro c
    unfold sides?
    cases hd : c.demand with
    | equal a b => exact .inl ⟨a, b, rfl, rfl⟩
    | _ => exact .inr ⟨rfl, fun a b h => by rcases h with h | h <;> cases hd.symm.trans h⟩
  unfold consequences
  rcases hsides first with ⟨a, b, hfirst, hab⟩ | ⟨hfirst, hnot⟩
  · rcases hsides second with ⟨c, e, hsecond, hce⟩ | ⟨hsecond, hnot⟩
    · rw [hfirst, hsecond]
      simp only [List.mem_append, hlink, Constraint.Relates, hab, hce]
      constructor
      · rintro (((⟨h, rfl⟩ | ⟨h, rfl⟩) | ⟨h, rfl⟩) | ⟨h, rfl⟩)
        · exact ⟨a, b, c, e, .inl rfl, .inl rfl, h, rfl⟩
        · exact ⟨a, b, e, c, .inl rfl, .inr rfl, h, rfl⟩
        · exact ⟨b, a, c, e, .inr rfl, .inl rfl, h, rfl⟩
        · exact ⟨b, a, e, c, .inr rfl, .inr rfl, h, rfl⟩
      · rintro ⟨x, y, u, v, hxy | hxy, huv | huv, h, rfl⟩
        · cases hxy; cases huv; exact .inl (.inl (.inl ⟨h, rfl⟩))
        · cases hxy; cases huv; exact .inl (.inl (.inr ⟨h, rfl⟩))
        · cases hxy; cases huv; exact .inl (.inr ⟨h, rfl⟩)
        · cases hxy; cases huv; exact .inr ⟨h, rfl⟩
    · rw [hfirst, hsecond]
      refine ⟨fun h => absurd h List.not_mem_nil, ?_⟩
      rintro ⟨x, y, u, v, -, huv, -⟩
      exact absurd huv (hnot u v)
  · rw [hfirst]
    refine ⟨fun h => absurd h List.not_mem_nil, ?_⟩
    rintro ⟨x, y, u, v, hxy, -⟩
    exact absurd hxy (hnot x y)

/-- What follows from each two constraints of a list. -/
def derived : List Constraint → List Constraint
  | [] => []
  | first :: rest => rest.flatMap (consequences first) ++ derived rest

theorem mem_derived (h : d ∈ derived cs) :
    ∃ first ∈ cs, ∃ second ∈ cs, d ∈ consequences first second := by
  induction cs with
  | nil => cases h
  | cons first rest ih =>
      rw [derived, List.mem_append, List.mem_flatMap] at h
      rcases h with ⟨second, hsecond, hd⟩ | h
      · exact ⟨first, List.mem_cons_self, second, List.mem_cons_of_mem _ hsecond, hd⟩
      · obtain ⟨c, hc, c', hc', hd⟩ := ih h
        exact ⟨c, List.mem_cons_of_mem _ hc, c', List.mem_cons_of_mem _ hc', hd⟩

/-- Of two constraints, one comes first. -/
theorem consequences_subset_derived {c' : Constraint} (hc : c ∈ cs) (hc' : c' ∈ cs) (hne : c ≠ c') :
    consequences c c' ⊆ derived cs ∨ consequences c' c ⊆ derived cs := by
  induction cs with
  | nil => cases hc
  | cons first rest ih =>
      have hfirst : ∀ second ∈ rest, consequences first second ⊆ derived (first :: rest) :=
        fun second hsecond d hd =>
          List.mem_append_left _ (List.mem_flatMap.2 ⟨second, hsecond, hd⟩)
      have hrest : derived rest ⊆ derived (first :: rest) := List.subset_append_right _ _
      rcases List.mem_cons.1 hc with heq | hc
      · rcases List.mem_cons.1 hc' with heq' | hc'
        · exact absurd (heq.trans heq'.symm) hne
        · exact .inl (heq ▸ hfirst c' hc')
      · rcases List.mem_cons.1 hc' with heq' | hc'
        · exact .inr (heq' ▸ hfirst c hc)
        · exact (ih hc hc').imp (List.Subset.trans · hrest) (List.Subset.trans · hrest)

theorem pass_eq : ∀ (cs : List Constraint) (s : ConstraintSet),
    pass cs s = (derived cs).foldl addNew s
  | [], s => rfl
  | first :: rest, s => by
      rw [pass, pass_eq rest, derived, List.foldl_append, List.foldl_flatMap]

theorem mem_of_mem_firsts (h : c ∈ firsts cs) : c ∈ cs := by
  induction hlength : cs.length using Nat.strongRecOn generalizing cs with
  | ind n ih =>
    cases cs with
    | nil => cases h
    | cons d cs =>
        rw [firsts_cons] at h
        rcases List.mem_cons.1 h with rfl | h
        · exact List.mem_cons_self
        · refine List.mem_cons_of_mem _ (List.mem_of_mem_filter (ih _ ?_ h rfl))
          exact hlength ▸ Nat.lt_succ_of_le (List.length_filter_le _ cs)

theorem items_foldl_addNew (cs : List Constraint) (s : ConstraintSet) :
    (cs.foldl addNew s).items =
      s.items ++ firsts ((cs.filter fun c => !c.isTrivial).filter fun c => !s.contains c) := by
  rw [← items_foldl_add_firsts, List.foldl_filter]
  congr 2
  funext s c
  unfold addNew
  cases c.isTrivial <;> rfl

/-- Nothing is added just in case everything is there or holds by its form. -/
theorem foldl_addNew_eq_self : cs.foldl addNew s = s ↔
    ∀ c ∈ cs, c.isTrivial = true ∨ s.contains c = true := by
  have hnil : ∀ {l : List Constraint}, firsts l = [] ↔ l = [] := by
    intro l
    cases l with
    | nil => simp
    | cons c l => simp [firsts_cons]
  have hself : cs.foldl addNew s = s ↔ (cs.foldl addNew s).items = s.items :=
    ⟨fun h => by rw [h], eq_of_items⟩
  rw [hself, items_foldl_addNew, List.append_right_eq_self, hnil, List.filter_filter,
    List.filter_eq_nil_iff]
  refine forall₂_congr fun c _ => ?_
  cases c.isTrivial <;> cases s.contains c <;> simp

/-! ## What propagating keeps -/

/-- The second set goes on with equalities between sides of the first one. -/
def Grows (s t : ConstraintSet) : Prop := ∃ added, t.items = s.items ++ added ∧
  ∀ c ∈ added, ∃ a b, c.demand = .equal a b ∧ s.HasSide a ∧ s.HasSide b

theorem Grows.refl (s : ConstraintSet) : s.Grows s := ⟨[], by simp, by simp⟩

theorem Grows.subset (h : s.Grows t) (hc : c ∈ s.items) : c ∈ t.items := by
  obtain ⟨added, hitems, -⟩ := h
  exact hitems ▸ List.mem_append_left _ hc

theorem Grows.equates (h : s.Grows t) (hab : s.Equates a b) : t.Equates a b :=
  let ⟨c, hc, hrelates⟩ := hab
  ⟨c, h.subset hc, hrelates⟩

/-- No sides come up but those that were there. -/
theorem Grows.hasSide_iff (h : s.Grows t) : t.HasSide a ↔ s.HasSide a := by
  constructor
  · rintro ⟨b, c, hc, hab⟩
    obtain ⟨added, hitems, hadded⟩ := h
    rcases List.mem_append.1 (hitems ▸ hc) with hc | hc
    · exact ⟨b, c, hc, hab⟩
    · obtain ⟨a', b', hdemand, ha', hb'⟩ := hadded c hc
      rcases hab with hab | hab
      · cases hdemand.symm.trans hab
        exact ha'
      · cases hdemand.symm.trans hab
        exact hb'
  · rintro ⟨b, hab⟩
    exact ⟨b, h.equates hab⟩

theorem Grows.trans (h : s.Grows t) (h' : t.Grows u) : s.Grows u := by
  obtain ⟨added, hitems, hadded⟩ := h
  obtain ⟨added', hitems', hadded'⟩ := h'
  refine ⟨added ++ added', by rw [hitems', hitems, List.append_assoc], fun c hc => ?_⟩
  rcases List.mem_append.1 hc with hc | hc
  · exact hadded c hc
  · obtain ⟨a, b, hdemand, ha, hb⟩ := hadded' c hc
    have hside := fun {a : Ty} => Grows.hasSide_iff (a := a) ⟨added, hitems, hadded⟩
    exact ⟨a, b, hdemand, hside.1 ha, hside.1 hb⟩

theorem grows_pass (s : ConstraintSet) : s.Grows (pass s.equalities s) := by
  rw [pass_eq]
  refine ⟨_, items_foldl_addNew _ s, fun c hc => ?_⟩
  have hc := List.mem_of_mem_filter (List.mem_of_mem_filter (mem_of_mem_firsts hc))
  obtain ⟨first, hfirst, second, hsecond, hmem⟩ := mem_derived hc
  obtain ⟨x, y, u, v, hxy, huv, -, rfl⟩ := mem_consequences.1 hmem
  exact ⟨y, v, rfl, (equates_of_mem (mem_equalities.1 hfirst).1 hxy).right,
    (equates_of_mem (mem_equalities.1 hsecond).1 huv).right⟩

theorem grows_propagateWithin : ∀ (n : Nat) (s : ConstraintSet), s.Grows (propagateWithin n s)
  | 0, s => .refl s
  | n + 1, s => by
      rw [propagateWithin]
      split
      · exact .refl s
      · exact (grows_pass s).trans (grows_propagateWithin n _)

/-! ## The passes come to an end -/

/-- Another pass adds nothing. -/
def Settled (s : ConstraintSet) : Prop := pass s.equalities s = s

/-- The sides of the equalities of a set, with repetitions. -/
def sides (s : ConstraintSet) : List Ty :=
  s.equalities.flatMap fun c => ((sides? c).map fun p => [p.1, p.2]).getD []

theorem hasSide_iff_mem_sides : s.HasSide a ↔ a ∈ s.sides := by
  rw [sides, List.mem_flatMap]
  constructor
  · rintro ⟨b, c, hc, hab⟩
    refine ⟨c, mem_equalities.2 ⟨hc, a, b, hab⟩, ?_⟩
    unfold sides?
    rcases hab with hab | hab <;> rw [hab] <;> simp
  · rintro ⟨c, hc, ha⟩
    obtain ⟨hc, x, y, hxy⟩ := mem_equalities.1 hc
    unfold sides? at ha
    rcases hxy with hxy | hxy
    · rw [hxy] at ha
      rcases List.mem_pair.1 ha with rfl | rfl
      · exact ⟨y, c, hc, .inl hxy⟩
      · exact ⟨x, c, hc, .inr hxy⟩
    · rw [hxy] at ha
      rcases List.mem_pair.1 ha with rfl | rfl
      · exact ⟨x, c, hc, .inl hxy⟩
      · exact ⟨y, c, hc, .inr hxy⟩

theorem length_sides_le (s : ConstraintSet) : s.sides.length ≤ 2 * s.equalities.length := by
  rw [sides]
  induction s.equalities with
  | nil => simp
  | cons c cs ih =>
      rw [List.flatMap_cons, List.length_append, List.length_cons]
      have hc : (((sides? c).map fun p => [p.1, p.2]).getD []).length ≤ 2 := by
        cases sides? c <;> simp
      omega

/-- There are no more new equalities than pairs of sides. -/
theorem Grows.size_lt (h : s.Grows t) : t.size < s.size + s.passBound := by
  obtain ⟨added, hitems, hadded⟩ := h
  have hnodup : (added.map Constraint.digest).Nodup := by
    have := t.nodup_digests
    rw [hitems, List.map_append] at this
    exact (List.nodup_append.1 this).2.1
  have hsubset : added.map Constraint.digest ⊆ (s.sides ×ˢ s.sides).map fun p =>
      equalityDigest p.1 p.2 := by
    intro digest hdigest
    obtain ⟨c, hc, rfl⟩ := List.mem_map.1 hdigest
    obtain ⟨a, b, hdemand, ha, hb⟩ := hadded c hc
    refine List.mem_map.2 ⟨(a, b), List.mem_product.2
      ⟨hasSide_iff_mem_sides.1 ha, hasSide_iff_mem_sides.1 hb⟩, ?_⟩
    exact (Constraint.Relates.digest_eq (.inl hdemand)).symm
  have hlength := (hnodup.subperm hsubset).length_le
  rw [List.length_map, List.length_map, List.length_product] at hlength
  have hsquare := Nat.mul_le_mul s.length_sides_le s.length_sides_le
  rw [size, size, hitems, List.length_append, passBound]
  omega

theorem settled_of_size_eq (h : (pass s.equalities s).size = s.size) : s.Settled := by
  obtain ⟨added, hitems, -⟩ := grows_pass s
  refine eq_of_items ?_
  rw [size, size, hitems, List.length_append] at h
  have hnil : added = [] := List.length_eq_zero_iff.1 (by omega)
  rw [hitems, hnil, List.append_nil]

theorem size_le_size_pass (s : ConstraintSet) : s.size ≤ (pass s.equalities s).size := by
  obtain ⟨added, hitems, -⟩ := grows_pass s
  rw [size, size, hitems, List.length_append]
  omega

theorem propagateWithin_of_settled (h : s.Settled) : ∀ n, propagateWithin n s = s
  | 0 => rfl
  | n + 1 => by rw [propagateWithin, if_pos (by rw [h])]

/-- As long as passes go on, the set grows, and so they stop before the limit. -/
theorem settled_propagateWithin : ∀ {n : Nat} {t : ConstraintSet}, s.Grows t →
    s.size + s.passBound ≤ t.size + n → (propagateWithin n t).Settled
  | 0, t, hgrows, hn => absurd hgrows.size_lt (Nat.not_lt.2 hn)
  | n + 1, t, hgrows, hn => by
      rw [propagateWithin]
      split
      · next hsize => exact settled_of_size_eq hsize
      · next hsize =>
          have hle := t.size_le_size_pass
          exact settled_propagateWithin (hgrows.trans (grows_pass t)) (by omega)

theorem settled_propagate (s : ConstraintSet) : s.propagate.Settled :=
  settled_propagateWithin (.refl s) le_rfl

/-- A set that another pass adds nothing to is the same for any larger limit. -/
theorem propagateWithin_add : ∀ {n : Nat} {s : ConstraintSet}, (propagateWithin n s).Settled →
    ∀ m, propagateWithin (n + m) s = propagateWithin n s
  | 0, s, h, m => by
      rw [Nat.zero_add]
      exact propagateWithin_of_settled h m
  | n + 1, s, h, m => by
      rw [propagateWithin] at h
      rw [Nat.add_right_comm, propagateWithin, propagateWithin]
      split
      · rfl
      · next hsize =>
          rw [if_neg hsize] at h
          exact propagateWithin_add h m

/-- It is never the limit on the number of passes that ends them. -/
theorem propagateWithin_of_le {n : Nat} (hn : s.passBound ≤ n) :
    propagateWithin n s = s.propagate := by
  obtain ⟨m, rfl⟩ := Nat.exists_eq_add_of_le hn
  exact propagateWithin_add s.settled_propagate m

/-! ## What is listed follows -/

theorem Linked.hasSide (h : s.Linked a b) : s.HasSide a ∧ s.HasSide b := by
  induction h with
  | one hab => exact ⟨hab.left, hab.right⟩
  | next _ _ hcd ih => exact ⟨ih.1, hcd.right⟩

/-- What equalities and equivalence hand on, chains hand on. -/
theorem Linked.hands_on {P : Ty → Prop} (hequates : ∀ a b, s.Equates a b → P a → P b)
    (hequiv : ∀ a b, s.HasSide a → s.HasSide b → a.equiv b = true → P a → P b)
    (h : s.Linked a b) (ha : P a) : P b := by
  induction h with
  | one hab => exact hequates _ _ hab ha
  | @next b c d hab hbc hcd ih => exact hequates c d hcd (hequiv b c hab.hasSide.2 hcd.left hbc ih)

theorem Linked.trans (h : s.Linked a b) {c d : Ty} (hbc : b.equiv c = true) (h' : s.Linked c d) :
    s.Linked a d := by
  induction h' with
  | one hcd => exact .next h hbc hcd
  | next _ hequiv hcd ih => exact .next ih hequiv hcd

/-- Chains can be read backwards. -/
theorem Linked.symm (htame : ∀ a, s.HasSide a → a.Tame) (h : s.Linked a b) : s.Linked b a := by
  induction h with
  | one hab => exact .one hab.symm
  | @next b c d hab hequiv hcd ih =>
      have hb : b.Tame := by
        cases hab with
        | one hab => exact htame b hab.right
        | next _ _ hcd => exact htame b hcd.right
      exact (Linked.one hcd.symm).trans (equiv_symm hb (htame c hcd.left) hequiv) ih

/-- A pass adds only what chains lead to. -/
theorem linked_of_pass (htame : ∀ a, s.HasSide a → a.Tame)
    (h : ∀ a b, t.Equates a b → s.Linked a b) (hab : (pass t.equalities t).Equates a b) :
    s.Linked a b := by
  obtain ⟨c, hc, hrelates⟩ := hab
  rw [pass_eq, items_foldl_addNew] at hc
  rcases List.mem_append.1 hc with hc | hc
  · exact h a b ⟨c, hc, hrelates⟩
  · have hc := List.mem_of_mem_filter (List.mem_of_mem_filter (mem_of_mem_firsts hc))
    obtain ⟨first, hfirst, second, hsecond, hmem⟩ := mem_derived hc
    obtain ⟨x, y, u, v, hxy, huv, hequiv, rfl⟩ := mem_consequences.1 hmem
    have hyx := h y x ⟨first, (mem_equalities.1 hfirst).1, hxy.symm⟩
    have huv := h u v ⟨second, (mem_equalities.1 hsecond).1, huv⟩
    have hyv : s.Linked y v := hyx.trans hequiv huv
    rcases hrelates with hdemand | hdemand
    · cases hdemand
      exact hyv
    · cases hdemand
      exact hyv.symm htame

theorem linked_of_propagateWithin (htame : ∀ a, s.HasSide a → a.Tame) :
    ∀ {n : Nat} {t : ConstraintSet}, (∀ a b, t.Equates a b → s.Linked a b) →
      ∀ a b, (propagateWithin n t).Equates a b → s.Linked a b
  | 0, t, h => h
  | n + 1, t, h => by
      rw [propagateWithin]
      split
      · exact h
      · exact linked_of_propagateWithin htame fun a b => linked_of_pass htame h

/-! ## What follows is listed -/

/-- Digests tell pairs of sides apart from each other, up to equivalence. -/
def PairsToldApart (s : ConstraintSet) : Prop :=
  ∀ a b c d, s.HasSide a → s.HasSide b → s.HasSide c → s.HasSide d →
    equalityDigest a b = equalityDigest c d →
      a.equiv c = true ∧ b.equiv d = true ∨ a.equiv d = true ∧ b.equiv c = true

/-- Digests tell pairs of sides apart, from each other and from the constraints of the set that are
not equalities. -/
structure ToldApart (s : ConstraintSet) : Prop where
  pairs : s.PairsToldApart
  others : ∀ c ∈ s.items, c.kind ≠ .equality → ∀ a b, s.HasSide a → s.HasSide b →
    c.digest ≠ equalityDigest a b

/-- An equality of the set is between two types that are equivalent to the given ones. -/
def EquatesLike (s : ConstraintSet) (a b : Ty) : Prop :=
  ∃ c d, s.Equates c d ∧ a.equiv c = true ∧ d.equiv b = true

theorem ToldApart.grows (h : s.ToldApart) (hgrows : s.Grows t) : t.ToldApart where
  pairs := fun a b c d ha hb hc hd => h.pairs a b c d (hgrows.hasSide_iff.1 ha)
    (hgrows.hasSide_iff.1 hb) (hgrows.hasSide_iff.1 hc) (hgrows.hasSide_iff.1 hd)
  others := fun c hc hkind a b ha hb => by
    obtain ⟨added, hitems, hadded⟩ := hgrows
    rcases List.mem_append.1 (hitems ▸ hc) with hc | hc
    · have hside := fun {a : Ty} => Grows.hasSide_iff (a := a) ⟨added, hitems, hadded⟩
      exact h.others c hc hkind a b (hside.1 ha) (hside.1 hb)
    · obtain ⟨x, y, hdemand, -⟩ := hadded c hc
      exact absurd (Constraint.Relates.kind (.inl hdemand)) hkind

/-- A pair of sides whose digest is there is equated, up to equivalence. -/
theorem ToldApart.equatesLike_of_contains (h : s.ToldApart) (htame : ∀ a, s.HasSide a → a.Tame)
    (ha : s.HasSide a) (hb : s.HasSide b) (hc : c.Relates a b) (hcontains : s.contains c = true) :
    s.EquatesLike a b := by
  obtain ⟨m, hm, hdigest⟩ := contains_iff.1 hcontains
  rw [hc.digest_eq] at hdigest
  by_cases hkind : m.kind = .equality
  · obtain ⟨-, x, y, hxy⟩ := mem_equalities.1 (mem_equalities_of_kind hm hkind)
    have hEquates : s.Equates x y := ⟨m, hm, hxy⟩
    rw [hxy.digest_eq] at hdigest
    rcases h.pairs x y a b hEquates.left hEquates.right ha hb hdigest with ⟨hxa, hyb⟩ | ⟨hxb, hya⟩
    · exact ⟨x, y, hEquates, equiv_symm (htame x hEquates.left) (htame a ha) hxa, hyb⟩
    · exact ⟨y, x, hEquates.symm, equiv_symm (htame y hEquates.right) (htame a ha) hya, hxb⟩
  · exact absurd hdigest (h.others m hm hkind a b ha hb)

theorem Settled.listed (hs : s.Settled) (hd : d ∈ derived s.equalities) :
    d.isTrivial = true ∨ s.contains d = true :=
  foldl_addNew_eq_self.1 ((pass_eq _ s).symm.trans hs) d hd

/-- What follows from two equalities of a set that is settled holds by its form or is listed. -/
theorem Settled.equatesLike (hs : s.Settled) (h : s.ToldApart)
    (htame : ∀ a, s.HasSide a → a.Tame) {a b c d : Ty} (hab : s.Equates a b)
    (hbc : b.equiv c = true) (hcd : s.Equates c d) : a.equiv d = true ∨ s.EquatesLike a d := by
  have ha := htame a hab.left
  have hd := htame d hcd.right
  have hcb := equiv_symm (htame b hab.right) (htame c hcd.left) hbc
  have hlisted : ∀ {m : Constraint}, m.Relates a d → s.contains m = true → s.EquatesLike a d :=
    h.equatesLike_of_contains htame hab.left hcd.right
  obtain ⟨first, hfirst, hfirstab⟩ := hab
  obtain ⟨second, hsecond, hsecondcd⟩ := hcd
  by_cases heq : first = second
  · -- One equality, read forwards and backwards, or twice in one direction.
    subst heq
    rcases hfirstab with h₁ | h₁
    · rcases hsecondcd with h₂ | h₂
      · cases h₁.symm.trans h₂
        exact .inl hcb
      · cases h₁.symm.trans h₂
        exact .inl (equiv_refl ha)
    · rcases hsecondcd with h₂ | h₂
      · cases h₁.symm.trans h₂
        exact .inl (equiv_refl ha)
      · cases h₁.symm.trans h₂
        exact .inl hcb
  · rcases consequences_subset_derived (mem_equalities.2 ⟨hfirst, a, b, hfirstab⟩)
      (mem_equalities.2 ⟨hsecond, c, d, hsecondcd⟩) heq with hsub | hsub
    · have hmem := hsub (mem_consequences.2 ⟨b, a, c, d, hfirstab.symm, hsecondcd, hbc, rfl⟩)
      exact (hs.listed hmem).imp id (hlisted (.inl rfl))
    · have hmem := hsub (mem_consequences.2 ⟨c, d, b, a, hsecondcd, hfirstab.symm, hcb, rfl⟩)
      exact (hs.listed hmem).imp (equiv_symm hd ha) (hlisted (.inr rfl))

theorem Linked.grows (hgrows : s.Grows t) (h : s.Linked a b) : t.Linked a b := by
  induction h with
  | one hab => exact .one (hgrows.equates hab)
  | next _ hbc hcd ih => exact .next ih hbc (hgrows.equates hcd)

/-- In a set that is settled, a chain is no more than one equality. -/
theorem Settled.equatesLike_of_linked (hs : s.Settled) (h : s.ToldApart)
    (htame : ∀ a, s.HasSide a → a.Tame) (hab : s.Linked a b) :
    a.equiv b = true ∨ s.EquatesLike a b := by
  have ha := htame a hab.hasSide.1
  induction hab with
  | @one b hab => exact .inr ⟨a, b, hab, equiv_refl ha, equiv_refl (htame b hab.right)⟩
  | @next b c d hab hbc hcd ih =>
      have hb := htame b hab.hasSide.2
      have hc := htame c hcd.left
      have hd := htame d hcd.right
      rcases ih with hequiv | ⟨x, y, hxy, hax, hyb⟩
      · exact .inr ⟨c, d, hcd, equiv_trans ha hb hc hequiv hbc, equiv_refl hd⟩
      · have hx := htame x hxy.left
        have hyc := equiv_trans (htame y hxy.right) hb hc hyb hbc
        rcases hs.equatesLike h htame hxy hyc hcd with hxd | ⟨u, v, huv, hxu, hvd⟩
        · exact .inl (equiv_trans ha hx hd hax hxd)
        · exact .inr ⟨u, v, huv, equiv_trans ha hx (htame u huv.left) hax hxu, hvd⟩

/-- A side is linked to itself, by its equality there and back. -/
theorem linked_self (htame : ∀ a, s.HasSide a → a.Tame) (ha : s.HasSide a) : s.Linked a a :=
  let ⟨b, hab⟩ := ha
  .next (.one hab) (equiv_refl (htame b hab.right)) hab.symm

/-! ## The closure of equalities -/

/-- Propagating comes to an end, whatever the limit on passes, and doing it again adds nothing.  What
is there stays, in front, and what is added are equalities between sides.

Without recursive types, and as long as digests tell pairs of sides apart, the equalities that are
listed or hold by their form are those that chains of equalities lead to. -/
theorem propagate_closure (s : ConstraintSet) :
    s.Grows s.propagate ∧ s.propagate.Settled ∧ s.propagate.propagate = s.propagate ∧
      (∀ n, s.passBound ≤ n → propagateWithin n s = s.propagate) ∧
      ((∀ a, s.HasSide a → a.Irredundant) → s.ToldApart → ∀ a b, s.HasSide a → s.HasSide b →
        (s.Linked a b ↔ a.equiv b = true ∨ s.propagate.EquatesLike a b) ∧
        ∀ origin span, s.propagate.contains (.equal a b origin span) = true ↔
          s.propagate.EquatesLike a b) := by
  have hgrows : s.Grows s.propagate := grows_propagateWithin _ s
  refine ⟨hgrows, s.settled_propagate, propagateWithin_of_settled s.settled_propagate _,
    fun n hn => propagateWithin_of_le hn, fun hirredundant hapart a b ha hb => ?_⟩
  have htame : ∀ a, s.HasSide a → a.Tame := fun a ha => (hirredundant a ha).tame
  have htame' : ∀ a, s.propagate.HasSide a → a.Tame := fun a ha => htame a (hgrows.hasSide_iff.1 ha)
  refine ⟨⟨fun h => ?_, ?_⟩, fun origin span => ⟨fun h => ?_, ?_⟩⟩
  · exact s.settled_propagate.equatesLike_of_linked (hapart.grows hgrows) htame' (h.grows hgrows)
  · rintro (hequiv | ⟨x, y, hxy, hax, hyb⟩)
    · exact (linked_self htame ha).trans hequiv (linked_self htame hb)
    · have hlinked := linked_of_propagateWithin htame (fun _ _ => .one) x y hxy
      exact ((linked_self htame ha).trans hax hlinked).trans hyb (linked_self htame hb)
  · exact (hapart.grows hgrows).equatesLike_of_contains htame' (hgrows.hasSide_iff.2 ha)
      (hgrows.hasSide_iff.2 hb) (.inl rfl) h
  · rintro ⟨x, y, ⟨c, hc, hxy⟩, hax, hyb⟩
    have hx := hirredundant x (hgrows.hasSide_iff.1 ⟨y, c, hc, hxy⟩)
    have hy := hirredundant y (hgrows.hasSide_iff.1 ⟨x, c, hc, hxy.symm⟩)
    refine contains_iff.2 ⟨c, hc, ?_⟩
    rw [hxy.digest_eq, Constraint.Relates.digest_eq (.inl rfl)]
    exact Constraint.equalityDigest_congr ((hirredundant a ha).determines hx hax).symm
      (hy.determines (hirredundant b hb) hyb)

/-! ### Sets given by their lists -/

theorem items_ofList_of_nodup (h : (cs.map Constraint.digest).Nodup) : (ofList cs).items = cs :=
  items_foldl_add (s := empty) h

/-- Pairs of sides are told apart if the digests of a list of them, each in one order, are
different. -/
theorem pairsToldApart_of_nodup (ps : List (Ty × Ty))
    (hirredundant : ∀ a, s.HasSide a → a.Irredundant)
    (hps : ∀ a ∈ s.sides, ∀ b ∈ s.sides, (a, b) ∈ ps ∨ (b, a) ∈ ps)
    (hnodup : (ps.map fun p => equalityDigest p.1 p.2).Nodup) : s.PairsToldApart := by
  intro a b c d ha hb hc hd h
  have hself : ∀ {a}, s.HasSide a → a.equiv a = true := fun ha => equiv_refl (hirredundant _ ha).tame
  have hcomm : ∀ a b, equalityDigest a b = equalityDigest b a := fun a b =>
    Constraint.Relates.digest_eq (c := .equal a b .inference {}) (.inr rfl)
  have hinj := List.inj_on_of_nodup_map hnodup
  have hsides : ∀ {a b}, s.HasSide a → s.HasSide b → (a, b) ∈ ps ∨ (b, a) ∈ ps :=
    fun ha hb => hps _ (hasSide_iff_mem_sides.1 ha) _ (hasSide_iff_mem_sides.1 hb)
  rcases hsides ha hb with hp | hp <;> rcases hsides hc hd with hq | hq
  · cases hinj hp hq h
    exact .inl ⟨hself ha, hself hb⟩
  · cases hinj hp hq (h.trans (hcomm c d))
    exact .inr ⟨hself ha, hself hb⟩
  · cases hinj hp hq ((hcomm b a).trans h)
    exact .inr ⟨hself ha, hself hb⟩
  · cases hinj hp hq ((hcomm b a).trans (h.trans (hcomm c d)))
    exact .inl ⟨hself ha, hself hb⟩

/-- `t1 ~ t2, t2 ~ Int`. -/
def chained : ConstraintSet :=
  .ofList [.equal (.var ⟨1, 0⟩) (.var ⟨2, 0⟩) .inference {}, .equal (.var ⟨2, 0⟩) .int .inference {}]

theorem items_chained : chained.items = [.equal (.var ⟨1, 0⟩) (.var ⟨2, 0⟩) .inference {},
    .equal (.var ⟨2, 0⟩) .int .inference {}] :=
  items_ofList_of_nodup (by cbv; decide)

theorem sides_chained : chained.sides = [.var ⟨1, 0⟩, .var ⟨2, 0⟩, .var ⟨2, 0⟩, .int] := by
  rw [sides, equalities, ofKinds, items_filter, items_chained]
  rfl

theorem irredundant_chained (a : Ty) (ha : chained.HasSide a) : a.Irredundant := by
  rw [hasSide_iff_mem_sides, sides_chained] at ha
  simp only [List.mem_cons, List.not_mem_nil, or_false] at ha
  rcases ha with rfl | rfl | rfl | rfl
  · exact .var _
  · exact .var _
  · exact .var _
  · exact .prim _

theorem toldApart_chained : chained.ToldApart where
  pairs := by
    refine pairsToldApart_of_nodup [(.var ⟨1, 0⟩, .var ⟨1, 0⟩), (.var ⟨1, 0⟩, .var ⟨2, 0⟩),
      (.var ⟨1, 0⟩, .int), (.var ⟨2, 0⟩, .var ⟨2, 0⟩), (.var ⟨2, 0⟩, .int), (.int, .int)]
      irredundant_chained ?_ (by cbv; decide)
    simp [sides_chained]
  others := by
    rw [items_chained]
    intro c hc hkind
    rcases List.mem_pair.1 hc with rfl | rfl <;> exact absurd rfl hkind

/-- From `t1 ~ t2` and `t2 ~ Int` follows `t1 ~ Int`, and it is listed. -/
theorem propagate_closure_chained : (∀ a, chained.HasSide a → a.Irredundant) ∧ chained.ToldApart ∧
    chained.HasSide (.var ⟨1, 0⟩) ∧ chained.HasSide .int ∧ chained.Linked (.var ⟨1, 0⟩) .int ∧
    chained.propagate.EquatesLike (.var ⟨1, 0⟩) .int := by
  have h12 : chained.Equates (.var ⟨1, 0⟩) (.var ⟨2, 0⟩) :=
    ⟨.equal (.var ⟨1, 0⟩) (.var ⟨2, 0⟩) .inference {}, by simp [items_chained], .inl rfl⟩
  have h2 : chained.Equates (.var ⟨2, 0⟩) .int :=
    ⟨.equal (.var ⟨2, 0⟩) .int .inference {}, by simp [items_chained], .inl rfl⟩
  have hlinked : chained.Linked (.var ⟨1, 0⟩) .int := .next (.one h12) (by cbv) h2
  obtain ⟨-, -, -, -, hclosure⟩ := propagate_closure chained
  have h := (hclosure irredundant_chained toldApart_chained _ _ h12.left h2.right).1.1 hlinked
  exact ⟨irredundant_chained, toldApart_chained, h12.left, h2.right, hlinked,
    h.resolve_left (by cbv; decide)⟩

/-! ### Digests that fall together

There are an equality and a demand of another kind with one digest.  Where the equality would be
added, the demand stands in its place. -/

/-- `"7fEl-XKkzMc" ~ t1`, an equality between a variable and `Int`, and `"OOS-3X4r0ig" <: Bool`. -/
def colliding (v : TyVar) : ConstraintSet :=
  .ofList [.equal (.lit "7fEl-XKkzMc") (.var ⟨1, 0⟩) .inference {},
    .equal (.var v) .int .inference {}, .subtype (.lit "OOS-3X4r0ig") .bool .written {}]

theorem items_colliding {v : TyVar} (h : v = ⟨1, 0⟩ ∨ v = ⟨2, 0⟩) : (colliding v).items =
    [.equal (.lit "7fEl-XKkzMc") (.var ⟨1, 0⟩) .inference {},
      .equal (.var v) .int .inference {}, .subtype (.lit "OOS-3X4r0ig") .bool .written {}] := by
  refine items_ofList_of_nodup ?_
  rcases h with rfl | rfl
  · cbv; decide
  · cbv; decide

theorem equalities_colliding {v : TyVar} (h : v = ⟨1, 0⟩ ∨ v = ⟨2, 0⟩) : (colliding v).equalities =
    [.equal (.lit "7fEl-XKkzMc") (.var ⟨1, 0⟩) .inference {}, .equal (.var v) .int .inference {}] := by
  rw [equalities, ofKinds, items_filter, items_colliding h]
  rfl

theorem sides_colliding {v : TyVar} (h : v = ⟨1, 0⟩ ∨ v = ⟨2, 0⟩) :
    (colliding v).sides = [.lit "7fEl-XKkzMc", .var ⟨1, 0⟩, .var v, .int] := by
  rw [sides, equalities_colliding h]
  rfl

theorem irredundant_colliding {v : TyVar} (h : v = ⟨1, 0⟩ ∨ v = ⟨2, 0⟩) (a : Ty)
    (ha : (colliding v).HasSide a) : a.Irredundant := by
  rw [hasSide_iff_mem_sides, sides_colliding h] at ha
  simp only [List.mem_cons, List.not_mem_nil, or_false] at ha
  rcases ha with rfl | rfl | rfl | rfl
  · exact .lit _
  · exact .var _
  · exact .var _
  · exact .prim _

theorem pairsToldApart_colliding {v : TyVar} (h : v = ⟨1, 0⟩ ∨ v = ⟨2, 0⟩) :
    (colliding v).PairsToldApart := by
  refine pairsToldApart_of_nodup [(.lit "7fEl-XKkzMc", .lit "7fEl-XKkzMc"),
    (.lit "7fEl-XKkzMc", .var ⟨1, 0⟩), (.lit "7fEl-XKkzMc", .var ⟨2, 0⟩),
    (.lit "7fEl-XKkzMc", .int), (.var ⟨1, 0⟩, .var ⟨1, 0⟩), (.var ⟨1, 0⟩, .var ⟨2, 0⟩),
    (.var ⟨1, 0⟩, .int), (.var ⟨2, 0⟩, .var ⟨2, 0⟩), (.var ⟨2, 0⟩, .int), (.int, .int)]
    (irredundant_colliding h) ?_ (by cbv; decide)
  rw [sides_colliding h]
  rcases h with rfl | rfl
  · simp
  · simp

theorem equates_colliding {v : TyVar} (h : v = ⟨1, 0⟩ ∨ v = ⟨2, 0⟩) {a b : Ty}
    (hab : (colliding v).Equates a b) : a = .lit "7fEl-XKkzMc" ∧ b = .var ⟨1, 0⟩ ∨
      a = .var ⟨1, 0⟩ ∧ b = .lit "7fEl-XKkzMc" ∨ a = .var v ∧ b = .int ∨ a = .int ∧ b = .var v := by
  obtain ⟨c, hc, hab⟩ := hab
  have hc := mem_equalities_of_kind hc hab.kind
  rw [equalities_colliding h] at hc
  rcases List.mem_pair.1 hc with rfl | rfl
  · rcases hab with hab | hab
    · cases hab
      exact .inl ⟨rfl, rfl⟩
    · cases hab
      exact .inr (.inl ⟨rfl, rfl⟩)
  · rcases hab with hab | hab
    · cases hab
      exact .inr (.inr (.inl ⟨rfl, rfl⟩))
    · cases hab
      exact .inr (.inr (.inr ⟨rfl, rfl⟩))

theorem contains_colliding {v : TyVar} (h : v = ⟨1, 0⟩ ∨ v = ⟨2, 0⟩) (origin : Origin) (span : Span) :
    (colliding v).contains (.equal (.lit "7fEl-XKkzMc") .int origin span) = true := by
  have hdigest : (Constraint.subtype (.lit "OOS-3X4r0ig") .bool .written {}).digest =
      equalityDigest (.lit "7fEl-XKkzMc") .int := by cbv
  refine contains_iff.2 ⟨.subtype (.lit "OOS-3X4r0ig") .bool .written {}, ?_, hdigest.trans ?_⟩
  · simp [items_colliding h]
  · exact (Constraint.Relates.digest_eq (.inl rfl)).symm

theorem settled_colliding {v : TyVar} (h : v = ⟨1, 0⟩ ∨ v = ⟨2, 0⟩) : (colliding v).Settled := by
  rw [Settled, pass_eq, foldl_addNew_eq_self, equalities_colliding h]
  intro c hc
  rcases h with rfl | rfl
  · rw [show derived _ = [Constraint.equal (.lit "7fEl-XKkzMc") .int .inference {}] by cbv] at hc
    rw [List.mem_singleton.1 hc]
    exact .inr (contains_colliding (.inl rfl) .inference {})
  · rw [show derived _ = [] by cbv] at hc
    cases hc

/-- No chain leaves the two sides of the first equality. -/
theorem not_linked_colliding : ¬ (colliding ⟨2, 0⟩).Linked (.lit "7fEl-XKkzMc") .int := by
  have h : (⟨2, 0⟩ : TyVar) = ⟨1, 0⟩ ∨ (⟨2, 0⟩ : TyVar) = ⟨2, 0⟩ := .inr rfl
  intro hlinked
  have hside : Ty.int = .lit "7fEl-XKkzMc" ∨ Ty.int = .var ⟨1, 0⟩ := by
    refine hlinked.hands_on (P := fun a => a = .lit "7fEl-XKkzMc" ∨ a = .var ⟨1, 0⟩) ?_ ?_ (.inl rfl)
    · intro a b hab ha
      rcases equates_colliding h hab with ⟨rfl, rfl⟩ | ⟨rfl, rfl⟩ | ⟨rfl, rfl⟩ | ⟨rfl, rfl⟩
      · exact .inr rfl
      · exact .inl rfl
      · simp at ha
      · simp [int] at ha
    · intro a b _ hb hequiv ha
      rw [hasSide_iff_mem_sides, sides_colliding h] at hb
      simp only [List.mem_cons, List.not_mem_nil, or_false] at hb
      rcases hb with rfl | rfl | rfl | rfl
      · exact .inl rfl
      · exact .inr rfl
      · rcases ha with rfl | rfl
        · cases (by cbv : Ty.equiv (.lit "7fEl-XKkzMc") (.var ⟨2, 0⟩) = false).symm.trans hequiv
        · cases (by cbv : Ty.equiv (.var ⟨1, 0⟩) (.var ⟨2, 0⟩) = false).symm.trans hequiv
      · rcases ha with rfl | rfl
        · cases (by cbv : Ty.equiv (.lit "7fEl-XKkzMc") .int = false).symm.trans hequiv
        · cases (by cbv : Ty.equiv (.var ⟨1, 0⟩) .int = false).symm.trans hequiv
  simp [int] at hside

/-- Pairs of sides are told apart, and yet, as there is a demand with the digest of
`"7fEl-XKkzMc" ~ Int`, this is not listed when it follows, and the set is said to contain it when it
does not follow. -/
theorem colliding_not_closed :
    (∀ a, (colliding ⟨1, 0⟩).HasSide a → a.Irredundant) ∧ (colliding ⟨1, 0⟩).PairsToldApart ∧
    (colliding ⟨1, 0⟩).Linked (.lit "7fEl-XKkzMc") .int ∧
    Ty.equiv (.lit "7fEl-XKkzMc") .int = false ∧
    ¬ (colliding ⟨1, 0⟩).propagate.EquatesLike (.lit "7fEl-XKkzMc") .int ∧
    (∀ a, (colliding ⟨2, 0⟩).HasSide a → a.Irredundant) ∧ (colliding ⟨2, 0⟩).PairsToldApart ∧
    ¬ (colliding ⟨2, 0⟩).Linked (.lit "7fEl-XKkzMc") .int ∧
    (colliding ⟨2, 0⟩).propagate.contains
      (.equal (.lit "7fEl-XKkzMc") .int .inference {}) = true := by
  have h₁ : (⟨1, 0⟩ : TyVar) = ⟨1, 0⟩ ∨ (⟨1, 0⟩ : TyVar) = ⟨2, 0⟩ := .inl rfl
  have h₂ : (⟨2, 0⟩ : TyVar) = ⟨1, 0⟩ ∨ (⟨2, 0⟩ : TyVar) = ⟨2, 0⟩ := .inr rfl
  have hmem : ∀ c ∈ (colliding ⟨1, 0⟩).equalities, c ∈ (colliding ⟨1, 0⟩).items :=
    fun c hc => (mem_equalities.1 hc).1
  refine ⟨irredundant_colliding h₁, pairsToldApart_colliding h₁, ?_, by cbv, ?_,
    irredundant_colliding h₂, pairsToldApart_colliding h₂, ?_, ?_⟩
  · rw [equalities_colliding h₁] at hmem
    exact .next (.one ⟨_, hmem _ (.head _), .inl rfl⟩) (by cbv)
      ⟨_, hmem _ (.tail _ (.head _)), .inl rfl⟩
  · rw [propagate, propagateWithin_of_settled (settled_colliding h₁)]
    rintro ⟨a, b, hab, hla, hbi⟩
    rcases equates_colliding h₁ hab with ⟨rfl, rfl⟩ | ⟨rfl, rfl⟩ | ⟨rfl, rfl⟩ | ⟨rfl, rfl⟩
    · cases (by cbv : Ty.equiv (.var ⟨1, 0⟩) .int = false).symm.trans hbi
    · cases (by cbv : Ty.equiv (.lit "7fEl-XKkzMc") .int = false).symm.trans hbi
    · cases (by cbv : Ty.equiv (.lit "7fEl-XKkzMc") (.var ⟨1, 0⟩) = false).symm.trans hla
    · cases (by cbv : Ty.equiv (.lit "7fEl-XKkzMc") .int = false).symm.trans hla
  · exact not_linked_colliding
  · rw [propagate, propagateWithin_of_settled (settled_colliding h₂)]
    exact contains_colliding h₂ .inference {}

end ConstraintSet

end RowTypes
