import RowTypes.Constraint.Propagate
import RowTypes.Proofs.Digests
import RowTypes.Proofs.Solving

/-!
# The algebra of constraint sets

A set is a list of constraints with an index of their digests beside it, and every operation has
to keep the two in step.  `ConstraintSet` carries the proof that they are, so what is left to say
of an operation is which constraints its result lists and in which order.

Three shapes cover all operations.  What leaves constraints out lists those that stay, as they
stood (`items_filter`).  What adds constraints lists the old ones and then, of the added ones, the
first of each digest that was not there (`items_foldl_add_firsts`).  What maps constraints can give
two of them one digest, so it starts from the empty set and adds what it made.
-/

namespace RowTypes

namespace ConstraintSet

/-- The first constraint of each digest in a list, in the order of the list. -/
def firsts (cs : List Constraint) : List Constraint :=
  cs.eraseDupsBy fun later earlier => later.digest == earlier.digest

variable {s t : ConstraintSet} {c d : Constraint} {cs : List Constraint}

@[simp] theorem firsts_nil : firsts [] = [] := rfl

theorem firsts_cons (c : Constraint) (cs : List Constraint) :
    firsts (c :: cs) = c :: firsts (cs.filter fun d => d.digest != c.digest) := by
  rw [firsts, List.eraseDupsBy_cons, firsts]
  congr 2
  exact List.filter_congr fun d _ => by
    cases h : d.digest == c.digest <;> simp [bne, h]

/-! ### The index and the list -/

theorem nodup_digests (s : ConstraintSet) : (s.items.map Constraint.digest).Nodup :=
  s.seen_eq ▸ s.nodup

/-- The list of a set determines its index. -/
theorem eq_of_items (h : s.items = t.items) : s = t := by
  obtain ⟨items, seen, rfl, _⟩ := s
  obtain ⟨items', seen', rfl, _⟩ := t
  cases h
  rfl

theorem contains_add : (s.add c).contains d = (s.contains d || d.digest == c.digest) := by
  refine Bool.eq_iff_iff.2 ?_
  rw [Bool.or_eq_true, beq_iff_eq]
  cases h : s.contains c with
  | true =>
      rw [add, dif_pos h]
      refine ⟨.inl, fun hd => hd.elim id fun hdigest => ?_⟩
      rwa [contains, hdigest]
  | false =>
      rw [contains_iff, items_add h, contains_iff]
      simp only [List.mem_append, List.mem_singleton, or_and_right, exists_or, exists_eq_left]
      exact or_congr_right eq_comm

/-! ### Adding -/

theorem items_add_of_contains (h : s.contains c = true) : (s.add c).items = s.items := by
  rw [add, dif_pos h]

/-- Adding constraints one after the other adds the first of each digest that is new.

The induction is on the added constraints, for every set they are added to: a constraint that is
there already is filtered out, and a new one filters out the later ones of its digest. -/
theorem items_foldl_add_firsts (cs : List Constraint) (s : ConstraintSet) :
    (cs.foldl add s).items = s.items ++ firsts (cs.filter fun c => !s.contains c) := by
  induction cs generalizing s with
  | nil => simp
  | cons c cs ih =>
      rw [List.foldl_cons, ih, List.filter_cons]
      have hfilter : (cs.filter fun d => !(s.add c).contains d)
          = (cs.filter fun d => !s.contains d).filter fun d => d.digest != c.digest := by
        rw [List.filter_filter]
        exact List.filter_congr fun d _ => by
          rw [contains_add, Bool.not_or, Bool.and_comm, bne]
      cases h : s.contains c with
      | true =>
          -- The digest is there, so neither side sees the constraint.
          have hself : s.add c = s := eq_of_items (items_add_of_contains h)
          rw [hself, if_neg (by simp)]
      | false =>
          rw [if_pos (by simp), firsts_cons, ← hfilter, items_add h, List.append_assoc,
            List.singleton_append]

theorem items_ofList (cs : List Constraint) : (ofList cs).items = firsts cs := by
  rw [ofList, items_foldl_add_firsts]
  simp [empty, contains]

/-- A set is what its list builds. -/
theorem ofList_items (s : ConstraintSet) : ofList s.items = s :=
  eq_of_items (items_foldl_add (s := empty) (by simpa [empty] using s.nodup_digests))

/-- The list of a set has no digest twice, so it is the list of its firsts. -/
theorem firsts_items (s : ConstraintSet) : firsts s.items = s.items := by
  rw [← items_ofList, ofList_items]

/-- The union of two sets is the first one with the constraints of the second one added in turn. -/
theorem union_eq_foldl_add (s t : ConstraintSet) : s.union t = t.items.foldl add s := by
  refine eq_of_items ?_
  rw [items_union, items_foldl_add_firsts, ← items_filter, firsts_items]

theorem contains_union : (s.union t).contains c = (s.contains c || t.contains c) := by
  refine Bool.eq_iff_iff.2 ?_
  rw [Bool.or_eq_true, contains_iff, items_union]
  constructor
  · rintro ⟨m, hm, hdigest⟩
    rcases List.mem_append.1 hm with hm | hm
    · exact .inl (contains_iff.2 ⟨m, hm, hdigest⟩)
    · exact .inr (contains_iff.2 ⟨m, (List.mem_filter.1 hm).1, hdigest⟩)
  · intro h
    cases hs : s.contains c with
    | true =>
        obtain ⟨m, hm, hdigest⟩ := contains_iff.1 hs
        exact ⟨m, List.mem_append_left _ hm, hdigest⟩
    | false =>
        -- What only `t` holds is new, as `s` holds nothing of its digest.
        obtain ⟨m, hm, hdigest⟩ := contains_iff.1 (h.resolve_left (by simp [hs]))
        have hnew : s.contains m = false := by rw [← hs, contains, contains, hdigest]
        exact ⟨m, List.mem_append_right _ (List.mem_filter.2 ⟨hm, by simp [hnew]⟩), hdigest⟩

/-! ### Substituting -/

end ConstraintSet

theorem RecordTy.toTy_record? (r : RecordTy) : r.toTy.record? = some r := rfl

theorem Demand.apply_of_isEmpty {θ : Subst} (h : θ.isEmpty = true) (d : Demand) :
    d.apply θ = d := by
  have happly : θ.apply = id := funext fun t => Subst.apply_of_isEmpty h t
  cases d <;>
    simp [Demand.apply, Demand.applyRecord, Subst.applyAll_eq_map, happly,
      RecordTy.toTy_record?]

theorem Constraint.apply_of_isEmpty {θ : Subst} (h : θ.isEmpty = true) (c : Constraint) :
    c.apply θ = c := by
  rw [Constraint.apply, Demand.apply_of_isEmpty h]

namespace ConstraintSet

variable {s t : ConstraintSet} {c d : Constraint} {cs : List Constraint}

/-- A substitution may give several constraints one digest; the first of them stays. -/
theorem items_apply (s : ConstraintSet) (θ : Subst) :
    (s.apply θ).items = firsts (s.items.map (Constraint.apply θ)) := by
  unfold ConstraintSet.apply
  split
  · next h => rw [funext (Constraint.apply_of_isEmpty h), List.map_id', firsts_items]
  · exact items_ofList _

/-! ### Sets that are built from the empty one -/

/-- A way to build a set from the empty one by the operations on sets. -/
inductive Plan where
  | empty
  | add (p : Plan) (c : Constraint)
  | ofList (cs : List Constraint)
  | union (p q : Plan)
  | inter (p q : Plan)
  | diff (p q : Plan)
  | ofKinds (p : Plan) (kinds : List DemandKind)
  | ofOrigins (p : Plan) (origins : List Origin)
  | ofPriority (p : Plan) (priority : Int)
  | apply (p : Plan) (θ : Subst)
  | simplify (p : Plan)
  | propagate (p : Plan)

/-- The set that a plan builds. -/
def Plan.build : Plan → ConstraintSet
  | .empty => ConstraintSet.empty
  | .add p c => p.build.add c
  | .ofList cs => ConstraintSet.ofList cs
  | .union p q => p.build.union q.build
  | .inter p q => p.build.inter q.build
  | .diff p q => p.build.diff q.build
  | .ofKinds p kinds => p.build.ofKinds kinds
  | .ofOrigins p origins => p.build.ofOrigins origins
  | .ofPriority p priority => p.build.ofPriority priority
  | .apply p θ => p.build.apply θ
  | .simplify p => p.build.simplify
  | .propagate p => p.build.propagate

/-- Built sets list no digest twice, know what they list, and obey the algebra of lists in which
the first constraint of a digest counts. -/
theorem build_algebra (p q : Plan) (c : Constraint) (θ : Subst) :
    (p.build.items.map Constraint.digest).Nodup
    ∧ (p.build.contains c = true ↔ ∃ m ∈ p.build.items, m.digest = c.digest)
    ∧ ((p.build.union q.build).contains c = true
        ↔ p.build.contains c = true ∨ q.build.contains c = true)
    ∧ (p.build.union q.build).items
        = p.build.items ++ q.build.items.filter (fun d => !p.build.contains d)
    ∧ (p.build.inter q.build).items = p.build.items.filter q.build.contains
    ∧ (p.build.diff q.build).items = p.build.items.filter (fun d => !q.build.contains d)
    ∧ (p.build.apply θ).items = firsts (p.build.items.map (Constraint.apply θ)) := by
  refine ⟨nodup_digests _, contains_iff, ?_, items_union _ _, ?_, ?_, items_apply _ θ⟩
  · rw [contains_union, Bool.or_eq_true]
  · exact items_filter _ _
  · exact items_filter _ _

end ConstraintSet

end RowTypes
