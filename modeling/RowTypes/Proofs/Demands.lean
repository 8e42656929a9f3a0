import RowTypes.Proofs.Generalization
import RowTypes.Inference.Generate

/-!
# The demands that an expression makes

Inference makes a fixed number of demands for each form of an expression, and adds them to a set.
The set drops a demand whose digest it has met before, so it holds at most that many, and all of
them just in case it holds exactly that many.  What is dropped can only make the set easier to
solve.
-/

namespace RowTypes

open Equations Milner

namespace Expr

mutual

/-- How many demands an expression of the core language makes. -/
def demandCount : Expr → Nat
  | .literal .. | .var .. => 1
  | .call _ f args => f.demandCount + demandCountAll args + 1
  | .binary _ _ l r => l.demandCount + r.demandCount + 3
  | .unary _ _ x => x.demandCount + 2
  | .cond _ c t f => c.demandCount + t.demandCount + f.demandCount + 2
  | .lambda _ _ body => body.demandCount + 1
  | .letIn _ _ isRec _ value body =>
    (value.demandCount + if isRec then 1 else 0) + body.demandCount
  | .tuple _ xs => demandCountAll xs + 1
  | _ => 0

/-- How many demands several expressions make. -/
def demandCountAll : List Expr → Nat
  | [] => 0
  | x :: xs => x.demandCount + demandCountAll xs

end

end Expr

namespace ConstraintSet

theorem size_add (cs : ConstraintSet) (c : Constraint) :
    (cs.add c).size = cs.size ∧ (cs.add c).items = cs.items ∨
      (cs.add c).size = cs.size + 1 ∧ (cs.add c).items = cs.items ++ [c] := by
  unfold add size
  split
  · exact .inl ⟨rfl, rfl⟩
  · exact .inr ⟨by simp, rfl⟩

theorem size_union_le (cs cs' : ConstraintSet) : (cs.union cs').size ≤ cs.size + cs'.size := by
  unfold size
  rw [items_union, List.length_append]
  have := List.length_filter_le (fun c => !cs.contains c) cs'.items
  omega

/-- A union that drops nothing has all constraints of both sets. -/
theorem items_union_of_size {cs cs' : ConstraintSet}
    (h : (cs.union cs').size = cs.size + cs'.size) :
    (cs.union cs').items = cs.items ++ cs'.items := by
  unfold size at h
  rw [items_union] at h ⊢
  rw [List.length_append, Nat.add_left_cancel_iff] at h
  rw [List.filter_eq_self.2 (List.length_filter_eq_length_iff.1 h)]

end ConstraintSet

/-- A set holds demands out of some number of them, whose equations are given. -/
structure Gathers (cs : ConstraintSet) (k : Nat) (E : Equations) : Prop where
  equational : ∀ c ∈ cs.items, c.demand.Equational .simple
  subset : ∀ eq ∈ Session.equationsOf cs.items, eq ∈ E
  size : cs.size ≤ k
  full : cs.size = k → ∀ eq ∈ E, eq ∈ Session.equationsOf cs.items

namespace Gathers

variable {cs cs' : ConstraintSet} {k k' : Nat} {E E' : Equations} {c : Constraint}

theorem empty : Gathers .empty 0 [] where
  equational := by intro c hc; cases hc
  subset := by intro eq heq; cases heq
  size := Nat.le_refl _
  full := by intro _ eq heq; cases heq

theorem equationsOf_append (cs cs' : List Constraint) :
    Session.equationsOf (cs ++ cs') = Session.equationsOf cs ++ Session.equationsOf cs' :=
  List.flatMap_append

theorem add (h : Gathers cs k E) (hc : c.demand.Equational .simple) :
    Gathers (cs.add c) (k + 1) (E ++ c.demand.equations) := by
  have hsize := h.size
  rcases cs.size_add c with ⟨hadd, hitems⟩ | ⟨hadd, hitems⟩
  · refine ⟨by rw [hitems]; exact h.equational, fun eq heq => ?_, by omega, fun hfull => by omega⟩
    rw [hitems] at heq
    exact List.mem_append_left _ (h.subset eq heq)
  · have heqs : Session.equationsOf (cs.add c).items =
        Session.equationsOf cs.items ++ c.demand.equations := by
      rw [hitems, equationsOf_append]
      simp [Session.equationsOf]
    refine ⟨fun d hd => ?_, fun eq heq => ?_, by omega, fun hfull eq heq => ?_⟩
    · rw [hitems, List.mem_append, List.mem_singleton] at hd
      rcases hd with hd | rfl
      · exact h.equational d hd
      · exact hc
    · rw [heqs] at heq
      exact (List.mem_append.1 heq).elim (fun heq => List.mem_append_left _ (h.subset eq heq))
        (List.mem_append_right _)
    · rw [heqs]
      exact (List.mem_append.1 heq).elim
        (fun heq => List.mem_append_left _ (h.full (by omega) eq heq)) (List.mem_append_right _)

theorem equality (h : Gathers cs k E) (a b : Ty) (span : Span) :
    Gathers (cs.add (Generate.equality a b span)) (k + 1) (E ++ [(a, b)]) := h.add (.equal a b)

theorem full_of_add (h : Gathers cs k E) (hfull : (cs.add c).size = k + 1) : cs.size = k := by
  have hsize := h.size
  rcases cs.size_add c with ⟨hadd, -⟩ | ⟨hadd, -⟩ <;> omega

theorem full_of_union (h : Gathers cs k E) (h' : Gathers cs' k' E')
    (hfull : (cs.union cs').size = k + k') : cs.size = k ∧ cs'.size = k' := by
  have := cs.size_union_le cs'
  have := h.size
  have := h'.size
  omega

theorem union (h : Gathers cs k E) (h' : Gathers cs' k' E') :
    Gathers (cs.union cs') (k + k') (E ++ E') := by
  have hsize := cs.size_union_le cs'
  have hk := h.size
  have hk' := h'.size
  refine ⟨fun c hc => ?_, fun eq heq => ?_, by omega, fun hfull eq heq => ?_⟩
  · rw [ConstraintSet.items_union, List.mem_append] at hc
    exact hc.elim (h.equational c) fun hc => h'.equational c (List.mem_filter.1 hc).1
  · obtain ⟨c, hc, heq⟩ := Session.mem_equationsOf.1 heq
    rw [ConstraintSet.items_union, List.mem_append] at hc
    rcases hc with hc | hc
    · exact List.mem_append_left _ (h.subset eq (Session.mem_equationsOf.2 ⟨c, hc, heq⟩))
    · exact List.mem_append_right _
        (h'.subset eq (Session.mem_equationsOf.2 ⟨c, (List.mem_filter.1 hc).1, heq⟩))
  · obtain ⟨hcs, hcs'⟩ := full_of_union h h' hfull
    rw [ConstraintSet.items_union_of_size (by omega), equationsOf_append]
    exact (List.mem_append.1 heq).elim
      (fun heq => List.mem_append_left _ (h.full hcs eq heq))
      fun heq => List.mem_append_right _ (h'.full hcs' eq heq)

/-- What unifies all demands unifies those that the set holds. -/
theorem meets {R : Reading Int} (h : Gathers cs k E) (hR : R.Unifies E) :
    R.Unifies (Session.equationsOf cs.items) := fun eq heq => hR eq (h.subset eq heq)

theorem unifies {R : Reading Int} (h : Gathers cs k E) (hfull : cs.size = k)
    (hR : R.Unifies (Session.equationsOf cs.items)) : R.Unifies E :=
  fun eq heq => hR eq (h.full hfull eq heq)

theorem mem_sides (h : Gathers cs k E) {t : Ty} (ht : t ∈ sides (Session.equationsOf cs.items)) :
    t ∈ sides E := by
  obtain ⟨eq, heq, ht⟩ := Equations.mem_sides.1 ht
  exact Equations.mem_sides.2 ⟨eq, h.subset eq heq, ht⟩

end Gathers

/-! ## What is made of which unknowns -/

/-- Types without records, of unknowns that a definition or an expression may be made of. -/
def Ty.Within (P : Int → Prop) (t : Ty) : Prop := t.Simple ∧ ∀ id, t.Mentions id → P id

/-- Equations between such types. -/
def Equations.Within (P : Int → Prop) (E : Equations) : Prop := ∀ t ∈ sides E, t.Within P

section Within

variable {P Q : Int → Prop} {E F : Equations} {t a b : Ty}

theorem Ty.Within.mono (h : t.Within P) (hPQ : ∀ id, P id → Q id) : t.Within Q :=
  ⟨h.1, fun id hid => hPQ id (h.2 id hid)⟩

theorem Equations.Within.mono (h : E.Within P) (hPQ : ∀ id, P id → Q id) : E.Within Q :=
  fun t ht => (h t ht).mono hPQ

theorem within_var {v : TyVar} (h : P v.id) : (Ty.var v).Within P :=
  ⟨Ty.simple_var v, fun _ hid => Ty.mentions_var.1 hid ▸ h⟩

theorem within_prim (name : String) : (Ty.prim name).Within P :=
  ⟨.prim name, fun _ hid => absurd hid Ty.mentions_prim⟩

theorem within_tuple {ts : List Ty} (h : ∀ t ∈ ts, t.Within P) : (Ty.tuple ts).Within P := by
  refine ⟨.tuple fun t ht => (h t ht).1, fun id hid => ?_⟩
  obtain ⟨t, ht, hid⟩ := Ty.mentions_tuple.1 hid
  exact (h t ht).2 id hid

theorem within_curried {ts : List Ty} (hts : ∀ t ∈ ts, t.Within P) (ht : t.Within P) :
    (Ty.curried ts t).Within P := by
  refine ⟨Ty.simple_curried (fun u hu => (hts u hu).1) ht.1, fun id hid => ?_⟩
  rcases Ty.mentions_curried hid with ⟨u, hu, hid⟩ | hid
  · exact (hts u hu).2 id hid
  · exact ht.2 id hid

theorem within_nil : Equations.Within P [] := by intro t ht; cases ht

theorem within_append (hE : E.Within P) (hF : F.Within P) : (E ++ F).Within P := by
  intro t ht
  rw [sides_append] at ht
  exact (List.mem_append.1 ht).elim (hE t) (hF t)

theorem within_pair (ha : a.Within P) (hb : b.Within P) : Equations.Within P [(a, b)] := by
  intro t ht
  rcases (by simpa [sides] using ht : t = a ∨ t = b) with rfl | rfl
  · exact ha
  · exact hb

end Within

end RowTypes
