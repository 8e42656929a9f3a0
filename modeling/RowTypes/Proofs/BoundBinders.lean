import RowTypes.Proofs.DisciplinedSchemes

/-!
# No binder gets out of a session

Normalising hands out new numbers for its binders.  What it gives back, and what it leaves behind
to be found later, has none of them free, whatever the session did before: it may have been given
definitions, it may have been asked for other normal forms, which it remembers, and it may have
handed out unknowns that stand in the type and in the definitions.

Two invariants carry this.  All that a session keeps is made of numbers that it has handed out, so
numbers that are handed out later are new to it (`handedOut`).  And one run of normalising, on such
a session, roots what it makes and what it remembers in the numbers that were there at its start
(`keeping_normalizeWith`); an expansion that is going on adds its binder for the time being, and
takes it back when it is closed.
-/

namespace RowTypes

/-- All numbers were handed out already, and any of them may be anything. -/
def handedOut : Discipline where
  Stage := Nat
  count := id
  Before := (· ≤ ·)
  Plain := fun _ _ => True
  Row := fun w id => id ≤ w
  Ok := fun w t => t.Over (· ≤ (w : Int))
  refl := Nat.le_refl
  trans := Nat.le_trans
  plain_later := fun _ _ => trivial
  row_later := fun hw h => Int.le_trans h (Int.ofNat_le.2 hw)
  ok_later := fun hw h => h.mono fun _ hid => Int.le_trans hid (Int.ofNat_le.2 hw)
  exists_var := fun w _ => ⟨w + 1, Nat.le_succ w, rfl, Ty.over_var.2 (Int.le_refl _)⟩
  exists_row := fun w => ⟨w + 1, Nat.le_succ w, rfl, Int.le_refl _⟩
  sorts := fun _ => .inr ⟨fun _ => trivial, fun _ => Ty.over_var⟩
  plain_of_var := fun _ => trivial
  prim := fun _ _ => Ty.over_prim
  lit := fun _ _ => Ty.over_lit
  fn := Ty.over_fn
  record := Ty.over_record
  tuple := Ty.over_tuple
  named := Ty.over_named
  mu := by
    intro w v t
    rw [Ty.over_mu, Ty.over_var, and_iff_left False.elim]
  union := Ty.over_union.1
  inter := Ty.over_inter.1
  unionOf := fun _ => Ty.over_unionOf
  interOf := fun _ => Ty.over_interOf

namespace Session

/-- The sessions that begin without definitions, and hand out unknowns, take definitions and
declarations, and normalise types, in any order, where types and definitions are made of numbers
that were handed out. -/
inductive Reached : Session → Prop where
  | start (n : Nat) : Reached { supply := ⟨n⟩ }
  | unknown {σ : Session} (level : Int) : Reached σ →
      Reached ((Registry.freshVar level).run σ).2
  | define {σ : Session} {d : Definition} : Reached σ →
      d.body.Over (· ≤ (σ.supply.count : Int)) → Reached ((define d).run σ).2
  | declare {σ : Session} (d : TypeDecl) : Reached σ → Reached ((declare d).run σ).2
  | normalize {σ : Session} {t : Ty} : Reached σ → t.Over (· ≤ (σ.supply.count : Int)) →
      Reached ((Registry.normalize t).run σ).2

variable {σ : Session} {t : Ty}

/-- All that a session keeps is made of numbers that it has handed out. -/
def Accounted (σ : Session) : Prop := Discipline.Holding.At (D := handedOut) σ.supply.count σ

theorem Accounted.over (h : σ.Accounted) : σ.registry.Over (· ≤ (σ.supply.count : Int)) :=
  ⟨fun entry hentry => (h.2.1.definitions entry hentry).body, h.2.1.memo⟩

theorem accounted_of_keeps {α : Type} {m : StateM Session α} {made : Nat → α → Prop}
    (hσ : σ.Accounted) (h : handedOut.Keeps σ.supply.count made m) : (m.run σ).2.Accounted := by
  obtain ⟨w, -, hτ, -⟩ := h σ hσ
  obtain rfl : w = (m.run σ).2.supply.count := hτ.1
  exact hτ

theorem Reached.accounted (h : σ.Reached) : σ.Accounted := by
  induction h with
  | start n => exact ⟨rfl, ⟨by rintro entry ⟨⟩, by rintro entry ⟨⟩⟩, trivial⟩
  | unknown level _ ih => exact accounted_of_keeps ih (Discipline.keeps_freshVar level)
  | define _ hd ih =>
      exact accounted_of_keeps ih (Discipline.keepsOk_define ⟨fun _ _ => trivial, hd, False.elim⟩)
  | declare d _ ih => exact accounted_of_keeps ih (Discipline.keepsOk_declare False.elim)
  | normalize _ ht ih => exact accounted_of_keeps ih (Discipline.keeps_normalize ht)

/-- No unknown that is made while a type is normalised is free in the normal form, nor in anything
that is remembered afterwards: what is free there had been handed out before. -/
theorem free_normalize_le (hσ : σ.Reached) (ht : t.Over (· ≤ (σ.supply.count : Int))) :
    (∀ v ∈ ((Registry.normalize t).run σ).1.free, v.id ≤ σ.supply.count) ∧
      ∀ entry ∈ ((Registry.normalize t).run σ).2.registry.memo, ∀ v ∈ entry.2.free,
        v.id ≤ σ.supply.count := by
  have hfree : ∀ {u : Ty}, u.Rooted (· ≤ (σ.supply.count : Int)) (· ≤ (σ.supply.count : Int)) →
      ∀ v ∈ u.free, v.id ≤ σ.supply.count := fun hu v hv =>
    (hu.of_mentions (Ty.mentions_of_mem_free hv)).elim id id
  obtain ⟨hkept, hmade⟩ := Registry.keeping_normalize ht σ
    hσ.accounted.over.rooted
  exact ⟨hfree hmade, fun entry hentry => hfree (hkept.memo entry hentry)⟩

/-- Trees and the forests below them, which use each other. -/
def treeDecl : TypeDecl :=
  { name := "Tree", params := ["a"]
    body := .record {} [("value", .ref {} "a"), ("below", .name {} "Forest" [.ref {} "a"])] false }

def forestDecl : TypeDecl :=
  { name := "Forest", params := ["a"]
    body := .record {} [("first", .name {} "Tree" [.ref {} "a"]),
      ("others", .name {} "Forest" [.ref {} "a"])] false }

/-- The session that knows trees and forests, and has made the unknown `⟨3, 0⟩` since. -/
def orchard : Session :=
  ((Registry.freshVar 0).run ((declare forestDecl).run ((declare treeDecl).run {}).2).2).2

theorem reached_orchard : orchard.Reached :=
  .unknown 0 (.declare forestDecl (.declare treeDecl (.start 0)))

/-- A tree and a forest of the unknown. -/
def treeAndForest : Ty := .tuple [.named "Tree" [.var ⟨3, 0⟩], .named "Forest" [.var ⟨3, 0⟩]]

/-- The forest inside the tree mentions the tree's binder and is not remembered, so the other forest
gets a form of its own, with what is remembered of the tree inside. -/
theorem free_normalize_le_orchard :
    orchard.Reached ∧ treeAndForest.Over (· ≤ (orchard.supply.count : Int)) ∧
    ((∀ v ∈ ((Registry.normalize treeAndForest).run orchard).1.free,
        v.id ≤ orchard.supply.count) ∧
      ∀ entry ∈ ((Registry.normalize treeAndForest).run orchard).2.registry.memo,
        ∀ v ∈ entry.2.free, v.id ≤ orchard.supply.count) ∧
    ((Registry.normalize treeAndForest).run orchard).1.free = [⟨3, 0⟩] ∧
    ((Registry.normalize treeAndForest).run orchard).2.registry.memo.length = 2 := by
  have hover : treeAndForest.Over (· ≤ (orchard.supply.count : Int)) := by
    rw [show orchard.supply.count = 3 from by rfl]
    simp [treeAndForest]
  exact ⟨reached_orchard, hover, free_normalize_le reached_orchard hover, by rfl, by rfl⟩

end Session

end RowTypes
