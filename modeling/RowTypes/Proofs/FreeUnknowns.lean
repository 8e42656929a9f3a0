import RowTypes.Proofs.Idempotence
import RowTypes.Proofs.MustBuild

/-!
# Free unknowns and what replaces them

Three walks over a type have to agree on what is free in it.  The occurs check looks for one
unknown and passes by each binder of its number; the set of free unknowns is collected with the
binders further out at hand; and a substitution drops its binding of a binder before it goes below
it.  The check and the set agree on every type, also where a binder is used again below itself.

What is free in a type after a substitution was free in it before and is not bound, or is free in
what a free unknown is bound to.  A union that is built anew may lose alternatives, a field may hide
one that a row brings along, and a binder may catch an unknown that is put below it, but all of that
only takes free unknowns away.  The one thing to ask for is that what rows are bound to takes their
place.

So what is bound is gone, if it is not free in what anything is bound to.  To apply the substitution
once more is then to build anew what it left, and of a canonical type it leaves a canonical one,
which is stable.  That applying it twice is the same as applying it once would be too little to ask
for: an unknown that is bound to a union with itself among the alternatives is not gone.
-/

namespace RowTypes

/-- The occurs check finds an unknown exactly if it is one of the free unknowns. -/
theorem Ty.occurs_eq_has_free (t : Ty) (v : TyVar) : t.occurs v = t.free.has v := by
  rw [Bool.eq_iff_iff, occurs_iff_mentions, has_free]

namespace Subst

variable {plain row : Int → Prop} {s : Subst} {t u : Ty} {v : TyVar} {id : Int}

theorem mem_range_of_get? (h : s.get? id = some u) : u ∈ s.range := by
  obtain ⟨b, hb, rfl⟩ := Option.map_eq_some_iff.1 h
  exact List.mem_map.2 ⟨(id, b), Table.mem_of_get? hb, rfl⟩

/-- What is free after a substitution was free before and is not bound, or is free in what a free
unknown is bound to. -/
theorem has_free_apply (hs : s.ReplacesRows row) (ht : t.Kinded plain row)
    (hv : (s.apply t).free.has v = true) :
    (t.free.has v = true ∧ s.lookup? v = none) ∨
      ∃ w ∈ t.free, ∃ u, s.lookup? w = some u ∧ u.free.has v = true := by
  rcases leaves_of_mentions_apply hs ht (Ty.has_free.1 hv) with ⟨hid, hnone⟩ | ⟨j, u, hj, hu, hid⟩
  · exact .inl ⟨Ty.has_free.2 hid, hnone⟩
  · obtain ⟨w, hw, rfl⟩ := Ty.exists_mem_free hj
    exact .inr ⟨w, hw, u, hu, Ty.has_free.2 hid⟩

/-- After an idempotent substitution nothing that it binds is free. -/
theorem Idempotent.get?_eq_none (h : s.Idempotent) (hs : s.ReplacesRows row)
    (ht : t.Kinded plain row) (hid : (s.apply t).Mentions id) : s.get? id = none := by
  rcases leaves_of_mentions_apply hs ht hid with ⟨-, hnone⟩ | ⟨j, u, -, hu, hid⟩
  · exact hnone
  · exact h j u hu id hid

/-- What an idempotent substitution leaves of a canonical type stays as it is. -/
theorem Idempotent.apply_apply (h : s.Idempotent) (hs : s.ReplacesRows row)
    (ht : t.Kinded plain row) (hc : (s.apply t).Canonical) : s.apply (s.apply t) = s.apply t :=
  hc.stable.apply_eq_self fun _ => h.get?_eq_none hs ht

/-- A type may stay as it is without that, though what is bound is left in it. -/
example : (single ⟨1, 0⟩ (.union [.var ⟨1, 0⟩, .int])).apply (.union [.var ⟨1, 0⟩, .int]) =
    .union [.var ⟨1, 0⟩, .int] := by
  cbv

/-- The occurs check, the set of free unknowns and substitutions agree on what is free in a type.
Where rows are bound to records or unknowns only, no other unknowns are free after a substitution
than the free ones that are not bound and those of what the free ones are bound to.  An idempotent
substitution leaves nothing that it binds; and applied to a canonical type, with canonical types in
its range, it comes to something without building from nothing, and when it is applied again it
comes to the same. -/
theorem occurs_free_apply_agree (s : Subst) (t : Ty) :
    (∀ v : TyVar, t.occurs v = t.free.has v) ∧
      ∀ {row : Int → Prop}, s.ReplacesRows row → t.Kinded (fun _ => True) row →
        (∀ v : TyVar, (s.apply t).free.has v = true →
          (t.free.has v = true ∧ s.lookup? v = none) ∨
            ∃ w ∈ t.free, ∃ u, s.lookup? w = some u ∧ u.free.has v = true) ∧
        (s.Idempotent →
          (∀ v : TyVar, s.lookup? v ≠ none → (s.apply t).free.has v = false) ∧
          (t.Canonical → (∀ u ∈ s.range, u.Canonical) →
            s.apply (s.apply t) = s.apply t ∧ Must.apply s t = some (s.apply t) ∧
              Must.apply s (s.apply t) = some (s.apply t))) := by
  refine ⟨t.occurs_eq_has_free, fun hs ht => ⟨fun v => has_free_apply hs ht, fun h => ⟨?_, ?_⟩⟩⟩
  · intro v hbound
    rw [Bool.eq_false_iff]
    exact fun hfree => hbound (h.get?_eq_none hs ht (Ty.has_free.1 hfree))
  · intro hcanonical hrange
    have hrange' : ∀ id u, s.get? id = some u → u.Canonical := fun id u hu =>
      hrange u (mem_range_of_get? hu)
    obtain ⟨hmust, hc⟩ := Must.apply_of_get? hcanonical hrange'
    have htwice := h.apply_apply hs ht hc
    obtain ⟨hmust', -⟩ := Must.apply_of_get? hc hrange'
    exact ⟨htwice, hmust, by rw [hmust', htwice]⟩

/-! ### An instance

Two alternatives become one, a field hides one that a row brings along, a row is renamed below a
binder that is used twice, and a binder catches an unknown. -/

/-- `t1 ↦ Int → t3`, `t7 ↦ {x: String, z: t3 | t5}`, `t8 ↦ t6`. -/
def scattering : Subst :=
  ((empty.bind ⟨1, 0⟩ (.fn .int (.var ⟨3, 0⟩))).bind ⟨7, 0⟩
    (.record [("x", .string), ("z", .var ⟨3, 0⟩)] (some ⟨5, 0⟩))).bind ⟨8, 0⟩ (.var ⟨6, 0⟩)

/-- `(t1 | Int → t3 | {x: t1 | t7}, μt1. t1 → μt1. {y: t1 | t8}, μt3. t3 → t1)`. -/
def shadowing : Ty := .tuple [
  .union [.var ⟨1, 0⟩, .fn .int (.var ⟨3, 0⟩), .record [("x", .var ⟨1, 0⟩)] (some ⟨7, 0⟩)],
  .mu ⟨1, 0⟩ (.fn (.var ⟨1, 0⟩) (.mu ⟨1, 0⟩ (.record [("y", .var ⟨1, 0⟩)] (some ⟨8, 0⟩)))),
  .mu ⟨3, 0⟩ (.fn (.var ⟨3, 0⟩) (.var ⟨1, 0⟩))]

theorem forall_scattering {p : Int → Ty → Prop} (h₁ : p 1 (.fn .int (.var ⟨3, 0⟩)))
    (h₇ : p 7 (.record [("x", .string), ("z", .var ⟨3, 0⟩)] (some ⟨5, 0⟩)))
    (h₈ : p 8 (.var ⟨6, 0⟩)) : ∀ id u, scattering.get? id = some u → p id u := by
  intro id u hu
  obtain ⟨b, hb, rfl⟩ := Option.map_eq_some_iff.1 hu
  have hmem := Table.mem_of_get? hb
  have hbindings : scattering.bindings = [(1, ⟨⟨1, 0⟩, .fn .int (.var ⟨3, 0⟩)⟩),
    (7, ⟨⟨7, 0⟩, .record [("x", .string), ("z", .var ⟨3, 0⟩)] (some ⟨5, 0⟩)⟩),
    (8, ⟨⟨8, 0⟩, .var ⟨6, 0⟩⟩)] := by cbv
  rw [hbindings] at hmem
  simp only [List.mem_cons, Prod.mk.injEq, List.not_mem_nil, or_false] at hmem
  rcases hmem with ⟨rfl, rfl⟩ | ⟨rfl, rfl⟩ | ⟨rfl, rfl⟩
  · exact h₁
  · exact h₇
  · exact h₈

/-- The numbers of the rows. -/
def shadowedRows (id : Int) : Prop := id = 7 ∨ id = 8

theorem replacesRows_scattering : scattering.ReplacesRows shadowedRows := by
  have hrows : ∀ id u, scattering.get? id = some u → shadowedRows id →
      (∃ fs rest, u = .record fs rest) ∨ ∃ v, u = .var v :=
    forall_scattering (by simp [shadowedRows]) (fun _ => .inl ⟨_, _, rfl⟩) fun _ => .inr ⟨_, rfl⟩
  exact fun id u hrow hu => hrows id u hu hrow

theorem kinded_shadowing : shadowing.Kinded (fun _ => True) shadowedRows := by
  simp [shadowing, Ty.Kinded, Ty.KindedAll, Ty.KindedFields, Ty.int, shadowedRows]

theorem idempotent_scattering : scattering.Idempotent := by
  refine forall_scattering ?_ ?_ ?_
  · intro j hj
    obtain rfl : 3 = j := by simpa [Ty.int] using hj
    rfl
  · intro j hj
    obtain rfl | rfl : 3 = j ∨ 5 = j := by simpa [Ty.string] using hj
    · rfl
    · rfl
  · intro j hj
    obtain rfl : 6 = j := Ty.mentions_var.1 hj
    rfl

theorem canonical_shadowing : shadowing.Canonical := by
  have hrecord : ∀ name id row,
      (Ty.record [(name, .var ⟨id, 0⟩)] (some ⟨row, 0⟩)).Canonical := fun _ _ _ =>
    .record _ (List.forall_mem_singleton.2 (.var _))
  have hunion : (Ty.union [.var ⟨1, 0⟩, .fn .int (.var ⟨3, 0⟩),
      .record [("x", .var ⟨1, 0⟩)] (some ⟨7, 0⟩)]).Canonical :=
    .union (by decide) (by simpa using ⟨.var _, .fn (.prim _) (.var _), hrecord _ _ _⟩) (by simp)
      (by simp [Ty.equiv, Ty.equivUnder])
  refine .tuple ?_
  simpa using ⟨hunion, .mu _ (.fn (.var _) (.mu _ (hrecord _ _ _))), .mu _ (.fn (.var _) (.var _))⟩

theorem canonical_scattering : ∀ u ∈ scattering.range, u.Canonical := by
  have hrange : scattering.range = [.fn .int (.var ⟨3, 0⟩),
    .record [("x", .string), ("z", .var ⟨3, 0⟩)] (some ⟨5, 0⟩), .var ⟨6, 0⟩] := by cbv
  have hrecord : (Ty.record [("x", .string), ("z", .var ⟨3, 0⟩)] (some ⟨5, 0⟩)).Canonical :=
    .record _ (by simpa using ⟨.prim _, .var _⟩)
  rw [hrange]
  simpa using ⟨.fn (.prim _) (.var _), hrecord, .var _⟩

theorem occurs_free_apply_agree_shadowing :
    (∀ v : TyVar, shadowing.occurs v = shadowing.free.has v) ∧
      (∀ v : TyVar, (scattering.apply shadowing).free.has v = true →
        (shadowing.free.has v = true ∧ scattering.lookup? v = none) ∨
          ∃ w ∈ shadowing.free, ∃ u, scattering.lookup? w = some u ∧ u.free.has v = true) ∧
      (∀ v : TyVar, scattering.lookup? v ≠ none →
        (scattering.apply shadowing).free.has v = false) ∧
      scattering.apply (scattering.apply shadowing) = scattering.apply shadowing ∧
      Must.apply scattering shadowing = some (scattering.apply shadowing) ∧
      Must.apply scattering (scattering.apply shadowing) = some (scattering.apply shadowing) := by
  obtain ⟨hoccurs, happly⟩ := occurs_free_apply_agree scattering shadowing
  obtain ⟨hfree, hidempotent⟩ := happly replacesRows_scattering kinded_shadowing
  obtain ⟨hgone, hagain⟩ := hidempotent idempotent_scattering
  exact ⟨hoccurs, hfree, hgone, hagain canonical_shadowing canonical_scattering⟩

/-- The alternative that the first one became is dropped, and the field that was there stays. -/
example : scattering.apply shadowing = .tuple [
    .union [.fn .int (.var ⟨3, 0⟩),
      .record [("x", .fn .int (.var ⟨3, 0⟩)), ("z", .var ⟨3, 0⟩)] (some ⟨5, 0⟩)],
    .mu ⟨1, 0⟩ (.fn (.var ⟨1, 0⟩) (.mu ⟨1, 0⟩ (.record [("y", .var ⟨1, 0⟩)] (some ⟨6, 0⟩)))),
    .mu ⟨3, 0⟩ (.fn (.var ⟨3, 0⟩) (.fn .int (.var ⟨3, 0⟩)))] := by
  cbv

end Subst

end RowTypes
