import RowTypes.Proofs.ClosedDefinitions
import RowTypes.Proofs.EndingAnalysis
import RowTypes.Proofs.Forgetting
import RowTypes.Proofs.GroundedForms

/-!
# Analysing a match on a normal form ends

A match is analysed on the normal form of its scrutinee's type.  Normal forms are grounded if no
reference that is expanded comes back to itself at the head, and on a grounded type the analysis
ends: each unfolding brings a head closer.

Declaring types does not ensure the condition.  A definition may be waiting for another one and then
be closed by it, as `A = F[A]` is by `F[a] = a`, and the check for cycles stops at unions, so that
`A = A | Int` is accepted.  Both are normalised to a recursive type whose binder stands at the head
of its body, and whether a pattern could match a value of it is never found out.  Three more things
that the analysis relies on are asked for here.  The recursive types that the type itself consists
of are guarded.  No number of a free unknown of the type was given to a binder.  And the references
that the type leads to have digests of their own, or else the form of another reference would be
taken for theirs.
-/

namespace RowTypes

open Ty

/-! ## Declared types -/

namespace Resolve

theorem composed_formed (vars : Table String TyVar) :
    Composed vars (Formed (fun _ _ => False) (Named vars)) where
  var _ := .var
  prim := .prim
  lit := .lit
  fn := .fn
  record := .record none
  tuple := .tuple
  union _ := formed_of (k := .union)
  inter _ := formed_of (k := .inter)
  named name _ := .named name

/-- A declaration comes to a parametric definition. -/
theorem ends_definition_parametric {r : Registry} (d : TypeDecl) (supply : Supply) :
    Ends (definition r d) { supply } (fun e _ => e.Parametric) fun _ _ => True := by
  unfold definition
  refine Ends.bind (ends_declareParams_named.imp (fun params q hparams => ?_) fun _ _ h => h)
  refine Ends.bind ((ends_resolve_composed (composed_formed _) rfl rfl
    (.inr fun _ v => .record (some v))).imp (fun body q' hbody => ?_) fun _ _ h => h)
  refine ends_pure (hbody.2.mono (fun _ _ h => h) fun id hid => ?_)
  exact (hparams id hid).resolve_right fun ⟨_, hentry, _⟩ => nomatch hentry

end Resolve

namespace Session

variable {roots : Ty → Prop} {P : Int → Prop} {L : Reference → Prop} {s : Session} {r : Registry}
  {t : Ty}

/-- A declaration leaves the registry as it is, or adds a parametric definition. -/
theorem registry_declare (d : TypeDecl) (s : Session) :
    ((declare d).run s).2.registry = s.registry ∨
      ∃ e : Definition, e.Parametric ∧ ((declare d).run s).2.registry = s.registry.insert e := by
  have h := ends_declare_of (Resolve.ends_definition_parametric (r := s.registry) d s.supply)
  unfold Ends at h
  split at h
  · next heq =>
      obtain ⟨e, he, hdef⟩ := h
      rw [heq]
      exact .inr ⟨e, he, (Registry.define_eq_ok hdef).2.2⟩
  · next heq =>
      rw [heq]
      exact .inl h

/-! ## The course of a session -/

/-- A session that began without definitions.  Types were declared, which may have failed, unknowns
were made, and some types were normalised, which consist of numbers that were given out by then.  No
binder was given the number of a free unknown. -/
inductive Queried (roots : Ty → Prop) (P : Int → Prop) : Session → Prop where
  | start : Queried roots P {}
  | declare {s : Session} (d : TypeDecl) : Queried roots P s →
      Queried roots P ((declare d).run s).2
  | unknown {s : Session} (level : Int) : Queried roots P s →
      Queried roots P ((Registry.freshVar level).run s).2
  | normalize {s : Session} {t : Ty} : Queried roots P s → roots t → t.Given s.supply.count →
      Registry.Regular.Clean P s ((Registry.normalize t).run s).2 →
      Queried roots P ((Registry.normalize t).run s).2

theorem Queried.parametric (h : s.Queried roots P) : s.registry.Parametric := by
  induction h with
  | start => exact fun _ _ hd => by cases hd
  | @declare s d _ ih =>
      rcases registry_declare d s with hsame | ⟨e, he, hinsert⟩
      · rwa [hsame]
      · intro name d' hd
        rw [hinsert, Registry.lookup?_insert] at hd
        split at hd
        · cases hd
          exact he
        · exact ih name d' hd
  | unknown _ _ ih => exact ih
  | @normalize s t _ _ _ _ ih =>
      intro name d hd
      unfold Registry.lookup? at hd
      rw [(Registry.quiet_normalize t s).1] at hd
      exact ih name d hd

/-- Once the definitions are those of a registry, everything that is remembered is a grounded form:
the last definition made forget what was remembered before. -/
theorem Queried.grounding (h : s.Queried roots P) (hr : r.Parametric) (hknots : r.Unknotted L)
    (hdigests : r.Distinguished roots L) (hdef : s.registry.definitions = r.definitions) :
    r.Grounding roots L P s.supply.count [] s := by
  refine ⟨hdef, Nat.le_refl _, fun id hid => absurd hid Registry.not_pending_nil, ?_⟩
  induction h with
  | start => exact fun _ _ _ hu => by cases hu
  | @declare s d _ ih =>
      rcases registry_declare d s with hsame | ⟨e, -, hinsert⟩
      · rw [hsame] at hdef ⊢
        exact ih hdef
      · rw [hinsert]
        exact fun _ _ _ hu => by cases hu
  | unknown _ _ ih => exact ih hdef
  | @normalize s t _ ht hgiven hclean ih =>
      rw [(Registry.quiet_normalize t s).1] at hdef
      have hs : r.Grounding roots L P s.supply.count [] s :=
        ⟨hdef, Nat.le_refl _, fun id hid => absurd hid Registry.not_pending_nil, ih hdef⟩
      exact (Registry.grounded_normalize hr hknots hdigests ht hgiven s hs hclean).1.memo

end Session

/-! ## The analysis -/

theorem Ty.productive_grounded (P : Int → Prop) : Productive (Formed (Grounds P) P) where
  toInherited := inherited_grounded
  lowers := Formed.tower_unfold_le

namespace Session

variable {roots : Ty → Prop} {P : Int → Prop} {s : Session} {t : Ty}

/-- In any session, the normal form of a type is grounded. -/
theorem formed_normalize (hs : s.Queried roots P) (ht : roots t) (hgiven : t.Given s.supply.count)
    (hP : ∀ id, P id → id ≤ (s.supply.count : Int)) (hguards : t.Formed (s.registry.Guards P) P)
    (hknots : ∀ R e, s.registry.Reaches t R → s.registry.expand? R.1 R.2 = some e →
      ¬ s.registry.Surfaces R.ty e)
    (hdigests : s.registry.Distinguished roots (s.registry.Reaches t)) :
    ((Registry.normalize t).run s).1.Formed (Grounds P) P := by
  have hunknotted : s.registry.Unknotted (s.registry.Reaches t) :=
    ⟨Registry.Reaches.next, fun hR he => hknots _ _ hR he⟩
  have hclean : Registry.Regular.Clean P s ((Registry.normalize t).run s).2 := by
    intro id hlt _ hid
    have := hP id hid
    omega
  have hform := (Registry.grounded_normalize hs.parametric hunknotted hdigests ht hgiven s
    (hs.grounding hs.parametric hunknotted hdigests rfl) hclean).2
  obtain ⟨hx, -⟩ := hform P hguards fun R hR => ⟨[], .start rfl hR⟩
  exact hx.mono (fun _ _ h => h) fun id hid => hid.resolve_right Registry.not_pending_nil

/-- Analysing a match on the normal form of a type ends, and so do asking whether a pattern could
match, narrowing and refining, if no reference that the type leads to comes back to itself at the
head. -/
theorem comesTo_analysis_normalize (hs : s.Queried roots P) (ht : roots t)
    (hgiven : t.Given s.supply.count) (hP : ∀ id, P id → id ≤ (s.supply.count : Int))
    (hguards : t.Formed (s.registry.Guards P) P)
    (hknots : ∀ R e, s.registry.Reaches t R → s.registry.expand? R.1 R.2 = some e →
      ¬ s.registry.Surfaces R.ty e)
    (hdigests : s.registry.Distinguished roots (s.registry.Reaches t)) :
    let x := ((Registry.normalize t).run s).1
    (∀ p : Pattern, ComesTo (p.compatibleWithin · x) (p.compatible x)) ∧
    (∀ p : Pattern, ComesTo (x.narrowWithin · p) (x.narrow p)) ∧
    (∀ p : Pattern, ComesTo (p.refineWithin · x) (p.refine x)) ∧
    ∀ ps : List Pattern, ComesTo (Analysis.within · x ps) (Analysis.ofMatch x ps) := by
  have hx := formed_normalize hs ht hgiven hP hguards hknots hdigests
  have hQ := productive_grounded P
  exact ⟨fun p => Pattern.comesTo_compatible hQ hx, comesTo_narrow hQ hx,
    Pattern.comesTo_refine hQ hx, Analysis.comesTo_ofMatch hQ hx⟩

/-- Numbers and lists were declared, and an unknown was made. -/
def declared : Session :=
  ((Registry.freshVar 0).run ((declare listDecl).run ((declare natDecl).run {}).2).2).2

/-- Then a list of numbers was normalised. -/
def asked : Session := ((Registry.normalize nats).run declared).2

def unknowns : Ty := .named "List" [.var ⟨2, 0⟩]

theorem definitions_asked :
    asked.registry.definitions = [("List", listDefinition ⟨1, 0⟩), ("Nat", natDefinition)] := by
  with_unfolding_all rfl

theorem expand?_unknowns : asked.registry.expand? "List" [.var ⟨2, 0⟩] =
    some (.union [.lit "nil", .record [("head", .var ⟨2, 0⟩), ("tail", unknowns)] none]) :=
  expand?_list definitions_asked (by rintro _ ⟨⟩; decide)

theorem guarded_asked : asked.registry.Guarded := by
  refine Registry.guarded_of_headed fun name d hd => ?_
  rcases List.mem_pair.1 (definitions_asked ▸ Table.mem_of_get? hd) with h | h <;> cases h <;>
    exact .union (List.forall_mem_cons.2 ⟨.head rfl, List.forall_mem_singleton.2 (.head rfl)⟩)

theorem toldApartByDigest_asked :
    asked.registry.ToldApartByDigest fun u => u = nats ∨ u = unknowns := by
  have hlist := lookup?_list definitions_asked
  have hnat := lookup?_nat definitions_asked
  refine Registry.toldApartByDigest_of_mem
    [("List", [.named "Nat" []]), ("Nat", []), ("List", [.var ⟨2, 0⟩])] ?_ ?_ ?_
  · rintro _ (rfl | rfl) <;> simp [nats, unknowns, Registry.visible, hlist]
  · simp only [List.forall_mem_cons, expand?_nats definitions_asked, expand?_nat definitions_asked,
      expand?_unknowns]
    refine ⟨?_, ?_, ?_, List.forall_mem_nil _⟩ <;> rintro _ ⟨⟩ <;>
      simp [nats, unknowns, natDefinition, Registry.visible, Registry.visibleAll,
        Registry.visibleFields, hlist, hnat]
  · have : Reference.digest ("List", [.named "Nat" []]) ≠ Reference.digest ("Nat", []) := by
      decide +kernel
    have : Reference.digest ("List", [.named "Nat" []]) ≠
        Reference.digest ("List", [.var ⟨2, 0⟩]) := by decide +kernel
    have : Reference.digest ("Nat", []) ≠ Reference.digest ("List", [.var ⟨2, 0⟩]) := by
      decide +kernel
    simp [*, Ne.symm]

/-- A match on a list of values that are not known, after a list of numbers was normalised. -/
theorem comesTo_analysis_unknowns :
    asked.Queried (fun u => u = nats ∨ u = unknowns) (· = 2) ∧
    unknowns.Given asked.supply.count ∧
    (∀ id : Int, id = 2 → id ≤ (asked.supply.count : Int)) ∧
    unknowns.Formed (asked.registry.Guards (· = 2)) (· = 2) ∧
    (∀ R e, asked.registry.Reaches unknowns R → asked.registry.expand? R.1 R.2 = some e →
      ¬ asked.registry.Surfaces R.ty e) ∧
    asked.registry.Distinguished (fun u => u = nats ∨ u = unknowns)
      (asked.registry.Reaches unknowns) ∧
    ComesTo (Analysis.within · ((Registry.normalize unknowns).run asked).1
        [.literal {} .string "nil", .wildcard {}])
      (Analysis.ofMatch ((Registry.normalize unknowns).run asked).1
        [.literal {} .string "nil", .wildcard {}]) := by
  have hcount : asked.supply.count = 4 := by with_unfolding_all rfl
  have hqueried : asked.Queried (fun u => u = nats ∨ u = unknowns) (· = 2) := by
    have hdeclared : declared.supply.count = 2 := by with_unfolding_all rfl
    have hnats : nats.Given declared.supply.count :=
      .named _ (List.forall_mem_singleton.2 (.named _ (List.forall_mem_nil _)))
    refine .normalize (.unknown 0 (.declare _ (.declare _ .start))) (.inl rfl) hnats ?_
    intro id hlt _ hid
    change (declared.supply.count : Int) < id at hlt
    omega
  have hgiven : unknowns.Given asked.supply.count := by
    rw [hcount]
    exact .named _ (List.forall_mem_singleton.2 (.var (by decide)))
  have hP : ∀ id : Int, id = 2 → id ≤ (asked.supply.count : Int) := by
    rintro _ rfl
    rw [hcount]
    decide
  have hguards : unknowns.Formed (asked.registry.Guards (· = 2)) (· = 2) :=
    .named _ (List.forall_mem_singleton.2 (.var rfl))
  have hknots : ∀ R e, asked.registry.Reaches unknowns R →
      asked.registry.expand? R.1 R.2 = some e → ¬ asked.registry.Surfaces R.ty e :=
    fun _ _ => (Registry.unknotted_of_guarded hqueried.parametric guarded_asked
      Registry.Reaches.next).not_surfaces
  have hdigests : asked.registry.Distinguished (fun u => u = nats ∨ u = unknowns)
      (asked.registry.Reaches unknowns) := fun R S _ => toldApartByDigest_asked R S
  exact ⟨hqueried, hgiven, hP, hguards, hknots, hdigests,
    (comesTo_analysis_normalize hqueried (.inr rfl) hgiven hP hguards hknots hdigests).2.2.2 _⟩

/-- The definition of `A = F[A]`, which waits for that of `F`. -/
def waitingDecl : TypeDecl where
  name := "A"
  body := .name {} "F" [.name {} "A" []]

/-- The definition of `F[a] = a`. -/
def forwardDecl : TypeDecl where
  name := "F"
  params := ["a"]
  body := .ref {} "a"

/-- A definition that waits for another one and is closed by it becomes a recursive type that is its
own head. -/
example (n : ℕ) :
    Pattern.compatibleWithin n (.literal {} .string "end")
      ((Registry.normalize (.named "A" [])).run
        ((declare forwardDecl).run ((declare waitingDecl).run {}).2).2).1 = none := by
  have hform : ((Registry.normalize (.named "A" [])).run
      ((declare forwardDecl).run ((declare waitingDecl).run {}).2).2).1 =
        .mu ⟨2, 0⟩ (.var ⟨2, 0⟩) := by with_unfolding_all rfl
  rw [hform]
  exact Pattern.compatibleWithin_knot rfl ⟨2, 0⟩ n

end Session

end RowTypes
