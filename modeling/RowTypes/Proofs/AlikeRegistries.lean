import RowTypes.Proofs.AlikeSubstitutions
import RowTypes.Proofs.HeadExpansion
import RowTypes.Proofs.Resolution

/-!
# Declaring the same types in two sessions

Two sessions in which the same types are declared give their definitions other numbers, when other
unknowns were given out in between, and nothing else differs: references expand in the same way,
the search for cycles goes the same way and finds the same names, and a declaration is accepted by
both or refused by both.
-/

namespace RowTypes

open Ty

variable {F G : Int → Int → Prop}

theorem Definition.Alike.mono (hFG : ∀ a b, F a b → G a b) {d d' : Definition}
    (h : d.Alike F d') : d.Alike G d' :=
  ⟨h.name, h.params.imp fun _ _ hv => hv.mono hFG, h.body.mono hFG⟩

theorem Definition.Alike.expand? (hF : OneToOne F) {d d' : Definition} (h : d.Alike F d')
    {args args' : List Ty} (hargs : AlikeAll F args args') :
    Option.Rel (Ty.Alike F) (d.expand? args) (d'.expand? args') := by
  rw [Definition.expand?, Definition.expand?, hargs.length_eq, h.params.length_eq]
  split
  · exact .some ((Subst.alike_ofList hF h.params hargs).apply hF h.body)
  · exact .none

/-- Two references to one name have arguments that are alike. -/
def AlikeRefs (F : Int → Int → Prop) (R R' : String × List Ty) : Prop :=
  R.1 = R'.1 ∧ AlikeAll F R.2 R'.2

namespace Ty

mutual

theorem Alike.headRefs : ∀ {t t' : Ty}, Alike F t t' →
    List.Forall₂ (AlikeRefs F) t.headRefs t'.headRefs
  | _, _, .named _ h => .cons ⟨rfl, h⟩ .nil
  | _, _, .inter h => h.headRefs
  | _, _, .mu _ h => h.headRefs
  | _, _, .var _ | _, _, .prim _ | _, _, .lit _ | _, _, .fn _ _ | _, _, .record _ _
  | _, _, .tuple _ | _, _, .union _ => .nil

theorem AlikeAll.headRefs : ∀ {ts ts' : List Ty}, AlikeAll F ts ts' →
    List.Forall₂ (AlikeRefs F) (headRefsAll ts) (headRefsAll ts')
  | _, _, .nil => .nil
  | _, _, .cons ht hts => List.rel_append ht.headRefs hts.headRefs

end

end Ty

namespace Registry

/-- Two registries define the same names, by definitions that differ in their numbers only. -/
def Alike (F : Int → Int → Prop) (r r' : Registry) : Prop :=
  Table.Paired (Definition.Alike F) r.definitions r'.definitions

variable {r r' : Registry}

theorem Alike.mono (hFG : ∀ a b, F a b → G a b) (h : r.Alike F r') : r.Alike G r' :=
  h.imp fun _ _ hd => hd.mono hFG

theorem Alike.lookup? (h : r.Alike F r') (name : String) :
    Option.Rel (Definition.Alike F) (r.lookup? name) (r'.lookup? name) := h.get? name

theorem Alike.expand? (hF : OneToOne F) (h : r.Alike F r') (name : String) {args args' : List Ty}
    (hargs : AlikeAll F args args') :
    Option.Rel (Ty.Alike F) (r.expand? name args) (r'.expand? name args') := by
  have hlookup := h.lookup? name
  unfold Registry.expand?
  generalize r.lookup? name = x at hlookup ⊢
  generalize r'.lookup? name = x' at hlookup ⊢
  cases hlookup with
  | none => exact .none
  | some hd => exact hd.expand? hF hargs

theorem Alike.insert (h : r.Alike F r') {d d' : Definition} (hd : d.Alike F d') :
    (r.insert d).Alike F (r'.insert d') := by
  unfold Alike Registry.insert
  rw [← hd.name]
  exact Table.Paired.insert h d.name hd

/-- The search for cycles finds the same names. -/
theorem Alike.cycleWithin_eq (hF : OneToOne F) (h : r.Alike F r') : ∀ (n : Nat)
    (trail : Trail String) {t t' : Ty}, t.Alike F t' →
    r.cycleWithin n trail t = r'.cycleWithin n trail t'
  | 0, _, _, _, _ => rfl
  | n + 1, trail, _, _, ht => by
      rw [cycleWithin, cycleWithin]
      have hrefs := ht.headRefs
      generalize Ty.headRefs _ = refs at hrefs ⊢
      generalize Ty.headRefs _ = refs' at hrefs ⊢
      induction hrefs with
      | nil => rfl
      | @cons R R' _ _ hR _ ih =>
          rw [List.findSome?_cons, List.findSome?_cons, ih]
          obtain ⟨name, args⟩ := R
          obtain ⟨name', args'⟩ := R'
          obtain ⟨hname, hargs⟩ := hR
          dsimp only at hname hargs ⊢
          subst hname
          have hexpand := h.expand? hF name hargs
          generalize r.expand? name args = x at hexpand ⊢
          generalize r'.expand? name args' = x' at hexpand ⊢
          cases hexpand with
          | none => rfl
          | some hu => rw [Option.bind_some, Option.bind_some, h.cycleWithin_eq hF n _ hu]

theorem Alike.isOk_define_eq (hF : OneToOne F) (h : r.Alike F r') {d d' : Definition}
    (hd : d.Alike F d') : (r.define d).isOk = (r'.define d').isOk := by
  have hlookup : r.lookup? d.name = none ↔ r'.lookup? d.name = none := by
    have hlookup := h.lookup? d.name
    generalize r.lookup? d.name = x at hlookup ⊢
    generalize r'.lookup? d.name = x' at hlookup ⊢
    cases hlookup <;> simp
  have hcycle : r.cycle? d = r'.cycle? d' := by
    have hinsert := h.insert hd
    unfold cycle?
    dsimp only
    rw [List.Forall₂.length_eq hinsert, hd.name, hinsert.cycleWithin_eq hF _ _ hd.body]
  rw [Bool.eq_iff_iff, isOk_define, isOk_define, hcycle, hlookup, hd.name]

end Registry

namespace Session

/-- Two sessions have definitions that differ in their numbers only, and numbers that were given
out before are the only ones that correspond. -/
structure Alike (F : Int → Int → Prop) (s s' : Session) : Prop where
  oneToOne : OneToOne F
  registry : s.registry.Alike F s'.registry
  given : ∀ a b, F a b → a ≤ s.supply.count ∧ b ≤ s'.supply.count

/-- A session in which a declaration was refused: more unknowns were given out. -/
def Refused (s q : Session) : Prop := q.registry = s.registry ∧ s.supply.count ≤ q.supply.count

/-- A declaration is accepted by both sessions or refused by both. -/
theorem Alike.declare {s s' : Session} (h : s.Alike F s') (d : TypeDecl) :
    (Refused s ((declare d).run s).2 ∧ Refused s' ((declare d).run s').2) ∨
    ∃ G, (∀ a b, F a b → G a b) ∧ Alike G ((declare d).run s).2 ((declare d).run s').2 ∧
      ((declare d).run s).2.registry.memo = [] ∧ ((declare d).run s').2.registry.memo = [] := by
  have hallows : ∀ ref ∈ d.body.refs,
      s.registry.Allows ref.1 ref.2 ↔ s'.registry.Allows ref.1 ref.2 := by
    intro ref _
    have hlookup := h.registry.lookup? ref.1
    unfold Registry.Allows
    generalize s.registry.lookup? ref.1 = x at hlookup ⊢
    generalize s'.registry.lookup? ref.1 = x' at hlookup ⊢
    cases hlookup with
    | none => simp
    | some hd => simp [hd.params.length_eq]
  have hparallel : Resolve.Parallel s.supply.count s'.supply.count 0 _
      (Resolve.definition s.registry d) (Resolve.definition s'.registry d) :=
    Resolve.parallel_definition hallows
  obtain ⟨m, -, hm, hend⟩ := hparallel { supply := s.supply } { supply := s'.supply }
    ⟨rfl, rfl, .nil⟩
  cases hrun : (Resolve.definition s.registry d).run { supply := s.supply } with
  | mk res made =>
  cases hrun' : (Resolve.definition s'.registry d).run { supply := s'.supply } with
  | mk res' made' =>
  rw [hrun, hrun'] at hm hend
  have hmade : made.supply.count = s.supply.count + m := hm.count
  have hmade' : made'.supply.count = s'.supply.count + m := hm.count'
  have hcount : s.supply.count ≤ made.supply.count := hmade ▸ Nat.le_add_right _ _
  have hcount' : s'.supply.count ≤ made'.supply.count := hmade' ▸ Nat.le_add_right _ _
  cases hend with
  | error _ _ =>
      rw [run_declare_error hrun, run_declare_error hrun']
      exact .inl ⟨⟨rfl, hcount⟩, rfl, hcount'⟩
  | @ok e e' he =>
      rw [run_declare_ok hrun, run_declare_ok hrun']
      -- The numbers of the new definition correspond too, and were not given out before.
      let G := fun a b => F a b ∨ Since s.supply.count s'.supply.count m a b
      have hG : OneToOne G := by
        refine h.oneToOne.or (oneToOne_since _ _ _) ?_
        rintro a b a' b' hab ⟨i, -, rfl, rfl⟩
        have := h.given a b hab
        omega
      have hregistry : s.registry.Alike G s'.registry := h.registry.mono fun _ _ => .inl
      have hdef : e.Alike G e' := he.2.2.mono fun _ _ => .inr
      have hok := hregistry.isOk_define_eq hG hdef
      cases hdefine : s.registry.define e with
      | error _ =>
          cases hdefine' : s'.registry.define e' with
          | error _ =>
              rw [run_define_error (s := { s with supply := made.supply }) hdefine,
                run_define_error (s := { s' with supply := made'.supply }) hdefine']
              exact .inl ⟨⟨rfl, hcount⟩, rfl, hcount'⟩
          | ok _ => rw [hdefine, hdefine'] at hok; cases hok
      | ok q =>
          cases hdefine' : s'.registry.define e' with
          | error _ => rw [hdefine, hdefine'] at hok; cases hok
          | ok q' =>
              rw [run_define_ok (s := { s with supply := made.supply }) hdefine,
                run_define_ok (s := { s' with supply := made'.supply }) hdefine']
              rw [(Registry.define_eq_ok hdefine).2.2, (Registry.define_eq_ok hdefine').2.2]
              refine .inr ⟨G, fun _ _ => .inl, ⟨hG, hregistry.insert hdef, ?_⟩, rfl, rfl⟩
              show ∀ a b, _ → a ≤ (made.supply.count : Int) ∧ b ≤ (made'.supply.count : Int)
              rintro a b (hab | ⟨i, hi, rfl, rfl⟩)
              · have := h.given a b hab
                omega
              · omega

end Session

end RowTypes
