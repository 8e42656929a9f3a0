import Mathlib.Algebra.Order.BigOperators.Group.List
import RowTypes.Proofs.RecursiveUnification
import RowTypes.Proofs.Replaying

/-!
# Subtyping of recursive records

Two names that stand for records are related by assuming that they are, and relating the records by
width: the common fields are unified, and the smaller record may have more.  The fields are unified
in the run that has assumed the pair of names.  If they come back to that pair, unification lets it
pass, although only the one-sided relation was assumed; then nothing is known about whether the
names unify.  So what subtyping shows about a field is what unifying its types shows, if they never
come back to the pair, or if neither record has more fields than the other, so that the assumption
says no more than unification would.
-/

namespace RowTypes

namespace Ty

/-- Records that are equivalent have the same names, with equivalent types. -/
theorem equiv_of_record {fs gs : List (String × Ty)} {row row' : Option TyVar}
    (hfs : Table.Ascending fs) (hgs : Table.Ascending gs)
    (h : (Ty.record fs row).equiv (.record gs row') = true) {g : String × Ty} (hg : g ∈ gs) :
    ∃ t, Table.get? g.1 fs = some t ∧ t.equiv g.2 = true := by
  have hname := ((equiv_record hfs hgs).1 h).2 g.1
  rw [Table.get?_of_mem hgs hg] at hname
  generalize Table.get? g.1 fs = x at hname
  cases hname with
  | some ht => exact ⟨_, rfl, ht⟩

end Ty

namespace Relate

/-! ## What subtyping of records reveals -/

section Reveals

variable {r : Registry} {C M : Comparison → Prop} {ctx : Context} {unify : Relation}

theorem reveals_unifyWidth {sub super : RecordTy} : ∀ {gs : List (String × Ty)},
    (∀ g ∈ gs, ∀ t, sub.field? g.1 = some t →
      Reveals r C M (unify t g.2) fun S => S ⟨true, t, g.2⟩) →
      Reveals r C M (unifyWidth ctx unify sub super gs .empty) fun S =>
        ∀ g ∈ gs, ∀ t, sub.field? g.1 = some t → S ⟨true, t, g.2⟩
  | [], _ => reveals_pure (by simp)
  | g :: gs, h => by
      obtain ⟨hhead, htail⟩ := List.forall_mem_cons.1 h
      rw [unifyWidth]
      split
      · next hnone =>
          refine (reveals_unifyWidth htail).mono fun S hS => List.forall_mem_cons.2 ⟨?_, hS⟩
          intro t ht
          rw [hnone] at ht
          cases ht
      · next t ht =>
          rw [Subst.apply_empty, Subst.apply_empty]
          refine ((reveals_orElseThrow (hhead t ht)).bind (monotone_comparison ⟨true, t, g.2⟩)
            (R := fun S => ∀ g ∈ gs, ∀ t, sub.field? g.1 = some t → S ⟨true, t, g.2⟩) ?_ ?_).mono ?_
          · exact reveals_unifyWidth htail
          · exact fun _ _ hS h g hg t ht => hS _ (h g hg t ht)
          · refine fun S hS => List.forall_mem_cons.2 ⟨fun u hu => ?_, hS.2⟩
            obtain rfl : t = u := Option.some.inj (ht.symm.trans hu)
            exact hS.1

/-- A closed record is below another if it has all of its fields, with types that unify. -/
theorem reveals_subtypeRecords {fs gs : List (String × Ty)}
    (h : ∀ g ∈ gs, ∀ t, Table.get? g.1 fs = some t →
      Reveals r C M (unify t g.2) fun S => S ⟨true, t, g.2⟩) :
    Reveals r C M (subtypeRecords ctx unify ⟨fs, none⟩ ⟨gs, none⟩) fun S =>
      ∀ g ∈ gs, ∃ t, Table.get? g.1 fs = some t ∧ S ⟨true, t, g.2⟩ := by
  refine ((reveals_unifyWidth h).bind (fun _ _ hS h g hg t ht => hS _ (h g hg t ht))
    (R := fun _ => ∀ g ∈ gs, ∃ t, Table.get? g.1 fs = some t) ?_ fun _ _ _ h => h).mono ?_
  · dsimp only
    split
    · next hmissing =>
        refine reveals_pure fun _ g hg => Option.isSome_iff_exists.1 ?_
        rw [List.isEmpty_iff, List.filter_eq_nil_iff] at hmissing
        simpa [RecordTy.field?, Option.isSome_iff_ne_none] using
          hmissing g.1 (List.mem_map_of_mem hg)
    · exact reveals_throw _
  rintro S ⟨hS, hall⟩ g hg
  obtain ⟨t, ht⟩ := hall g hg
  exact ⟨t, ht, hS g hg t ht⟩

end Reveals

/-! ## Relating two names of records -/

section Names

variable {ctx : Context} {a b : Ty} {p : Progress} {A B : String} {fs gs : List (String × Ty)}
  {C M : Comparison → Prop} {Q : (Comparison → Prop) → Prop}

theorem ends_assume {f : Bool → Relate Subst} {ok : Subst → Progress → Prop}
    {err : Diagnostic → Progress → Prop} (hnew : pairDigest a b ∉ p.assumed)
    (h : Ends (f false) { p with assumed := pairDigest a b :: p.assumed } ok err) :
    Ends (assume a b >>= f) p ok err := by
  refine Ends.bind ?_
  rw [Ends, run_assume, if_neg (by simpa using hnew)]
  exact h

theorem ends_expand {f : Ty → Relate Subst} {name : String} {args : List Ty} {t : Ty}
    {ok : Subst → Progress → Prop} {err : Diagnostic → Progress → Prop}
    (ht : ctx.registry.expand? name args = some t) (h : Ends (f t) p ok err) :
    Ends (expand ctx name args >>= f) p ok err := by
  obtain ⟨d, hd, ht⟩ := Option.bind_eq_some_iff.1 ht
  refine Ends.bind ?_
  unfold expand
  rw [hd]
  dsimp only
  rw [ht]
  exact ends_pure h

theorem equiv_names (hne : A ≠ B) : (Ty.named A []).equiv (.named B []) = false := by
  rw [Bool.eq_false_iff]
  exact fun h => hne (Ty.equiv_named.1 h).1

/-- What is assumed when the common fields of two named records are unified: the names, and the first
record with the second name. -/
def assumedOfNames (A B : String) (fs : List (String × Ty)) : List Digest :=
  [pairDigest (.record fs none) (.named B []), pairDigest (.named A []) (.named B [])]

/-- Relating two names of records assumes that they are related, and relates the records. -/
theorem ends_subtype_names {n : Nat} (hA : ctx.registry.expand? A [] = some (.record fs none))
    (hB : ctx.registry.expand? B [] = some (.record gs none)) (hne : A ≠ B)
    (hapart : 2 ≤ n → pairDigest (.record fs none) (.named B []) ≠
      pairDigest (.named A []) (.named B []))
    (hfields : ∀ k, n = k + 3 → Reveals ctx.registry C M
      (subtypeRecords ctx (Relate.unify ctx k) ⟨fs, none⟩ ⟨gs, none⟩) Q) :
    Ends (Relate.subtype ctx n (.named A []) (.named B [])) { supply := p.supply }
      (fun _ q => (Ty.record fs none).equiv (.record gs none) = true ∨
        ∃ shown, Supports ctx.registry C M (assumedOfNames A B fs) q.assumed shown ∧
          Q (Backed M (assumedOfNames A B fs) shown)) fun _ _ => True := by
  obtain _ | n := n
  · exact ends_exceed trivial
  show Ends (subtypeStep ctx (Relate.unify ctx n) (Relate.subtype ctx n) _ _) _ _ _
  unfold subtypeStep
  rw [if_neg (by simp [equiv_names hne])]
  refine ends_assume List.not_mem_nil (ends_expand hA ?_)
  obtain _ | n := n
  · exact ends_exceed trivial
  show Ends (subtypeStep ctx (Relate.unify ctx n) (Relate.subtype ctx n) _ _) _ _ _
  unfold subtypeStep
  rw [if_neg (by simp [Ty.equiv, Ty.equivUnder])]
  refine ends_assume ?_ (ends_expand hB ?_)
  · exact fun h => hapart (by omega) (List.mem_singleton.1 h)
  obtain _ | n := n
  · exact ends_exceed trivial
  show Ends (subtypeStep ctx (Relate.unify ctx n) (Relate.subtype ctx n) _ _) _ _ _
  unfold subtypeStep
  split
  · next heq => exact ends_pure (.inl heq)
  · refine (hfields n rfl _).imp ?_ fun _ _ _ => trivial
    rintro s q ⟨-, shown, hsupp, hQ⟩
    exact .inr ⟨shown, hsupp, hQ⟩

end Names

end Relate

namespace Registry

variable {r : Registry} {n : Nat} {A B : String} {fs gs : List (String × Ty)}

theorem Compares.mono {c e : Ty × Ty} {n m : Nat} (h : r.Compares n c e) (hnm : n ≤ m) :
    r.Compares m c e := by
  induction h generalizing m with
  | here e =>
      obtain ⟨m, rfl⟩ := Nat.exists_eq_succ_of_ne_zero (by omega : m ≠ 0)
      exact .here e
  | next hd _ ih =>
      obtain ⟨m, rfl⟩ := Nat.exists_eq_succ_of_ne_zero (by omega : m ≠ 0)
      exact .next hd (ih (by omega))

/-- A pair comes up when the common fields of two records are unified, so many steps deep. -/
def FieldsCompare (r : Registry) (n : Nat) (fs gs : List (String × Ty)) (e : Ty × Ty) : Prop :=
  ∃ c ∈ RecordTy.sharedFields ⟨fs, none⟩ ⟨gs, none⟩, r.Compares n c e

theorem leads_names (hne : A ≠ B) (hA : r.expand? A [] = some (.record fs none)) :
    r.leads (.named A []) (.named B []) = [(.record fs none, .named B [])] := by
  unfold leads
  rw [if_neg (by simp [Relate.equiv_names hne])]
  dsimp only
  rw [hA, Relate.sameNameArgs?, if_neg (fun h => hne h.1)]
  rfl

theorem leads_record_name (hB : r.expand? B [] = some (.record gs none)) :
    r.leads (.record fs none) (.named B []) = [(.record fs none, .record gs none)] := by
  rw [leads_expandRight (by simp [Ty.equiv, Ty.equivUnder]) (by simp), hB]
  rfl

/-- Relating two names of records relates the first record with the second name, and then what the
common fields lead to. -/
theorem compares_names (hne : A ≠ B) (hA : r.expand? A [] = some (.record fs none))
    (hB : r.expand? B [] = some (.record gs none))
    (hrecs : (Ty.record fs none).equiv (.record gs none) = false) {e : Ty × Ty}
    (he : r.FieldsCompare n fs gs e) : r.Compares (n + 3) (.named A [], .named B []) e := by
  obtain ⟨c, hc, he⟩ := he
  refine .next (d := (.record fs none, .named B [])) ?_
    (.next (d := (.record fs none, .record gs none)) ?_ (.next (d := c) ?_ he))
  · rw [leads_names hne hA]
    exact List.mem_cons_self
  · rw [leads_record_name hB]
    exact List.mem_cons_self
  · show c ∈ r.leads (.record fs none) (.record gs none)
    unfold leads
    rw [if_neg (by simp [hrecs])]
    exact hc

/-- Beside the pair of names, the pair of the first record and the second name comes up. -/
theorem compares_record_name (hne : A ≠ B) (hA : r.expand? A [] = some (.record fs none))
    (hn : 2 ≤ n) : r.Compares n (.named A [], .named B []) (.record fs none, .named B []) := by
  refine Compares.mono (.next (n := 1) ?_ (.here _)) hn
  rw [leads_names hne hA]
  exact List.mem_cons_self

theorem compares_self {e : Ty × Ty} (hn : 0 < n) : r.Compares n e e := Compares.mono (.here (n := 0) e) hn

theorem assumable_names (hne : A ≠ B) : Assumable (.named A [], .named B []) :=
  ⟨Relate.equiv_names hne, rfl⟩

theorem assumable_record_name : Assumable (.record fs none, .named B []) :=
  ⟨by simp [Ty.equiv, Ty.equivUnder], rfl⟩

/-- A list of pairs of ground types that justifies itself. -/
structure SelfJustified (r : Registry) (pairs : List (Ty × Ty)) : Prop where
  ground : ∀ e ∈ pairs, e.1.Ground ∧ e.2.Ground
  justified : ∀ e ∈ pairs, r.Justified (fun a b => (a, b) ∈ pairs) e.1 e.2

/-- A pair that was shown, or that comes up and was assumed when two names of records were
related. -/
def Granted (r : Registry) (limit : Nat) (A B : String) (fs gs : List (String × Ty))
    (shown : List (Ty × Ty)) (a b : Ty) : Prop :=
  (a, b) ∈ shown ∨ r.FieldsCompare limit fs gs (a, b) ∧
    ((a, b) = (.named A [], .named B []) ∨ (a, b) = (.record fs none, .named B []))

/-- A comparison that is assumed when the common fields of two records are unified. -/
def FieldsAssume (r : Registry) (n : Nat) (fs gs : List (String × Ty)) (c : Comparison) : Prop :=
  c.unified = true ∧ r.FieldsCompare n fs gs (c.sub, c.super) ∧ Assumable (c.sub, c.super)

section

variable {limit : Nat} {span : Span} {p : Progress} {s : Subst}
  (hA : r.expand? A [] = some (.record fs none)) (hB : r.expand? B [] = some (.record gs none))
  (hne : A ≠ B) (hrecs : (Ty.record fs none).equiv (.record gs none) = false)
  (hapart : r.SetApart limit (.named A []) (.named B []))
include hA hB hne hrecs hapart

/-- Digests tell which pair was assumed. -/
theorem granted_of_backed {shown : List Comparison} {a b : Ty}
    (h : Relate.Backed (r.FieldsAssume (limit - 3) fs gs) (Relate.assumedOfNames A B fs) shown
      ⟨true, a, b⟩) :
    r.Granted limit A B fs gs (shown.map fun c => (c.sub, c.super)) a b := by
  rcases h with h | ⟨⟨-, ⟨c, hc, hcomp⟩, hassumable⟩, hmem⟩
  · exact .inl (List.mem_map_of_mem (f := fun c : Comparison => (c.sub, c.super)) h)
  have hlimit : 3 < limit := by
    by_contra hlow
    rw [show limit - 3 = 0 by omega] at hcomp
    cases hcomp
  have hnames := compares_names hne hA hB hrecs ⟨c, hc, hcomp⟩
  rw [show limit - 3 + 3 = limit by omega] at hnames
  refine .inr ⟨⟨c, hc, hcomp.mono (by omega)⟩, ?_⟩
  rcases List.mem_pair.1 hmem with heq | heq
  · exact .inr (hapart _ _ hnames (compares_record_name hne hA (by omega)) hassumable
      assumable_record_name heq)
  · exact .inl (hapart _ _ hnames (compares_self (by omega)) hassumable (assumable_names hne) heq)

/-- What relating two names of different records shows about their fields. -/
theorem exists_granted_of_subtype (hclosed : r.Closed) (hgs : Table.Ascending gs)
    (h : ((Relate.subtype { registry := r, span } limit (.named A []) (.named B [])).run
      { supply := p.supply }).1 = .ok s) :
    ∃ shown : List (Ty × Ty), (∀ e ∈ shown, e.1.Ground ∧ e.2.Ground) ∧
      (∀ e ∈ shown, r.Justified (r.Granted limit A B fs gs shown) e.1 e.2) ∧
      ∀ g ∈ gs, ∃ t, Table.get? g.1 fs = some t ∧ r.Granted limit A B fs gs shown t g.2 := by
  have hfs : ∀ f ∈ fs, f.2.Ground := Ty.ground_record.1 (hclosed.ground_expand? (by simp) hA)
  have hgs' : ∀ g ∈ gs, g.2.Ground := Ty.ground_record.1 (hclosed.ground_expand? (by simp) hB)
  have hcompares : ∀ {k : Nat}, limit = k + 3 → ∀ e, r.FieldsCompare (limit - 3) fs gs e →
      r.Compares limit (.named A [], .named B []) e := by
    rintro k rfl e he
    exact compares_names hne hA hB hrecs he
  let ctx : Context := { registry := r, span }
  have hA' : ctx.registry.expand? A [] = some (.record fs none) := hA
  have hends := Relate.ends_subtype_names (n := limit) (p := p)
    (M := r.FieldsAssume (limit - 3) fs gs)
    (C := fun c => c.unified = true ∧ c.sub.Ground ∧ c.super.Ground) hA' hB hne
    (fun hlimit heq => by
      have := hapart _ _ (compares_record_name hne hA hlimit) (compares_self (by omega))
        assumable_record_name (assumable_names hne) heq
      cases this)
    fun k hk => Relate.reveals_subtypeRecords fun g hg t ht =>
      Relate.reveals_unify hclosed.hereditary_ground
        (fun c d hc hd heq => by
          have hpair := hapart _ _ (hcompares hk _ hc.2.1) (hcompares hk _ hd.2.1) hc.2.2 hd.2.2 heq
          obtain ⟨hc, -⟩ := hc
          obtain ⟨hd, -⟩ := hd
          cases c
          cases d
          simp_all) k
        (hfs _ (Table.mem_of_get? ht)) (hgs' _ hg)
        (fun e he => ⟨rfl, hclosed.hereditary_ground.compares he
          ⟨hfs _ (Table.mem_of_get? ht), hgs' _ hg⟩⟩)
        fun e he hassumable => ⟨rfl, ⟨(t, g.2), RecordTy.mem_sharedFields.2
          ⟨g.1, ht, Table.get?_of_mem hgs hg⟩, by simpa [hk] using he⟩, hassumable⟩
  unfold Ends at hends
  split at hends
  · next s' q _ =>
      obtain ⟨shown, hsupp, hall⟩ := hends.resolve_left (by simp [hrecs])
      refine ⟨shown.map fun c => (c.sub, c.super), List.forall_mem_map.2 fun c hc =>
        (hsupp.proper c hc).2, List.forall_mem_map.2 fun c hc => ?_, ?_⟩
      · obtain ⟨k, a, b⟩ := c
        obtain ⟨rfl, -⟩ := hsupp.proper _ hc
        exact Justified.mono (hsupp.justified _ hc) fun x y =>
          granted_of_backed hA hB hne hrecs hapart
      · exact fun g hg => (hall g hg).imp fun t ht =>
          ⟨ht.1, granted_of_backed hA hB hne hrecs hapart ht.2⟩
  · next heq =>
      rw [heq] at h
      cases h

end

/-- The types of a common field are in a list of pairs that justifies itself: if the first record has
no more fields than the second, or if the fields never come back to the pairs that were assumed. -/
theorem exists_selfJustified_of_subtype {limit : Nat} {span : Span} {p : Progress} {s : Subst}
    (hclosed : r.Closed) (hA : r.expand? A [] = some (.record fs none))
    (hB : r.expand? B [] = some (.record gs none)) (hfs : (Ty.record fs none).Sorted)
    (hgs : (Ty.record gs none).Sorted)
    (hapart : r.SetApart limit (.named A []) (.named B []))
    (hfields : (∀ name, (Table.get? name fs).isSome → (Table.get? name gs).isSome) ∨
      ∀ e, r.FieldsCompare limit fs gs e →
        e ≠ (.named A [], .named B []) ∧ e ≠ (.record fs none, .named B []))
    (h : ((Relate.subtype { registry := r, span } limit (.named A []) (.named B [])).run
      { supply := p.supply }).1 = .ok s) :
    ∀ g ∈ gs, ∃ t, Table.get? g.1 fs = some t ∧
      ∃ pairs, r.SelfJustified pairs ∧ (t, g.2) ∈ pairs := by
  have hground : (Ty.record fs none).Ground ∧ (Ty.record gs none).Ground :=
    ⟨hclosed.ground_expand? (by simp) hA, hclosed.ground_expand? (by simp) hB⟩
  obtain ⟨hasc, hsorted⟩ := Ty.sorted_record.1 hfs
  obtain ⟨hasc', -⟩ := Ty.sorted_record.1 hgs
  -- Equivalent types need nothing but themselves.
  have hequiv : ∀ g ∈ gs, (∃ t, Table.get? g.1 fs = some t ∧ t.equiv g.2 = true) →
      ∃ t, Table.get? g.1 fs = some t ∧ ∃ pairs, r.SelfJustified pairs ∧ (t, g.2) ∈ pairs := by
    rintro g hg ⟨t, ht, heq⟩
    refine ⟨t, ht, [(t, g.2)], ⟨?_, ?_⟩, List.mem_cons_self⟩
    · exact List.forall_mem_singleton.2 ⟨Ty.ground_record.1 hground.1 _ (Table.mem_of_get? ht),
        Ty.ground_record.1 hground.2 _ hg⟩
    · exact List.forall_mem_singleton.2 (.equiv heq)
  by_cases hne : A = B
  · subst hne
    obtain rfl : fs = gs := by simpa using hA.symm.trans hB
    exact fun g hg => hequiv g hg ⟨g.2, Table.get?_of_mem hasc hg, (hsorted g hg).equiv_self⟩
  by_cases hrecs : (Ty.record fs none).equiv (.record gs none) = true
  · exact fun g hg => hequiv g hg (Ty.equiv_of_record hasc hasc' hrecs hg)
  obtain ⟨shown, hproper, hjust, hall⟩ := exists_granted_of_subtype hA hB hne
    (by simpa using hrecs) hapart hclosed hasc' h
  rcases hfields with hnames | hnever
  · -- The names and the records are justified themselves, because the names of the fields agree.
    let pairs : List (Ty × Ty) := (.named A [], .named B []) :: (.record fs none, .named B []) ::
      (.record fs none, .record gs none) :: shown
    have hmono : ∀ x y, r.Granted limit A B fs gs shown x y → (x, y) ∈ pairs := by
      rintro x y (hxy | ⟨-, hxy | hxy⟩) <;> simp [pairs, hxy]
    have hrecords : ∀ name, Option.Rel (fun x y => (x, y) ∈ pairs) (Table.get? name fs)
        (Table.get? name gs) := by
      intro name
      cases hg : Table.get? name gs with
      | none =>
          cases hf : Table.get? name fs with
          | none => exact .none
          | some t =>
              have := hnames name (by simp [hf])
              rw [hg] at this
              cases this
      | some u =>
          obtain ⟨t, ht, htu⟩ := hall (name, u) (Table.mem_of_get? hg)
          rw [show Table.get? name fs = some t from ht]
          exact .some (hmono _ _ htu)
    have hself : r.SelfJustified pairs := by
      constructor
      · refine List.forall_mem_cons.2 ⟨⟨?_, ?_⟩, List.forall_mem_cons.2 ⟨⟨hground.1, ?_⟩,
          List.forall_mem_cons.2 ⟨hground, hproper⟩⟩⟩
        all_goals exact Ty.ground_named.2 (by simp)
      · refine List.forall_mem_cons.2 ⟨.expand hA (by simp [pairs]), List.forall_mem_cons.2
          ⟨.expandRight (by simp) hB (by simp [pairs]), List.forall_mem_cons.2
            ⟨.record hrecords, fun e he => (hjust e he).mono hmono⟩⟩⟩
    exact fun g hg => (hall g hg).imp fun t ht => ⟨ht.1, pairs, hself, hmono _ _ ht.2⟩
  · have hmono : ∀ x y, r.Granted limit A B fs gs shown x y → (x, y) ∈ shown := by
      rintro x y (hxy | ⟨hcomp, hxy | hxy⟩)
      · exact hxy
      · exact absurd hxy (hnever _ hcomp).1
      · exact absurd hxy (hnever _ hcomp).2
    have hself : r.SelfJustified shown := ⟨hproper, fun e he => (hjust e he).mono hmono⟩
    exact fun g hg => (hall g hg).imp fun t ht => ⟨ht.1, shown, hself, hmono _ _ ht.2⟩

end Registry

namespace Session

/-- The types of a list of pairs that justifies itself are unified, however high the limit is from
some limit on, and below it the limit is exceeded otherwise. -/
theorem unify_of_selfJustified {σ : Session} {a b : Ty} {pairs : List (Ty × Ty)}
    (hclosed : σ.registry.Closed) (h : σ.registry.SelfJustified pairs) (hab : (a, b) ∈ pairs) :
    ∃ bound, ∀ limit span, (∃ s τ, (unify limit span a b).run σ = (.ok s, τ)) ∨
      limit < bound ∧ ((unify limit span a b).run σ).2.exceeded = true := by
  let high := (pairs.map fun e => e.1.height + e.2.height).sum
  have hhigh : ∀ e ∈ pairs, e.1.height + e.2.height ≤ high := fun e he =>
    List.le_sum_of_mem (List.mem_map_of_mem he)
  refine ⟨Relate.steps pairs high a b [], fun limit span => ?_⟩
  have hends := Relate.replays_unify { registry := σ.registry, span }
    hclosed.hereditary_ground h.ground hhigh h.justified limit hab { supply := σ.supply }
  have hrun : (unify limit span a b).run σ = relating span
    (fun ctx => Relate.unify ctx limit a b) σ := rfl
  rw [hrun, relating]
  unfold Ends at hends
  split at hends
  · next s q heq =>
      rw [heq]
      exact .inl ⟨s, _, rfl⟩
  · next e q heq =>
      rw [heq]
      exact .inr ⟨hends.2, exceeded_afterRelating hends.1⟩

/-- Where one name of a record is accepted as a subtype of another, each field of the wider record is
in the smaller one, and the types of the field are unified from nothing: if the smaller record has no
more fields, or if unifying the fields never comes back to the names. -/
theorem unify_fields_of_subtype {limit : Nat} {span : Span} {A B : String}
    {fs gs : List (String × Ty)} {σ τ : Session} {s : Subst} (hclosed : σ.registry.Closed)
    (hA : σ.registry.expand? A [] = some (.record fs none))
    (hB : σ.registry.expand? B [] = some (.record gs none)) (hfs : (Ty.record fs none).Sorted)
    (hgs : (Ty.record gs none).Sorted)
    (hapart : σ.registry.SetApart limit (.named A []) (.named B []))
    (hfields : (∀ name, (Table.get? name fs).isSome → (Table.get? name gs).isSome) ∨
      ∀ e, σ.registry.FieldsCompare limit fs gs e →
        e ≠ (.named A [], .named B []) ∧ e ≠ (.record fs none, .named B []))
    (h : (subtype limit span (.named A []) (.named B [])).run σ = (.ok s, τ)) :
    ∀ g ∈ gs, ∃ t, Table.get? g.1 fs = some t ∧
      ∃ bound, ∀ limit span, (∃ s τ, (unify limit span t g.2).run σ = (.ok s, τ)) ∨
        limit < bound ∧ ((unify limit span t g.2).run σ).2.exceeded = true := by
  intro g hg
  have hrun : ((Relate.subtype { registry := σ.registry, span } limit (.named A [])
      (.named B [])).run { supply := σ.supply }).1 = .ok s := congrArg Prod.fst h
  obtain ⟨t, ht, pairs, hself, hmem⟩ := Registry.exists_selfJustified_of_subtype
    (p := { supply := σ.supply }) hclosed hA hB hfs hgs hapart hfields hrun g hg
  exact ⟨t, ht, unify_of_selfJustified hclosed hself hmem⟩

theorem sorted_streamOf (name : String) : (streamOf name).Sorted := by
  refine .record none (List.pairwise_pair.2 (show "head" < "tail" by decide)) ?_
  simp [Ty.int, Ty.Sorted.prim, Ty.Sorted.named]

theorem unify_fields_of_streams :
    withStreams.registry.Closed ∧
    withStreams.registry.expand? "A" [] = some (streamOf "A") ∧
    withStreams.registry.expand? "B" [] = some (streamOf "B") ∧
    withStreams.registry.SetApart defaultLimit (.named "A" []) (.named "B" []) ∧
    (∃ s τ, (subtype defaultLimit {} (.named "A" []) (.named "B" [])).run withStreams =
      (.ok s, τ)) ∧
    ∃ bound, ∀ limit span,
      (∃ s τ, (unify limit span (.named "A" []) (.named "B" [])).run withStreams = (.ok s, τ)) ∨
        limit < bound ∧
          ((unify limit span (.named "A" []) (.named "B" [])).run withStreams).2.exceeded = true := by
  have hA : withStreams.registry.expand? "A" [] = some (streamOf "A") := by cbv
  have hB : withStreams.registry.expand? "B" [] = some (streamOf "B") := by cbv
  have hclosed : withStreams.registry.Closed := by
    refine List.forall_mem_cons.2 ⟨?_, List.forall_mem_singleton.2 ?_⟩
    all_goals
      exact .record (by simp [Ty.int, Ty.Rooted.prim, Ty.Rooted.named]) fun _ h => by cases h
  have hrun : ∃ s τ, (subtype defaultLimit {} (.named "A" []) (.named "B" [])).run withStreams =
      (.ok s, τ) := by
    have hok : ((subtype defaultLimit {} (.named "A" []) (.named "B" [])).run
        withStreams).1.isOk = true := by decide +kernel
    generalize (subtype defaultLimit {} (.named "A" []) (.named "B" [])).run withStreams = out at hok
    obtain ⟨_ | s, τ⟩ := out
    · cases hok
    · exact ⟨s, τ, rfl⟩
  obtain ⟨s, τ, h⟩ := hrun
  obtain ⟨t, ht, hbound⟩ := unify_fields_of_subtype hclosed hA hB (sorted_streamOf _)
    (sorted_streamOf _) (setApart_streams _) (.inl fun name hname => by
      simpa [Table.get?_isSome, Table.keys] using hname) h
    ("tail", .named "B" []) (List.mem_cons_of_mem _ List.mem_cons_self)
  obtain rfl : Ty.named "A" [] = t := Option.some.inj ht
  exact ⟨hclosed, hA, hB, setApart_streams _, ⟨s, τ, h⟩, hbound⟩

end Session

end RowTypes
