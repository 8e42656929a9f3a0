import RowTypes.Proofs.Congruence
import RowTypes.Proofs.Limits
import RowTypes.Proofs.MostGeneral
import RowTypes.Proofs.RecursiveUnification
import RowTypes.Proofs.Replaying

/-!
# The order of the operands

Constraints that two types be equal are kept once, whichever way round they are said, so it should
make no difference to unification which type stands on the left.  It does in three places.  A union
takes the first alternative that fits, and may bind an unknown to it that another alternative needed.
Between a union and an intersection it is asked either that every member has an alternative or that
one alternative has all members.  And of two references the left one is expanded first, which fails
if it is not defined; or their arguments are unified one by one, though an alternative that absorbs
the argument of one need not be absorbed where the other puts it.

Elsewhere the order makes no difference, for two reasons.  Core types, which have unknowns and rows
but no alternatives, have a most general unifier, and that does not know left from right.  Ground
types bind nothing; what a run on them shows is a relation that justifies its pairs, and from that a
symmetric one is built, which the run in the other order follows.  That run may take more steps, so
it may exceed the limit.
-/

namespace RowTypes

namespace Relate

variable {ctx : Context} {P : Ty → Prop} {S : Ty → Ty → Prop} {a b : Ty} {limit : Nat}
  {p : Progress} {s : Subst}

/-- Pairs of a relation that justifies them are unified, unless the limit is exceeded. -/
theorem replays_unify_of_justified (hP : ctx.registry.Hereditary P)
    (hproper : ∀ {a b}, S a b → P a ∧ P b)
    (hjust : ∀ {a b}, S a b → ctx.registry.Justified S a b) :
    ∀ (n : Nat) {a b : Ty}, S a b → Replays n (fun _ => n + 1) (Relate.unify ctx n a b)
  | 0, _, _, _ => fun _ => ends_exceed ⟨rfl, Nat.one_pos⟩
  | n + 1, a, b, hab => by
      obtain ⟨ha, hb⟩ := hproper hab
      have hall : ∀ {c d : Ty}, P c → P d → Shows (Relate.unify ctx n c d) True :=
        shows_unify_ground hP n
      have ih : ∀ {c d : Ty}, S c d → Replays n (fun _ => n + 1) (Relate.unify ctx n c d) :=
        replays_unify_of_justified hP hproper hjust n
      show Replays (n + 1) _ (unifyStep ctx (Relate.unify ctx n) a b)
      unfold unifyStep
      split
      · exact replays_pure
      · next hne =>
          have hne : a.equiv b = false := by simpa using hne
          split
          · exact absurd (hP.ground ha) Ty.not_ground_var
          · exact absurd (hP.ground hb) Ty.not_ground_var
          · split
            · next hind =>
                exact (replays_unifyIndirect hP ha hb hne hind hall (fun _ => Nat.le_refl _)
                  (fun _ _ => Nat.le_refl _) ih (hjust hab)).step
            · next hind =>
                rw [Bool.not_eq_true, Bool.or_eq_false_iff] at hind
                exact (replays_unifyShapes hP (fun _ => Nat.le_refl _) ha hb hne hind.1 hind.2 hall
                  (fun hcd _ => ih hcd) (hjust hab)).step

/-- Where sealed types are unified, they are in the other order too, unless the limit is
exceeded. -/
theorem ends_swap_of_sealed (hr : ctx.registry.Sealed)
    (ha : a.Sealed ctx.registry fun _ => False) (hb : b.Sealed ctx.registry fun _ => False)
    (hapart : ctx.registry.SetApart limit a b)
    (h : ((unify ctx limit a b).run { supply := p.supply }).1 = .ok s) (n : Nat) :
    Ends (unify ctx n b a) p (fun _ _ => True) fun _ q => q.exceeded = true := by
  obtain ⟨S, hab, hproper, hjust⟩ := exists_justified_of_unify hr.hereditary ha hb hapart h
  have hboth := hr.backs_stemsEither ⟨hproper, hjust⟩
  have hba : ctx.registry.StemsEither S b a :=
    .inr (Registry.stems_of_congruent ha hb (.base hab))
  exact (replays_unify_of_justified hr.hereditary hboth.sealed hboth.justified n hba p).imp
    (fun _ _ _ => trivial) fun _ _ h => h.1

/-- Where core types are unified by a substitution that gives no row a field beside it, they are in
the other order too, unless the limit is exceeded. -/
theorem ends_swap_of_core {κ : Sorts} (hE : Equations.Posed κ p.supply.count [(a, b)])
    (ha : s.Clears a) (hb : s.Clears b) (h : ((unify ctx limit a b).run p).1 = .ok s) (n : Nat) :
    Ends (unify ctx n b a) p (fun _ _ => True) fun _ q => q.exceeded = true := by
  have hends := decides_unify ctx κ limit p a b hE
  unfold Answers Ends at hends
  split at hends
  · next s' q heq =>
      obtain rfl : s' = s := by rw [heq] at h; exact Except.ok.inj h
      obtain ⟨-, hsolves⟩ := hends
      have hplain : s'.Plain := fun id u hu => (hsolves.solved.core id u hu).1.tame
      have hunifies := hsolves.sound s'.valuation hsolves.solved.absorbs_valuation
      have hswap : Equations.Posed κ p.supply.count [(b, a)] :=
        hE.of_amounts (amounts_swap _ a b) fun t ht => hE.core t (by simp_all [Equations.sides, or_comm])
      refine (decides_unify ctx κ n p b a hswap).imp (fun _ _ _ => trivial) fun e q he => ?_
      have href := refutes_swap he.2
      exact (href s'.valuation (respectsAll_pair.2 ⟨hplain.respects ha, hplain.respects hb⟩)
        hunifies).1
  · next heq =>
      rw [heq] at h
      cases h

end Relate

namespace Session

variable {limit : Nat} {span : Span} {a b : Ty} {σ : Session}

/-- A run that succeeds unless the limit is exceeded, and that does not exceed it. -/
theorem isOk_of_ends {m : Context → Relate Subst}
    (hends : Ends (m ⟨σ.registry, span⟩) { supply := σ.supply } (fun _ _ => True)
      fun _ q => q.exceeded = true)
    (hlimit : ((relating span m).run { σ with exceeded := false }).2.exceeded = false) :
    ((relating span m).run σ).1.isOk = true := by
  change (relating span m { σ with exceeded := false }).2.exceeded = false at hlimit
  change (relating span m σ).1.isOk = true
  unfold relating at hlimit ⊢
  unfold Ends at hends
  dsimp only at hlimit ⊢
  generalize (m ⟨σ.registry, span⟩).run { supply := σ.supply } = out at hends hlimit
  obtain ⟨s | e, q⟩ := out
  · rw [exceeded_afterRelating hends] at hlimit
    cases hlimit
  · rfl

/-- Two types are unified in the one order if and only if they are in the other, where neither run
exceeds the limit: if they are core types, and no row was given a field that is named beside it; or
if they are sealed, and different pairs that are assumed have different digests. -/
theorem isOk_unify_comm
    (hab : ((unify limit span a b).run { σ with exceeded := false }).2.exceeded = false)
    (hba : ((unify limit span b a).run { σ with exceeded := false }).2.exceeded = false) :
    (∀ isRow : Int → Prop, a.Core ⟨isRow, True⟩ → b.Core ⟨isRow, True⟩ →
      (∀ id, a.Mentions id ∨ b.Mentions id → id ≤ σ.supply.count) →
      (∀ s, ((unify limit span a b).run σ).1 = .ok s ∨ ((unify limit span b a).run σ).1 = .ok s →
        s.Clears a ∧ s.Clears b) →
      ((unify limit span a b).run σ).1.isOk = ((unify limit span b a).run σ).1.isOk) ∧
    (σ.registry.Sealed → a.Sealed σ.registry (fun _ => False) →
      b.Sealed σ.registry (fun _ => False) →
      σ.registry.SetApart limit a b → σ.registry.SetApart limit b a →
      ((unify limit span a b).run σ).1.isOk = ((unify limit span b a).run σ).1.isOk) := by
  have hok : ∀ {out : Except Diagnostic Subst}, out.isOk = true → ∃ s, out = .ok s := by
    rintro (_ | s) h
    · cases h
    · exact ⟨s, rfl⟩
  refine ⟨fun isRow ha hb hold hclears => ?_, fun hr ha hb hapart hapart' => ?_⟩
  · have hcore : ∀ {x y : Ty}, x.Core ⟨isRow, True⟩ → y.Core ⟨isRow, True⟩ →
        (∀ id, x.Mentions id ∨ y.Mentions id → id ≤ σ.supply.count) →
        Equations.Posed (ConstraintSet.sortsFrom isRow σ.supply.count) σ.supply.count
          [(x, y)] := by
      intro x y hx hy hold
      have hsides : ∀ t ∈ Equations.sides [(x, y)],
          t.Core ⟨isRow, True⟩ ∧ ∀ id, t.Mentions id → id ≤ σ.supply.count := by
        intro t ht
        rcases (by simpa [Equations.sides] using ht : t = x ∨ t = y) with rfl | rfl
        · exact ⟨hx, fun id hid => hold id (.inl hid)⟩
        · exact ⟨hy, fun id hid => hold id (.inr hid)⟩
      exact ⟨fun t ht => (hsides t ht).1.sortsFrom (hsides t ht).2, fun t ht => (hsides t ht).2,
        fun _ id hid => .inr hid⟩
    refine Bool.eq_iff_iff.2 ⟨fun h => ?_, fun h => ?_⟩
    · obtain ⟨s, hs⟩ := hok h
      obtain ⟨hsa, hsb⟩ := hclears s (.inl hs)
      exact isOk_of_ends (Relate.ends_swap_of_core (hcore ha hb hold) hsa hsb hs limit) hba
    · obtain ⟨s, hs⟩ := hok h
      obtain ⟨hsa, hsb⟩ := hclears s (.inr hs)
      exact isOk_of_ends (Relate.ends_swap_of_core (hcore hb ha fun id hid => hold id hid.symm)
        hsb hsa hs limit) hab
  · refine Bool.eq_iff_iff.2 ⟨fun h => ?_, fun h => ?_⟩
    · obtain ⟨s, hs⟩ := hok h
      exact isOk_of_ends (Relate.ends_swap_of_sealed (p := { supply := σ.supply }) hr ha hb hapart hs
        limit) hba
    · obtain ⟨s, hs⟩ := hok h
      exact isOk_of_ends (Relate.ends_swap_of_sealed (p := { supply := σ.supply }) hr hb ha hapart' hs
        limit) hab

/-- The states of a switch, as literals. -/
def onOrOff : Ty := .union [.lit "on", .lit "off"]

/-- A session in which `Switch` is a record with a state. -/
def withSwitch : Session :=
  { supply := ⟨2⟩
    registry :=
      { definitions := [("Switch", ⟨"Switch", [], .record [("state", onOrOff)] none, {}⟩)] } }

/-- A record with one field. -/
def stateOf (t : Ty) : Ty := .record [("state", t)] none

theorem sealed_onOrOff {r : Registry} {P : Int → Prop} : onOrOff.Sealed r P := by
  refine .union (by cbv) fun t ht => ?_
  rcases List.mem_pair.1 ht with rfl | rfl
  · exact .lit _
  · exact .lit _

theorem sealed_stateOf {r : Registry} {P : Int → Prop} {t : Ty} (h : t.Sealed r P) :
    (stateOf t).Sealed r P :=
  .record (List.pairwise_singleton _ _) (List.forall_mem_singleton.2 h)

/-- Nothing but the switch itself is assumed when it is unified with a record of its state. -/
theorem setApart_switch (limit : Nat) :
    withSwitch.registry.SetApart limit (.named "Switch" []) (stateOf (.lit "on")) ∧
    withSwitch.registry.SetApart limit (stateOf (.lit "on")) (.named "Switch" []) := by
  have hleads : withSwitch.registry.leads (.named "Switch" []) (stateOf (.lit "on")) =
        [(stateOf onOrOff, stateOf (.lit "on"))] ∧
      withSwitch.registry.leads (stateOf (.lit "on")) (.named "Switch" []) =
        [(stateOf (.lit "on"), stateOf onOrOff)] ∧
      withSwitch.registry.leads (stateOf onOrOff) (stateOf (.lit "on")) =
        [(onOrOff, .lit "on")] ∧
      withSwitch.registry.leads (stateOf (.lit "on")) (stateOf onOrOff) =
        [(.lit "on", onOrOff)] ∧
      withSwitch.registry.leads onOrOff (.lit "on") =
        [(.lit "on", .lit "on"), (.lit "on", .lit "off")] ∧
      withSwitch.registry.leads (.lit "on") onOrOff =
        [(.lit "on", .lit "on"), (.lit "on", .lit "off")] ∧
      withSwitch.registry.leads (.lit "on") (.lit "on") = [] ∧
      withSwitch.registry.leads (.lit "on") (.lit "off") = [] :=
    ⟨by cbv, by cbv, by cbv, by cbv, by cbv, by cbv, by cbv, by cbv⟩
  constructor
  · refine Registry.setApart_of_direct [(stateOf onOrOff, stateOf (.lit "on")),
      (onOrOff, .lit "on"), (.lit "on", .lit "on"), (.lit "on", .lit "off")] ?_ ?_
    · simp only [List.forall_mem_cons, hleads]
      simp
    · simp only [List.forall_mem_cons]
      exact ⟨rfl, rfl, rfl, rfl, by simp⟩
  · refine Registry.setApart_of_direct [(stateOf (.lit "on"), stateOf onOrOff),
      (.lit "on", onOrOff), (.lit "on", .lit "on"), (.lit "on", .lit "off")] ?_ ?_
    · simp only [List.forall_mem_cons, hleads]
      simp
    · simp only [List.forall_mem_cons]
      exact ⟨rfl, rfl, rfl, rfl, by simp⟩

def closedPoint : Ty := .record [("x", .int), ("y", .bool)] none

def openPoint : Ty := .record [("x", .var ⟨1, 0⟩)] (some ⟨2, 0⟩)

/-- A record with an open row and a closed one, and a name and what it stands for, are unified in
both orders. -/
theorem isOk_unify_comm_switch :
    ((unify defaultLimit {} closedPoint openPoint).run withSwitch).1.isOk = true ∧
    ((unify defaultLimit {} (stateOf (.lit "on")) (.named "Switch" [])).run
      withSwitch).1.isOk = true := by
  constructor
  · have hruns : ((unify defaultLimit {} openPoint closedPoint).run withSwitch).1 =
          .ok (.ofList [(⟨1, 0⟩, .int), (⟨2, 0⟩, .record [("y", .bool)] none)]) ∧
        ((unify defaultLimit {} closedPoint openPoint).run withSwitch).1 =
          .ok (.ofList [(⟨1, 0⟩, .int), (⟨2, 0⟩, .record [("y", .bool)] none)]) :=
      ⟨by cbv, by cbv⟩
    have hclears : ∀ s, ((unify defaultLimit {} openPoint closedPoint).run withSwitch).1 = .ok s ∨
        ((unify defaultLimit {} closedPoint openPoint).run withSwitch).1 = .ok s →
        s.Clears openPoint ∧ s.Clears closedPoint := by
      intro s hs
      rw [hruns.1, hruns.2, or_self] at hs
      cases hs
      refine ⟨.record ?_ (List.forall_mem_singleton.2 (.var _)), .record (by simp) ?_⟩
      · rintro v gs rest ⟨⟩ hget name hname
        rw [List.mem_singleton.1 hname]
        have hrow : (Subst.ofList [(⟨1, 0⟩, .int), (⟨2, 0⟩, .record [("y", .bool)] none)]).get? 2 =
          some (.record [("y", .bool)] none) := by cbv
        cases hrow.symm.trans hget
        cbv
      · exact List.forall_mem_cons.2 ⟨.prim _, List.forall_mem_singleton.2 (.prim _)⟩
    rw [← (isOk_unify_comm (by decide +kernel) (by decide +kernel)).1 (· = 2) ?_ ?_ ?_ hclears]
    · decide +kernel
    · refine .record trivial (List.pairwise_singleton _ _) (by rintro v ⟨⟩; rfl)
        (List.forall_mem_singleton.2 (.var (by decide)))
    · refine .record trivial (List.pairwise_pair.2 (show "x" < "y" by decide)) (by simp) ?_
      exact List.forall_mem_cons.2 ⟨.prim _, List.forall_mem_singleton.2 (.prim _)⟩
    · intro id hid
      have hid : 1 = id ∨ 2 = id := by
        simpa [openPoint, closedPoint, Ty.mentions_record, Ty.int, Ty.bool] using hid
      show id ≤ 2
      omega
  · have hsealed : withSwitch.registry.Sealed :=
      List.forall_mem_singleton.2 (sealed_stateOf sealed_onOrOff)
    have hname : (Ty.named "Switch" []).Sealed withSwitch.registry fun _ => False :=
      .named (d := ⟨"Switch", [], .record [("state", onOrOff)] none, {}⟩) (by cbv) rfl (by simp)
    rw [← (isOk_unify_comm (by decide +kernel) (by decide +kernel)).2 hsealed hname
      (sealed_stateOf (.lit _)) (setApart_switch _).1 (setApart_switch _).2]
    decide +kernel

end Session

end RowTypes
