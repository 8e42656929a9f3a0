import RowTypes.Proofs.OperandOrder
import RowTypes.Proofs.RecursiveSubtyping

/-!
# Subtyping of recursive types, by coinduction

Whether one ground type is accepted as a subtype of another does not depend on how the comparison
was reached, as long as no assumption is mistaken for another.  It is a greatest fixed point: two
types are so related if some set of comparisons contains theirs and justifies each of its own.  What
a successful run has shown is such a set; and where there is such a set, no run fails, unless the
limit is exceeded.

Two kinds of comparison go into the set, because fields are unified where everything else is related
one way only.  Both leave the same digests behind.  So it has to be asked that a digest tells not
only which pair of types was assumed, but also whether they were unified.
-/

namespace RowTypes

/-! ## Comparisons that come up -/

namespace Registry

/-- The comparisons that making one type a subtype of another comes to next, where the constructors
of both show. -/
def followsShapes (a b : Ty) : List Comparison :=
  match a, b with
  | .union as, b => as.map fun t => ⟨false, t, b⟩
  | a, .union bs => bs.map fun t => ⟨false, a, t⟩
  | .inter ms, b => ms.map fun m => ⟨false, m, b⟩
  | a, .inter ms => ms.map fun m => ⟨false, a, m⟩
  | .record fs _, .record gs _ =>
    gs.filterMap fun g => (Table.get? g.1 fs).map fun t => ⟨true, t, g.2⟩
  | .fn p q, .fn p' q' => [⟨false, p', p⟩, ⟨false, q, q'⟩]
  | .tuple as, .tuple bs =>
    if as.length = bs.length then (as.zip bs).map fun e => ⟨false, e.1, e.2⟩
    else [⟨true, .tuple as, .tuple bs⟩]
  | .lit _, .prim "String" => []
  | a, b => [⟨true, a, b⟩]

/-- The comparisons that making one type a subtype of another comes to next. -/
def follows (r : Registry) (a b : Ty) : List Comparison :=
  if a.equiv b then []
  else if Relate.isIndirect a then (r.unwrap? a).toList.map fun t => ⟨false, t, b⟩
  else if Relate.isIndirect b then (r.unwrap? b).toList.map fun t => ⟨false, a, t⟩
  else followsShapes a b

end Registry

namespace Comparison

/-- The comparisons that a comparison comes to next. -/
def leads (r : Registry) : Comparison → List Comparison
  | ⟨true, a, b⟩ => (r.leads a b).map fun e => ⟨true, e.1, e.2⟩
  | ⟨false, a, b⟩ => r.follows a b

/-- A comparison is assumed when it comes up: one of its types has to be expanded or unfolded. -/
def Assumable (c : Comparison) : Prop := Registry.Assumable (c.sub, c.super)

end Comparison

namespace Registry

variable {r : Registry} {P : Ty → Prop} {n : Nat} {a b t : Ty} {c d e : Comparison}

/-- A comparison comes up when another one is made, at most so many steps deep. -/
inductive Asks (r : Registry) : Nat → Comparison → Comparison → Prop where
  | here {n : Nat} (c : Comparison) : Asks r (n + 1) c c
  | next {n : Nat} {c d e : Comparison} : d ∈ c.leads r → Asks r n d e → Asks r (n + 1) c e

theorem Compares.asks {e e' : Ty × Ty} (h : r.Compares n e e') :
    r.Asks n ⟨true, e.1, e.2⟩ ⟨true, e'.1, e'.2⟩ := by
  induction h with
  | here e => exact .here _
  | next hd _ ih => exact .next (List.mem_map_of_mem hd) ih

/-- What comes up stays within comparisons that lead to one another. -/
theorem Asks.mem {within : List Comparison} (h : ∀ c ∈ within, ∀ d ∈ c.leads r, d ∈ within)
    (hasks : r.Asks n c e) (hc : c ∈ within) : e ∈ within := by
  induction hasks with
  | here c => exact hc
  | next hd _ ih => exact ih (h _ hc _ hd)

/-- Different comparisons that are assumed when one type is made a subtype of another have different
digests. -/
def KeptApart (r : Registry) (n : Nat) (a b : Ty) : Prop :=
  ∀ c d, r.Asks n ⟨false, a, b⟩ c → r.Asks n ⟨false, a, b⟩ d → c.Assumable → d.Assumable →
    c.digest = d.digest → c = d

/-- If no reference or recursive type comes up beside the two types, only they are assumed. -/
theorem keptApart_of_direct (within : List Comparison)
    (h : ∀ c ∈ ⟨false, a, b⟩ :: within, ∀ d ∈ c.leads r, d ∈ ⟨false, a, b⟩ :: within)
    (hwithin : ∀ c ∈ within, (Relate.isIndirect c.sub || Relate.isIndirect c.super) = false) :
    r.KeptApart n a b := by
  have honly : ∀ c, r.Asks n ⟨false, a, b⟩ c → c.Assumable → c = ⟨false, a, b⟩ := by
    intro c hc hassumable
    rcases List.mem_cons.1 (hc.mem h List.mem_cons_self) with rfl | hmem
    · rfl
    · exact absurd hassumable.2 (by simp [hwithin c hmem])
  exact fun c d hc hd hca hda _ => (honly c hc hca).trans (honly d hd hda).symm

/-! ## What a comparison leads to -/

theorem follows_unwrap (hne : a.equiv b = false) (ht : r.unwrap? a = some t) :
    r.follows a b = [⟨false, t, b⟩] := by
  unfold follows
  rw [if_neg (by simp [hne]), if_pos (isIndirect_of_unwrap? ht), ht]
  rfl

theorem follows_unwrapRight (hne : a.equiv b = false) (hinda : Relate.isIndirect a = false)
    (ht : r.unwrap? b = some t) : r.follows a b = [⟨false, a, t⟩] := by
  unfold follows
  rw [if_neg (by simp [hne]), if_neg (by simp [hinda]), if_pos (isIndirect_of_unwrap? ht), ht]
  rfl

theorem follows_shapes (hne : a.equiv b = false) (hinda : Relate.isIndirect a = false)
    (hindb : Relate.isIndirect b = false) : r.follows a b = followsShapes a b := by
  unfold follows
  rw [if_neg (by simp [hne]), if_neg (by simp [hinda]), if_neg (by simp [hindb])]

theorem followsShapes_intoUnion {ts : List Ty} (h : ∀ as, a ≠ .union as) :
    followsShapes a (.union ts) = ts.map fun t => ⟨false, a, t⟩ := by
  cases a <;> first | rfl | exact absurd rfl (h _)

theorem followsShapes_fromInter {ms : List Ty} (h : ∀ bs, b ≠ .union bs) :
    followsShapes (.inter ms) b = ms.map fun m => ⟨false, m, b⟩ := by
  cases b <;> first | rfl | exact absurd rfl (h _)

theorem followsShapes_intoInter {ms : List Ty} (h : ∀ as, a ≠ .union as) (h' : ∀ ns, a ≠ .inter ns) :
    followsShapes a (.inter ms) = ms.map fun m => ⟨false, a, m⟩ := by
  cases a <;> first | rfl | exact absurd rfl (h _) | exact absurd rfl (h' _)

theorem Hereditary.unwrap? (hP : r.Hereditary P) (ha : P a) (ht : r.unwrap? a = some t) : P t := by
  cases a with
  | named name args => exact hP.expand ha ht
  | mu v t => cases ht; exact hP.unfold ha
  | _ => cases ht

/-- What two types lead to has the properties that they hand on. -/
theorem Hereditary.follows (hP : r.Hereditary P) (ha : P a) (hb : P b) :
    ∀ d ∈ r.follows a b, P d.sub ∧ P d.super := by
  intro d hd
  unfold Registry.follows at hd
  split at hd
  · cases hd
  split at hd
  · obtain ⟨t, ht, rfl⟩ := List.mem_map.1 hd
    exact ⟨hP.unwrap? ha (Option.mem_toList.1 ht), hb⟩
  split at hd
  · obtain ⟨t, ht, rfl⟩ := List.mem_map.1 hd
    exact ⟨ha, hP.unwrap? hb (Option.mem_toList.1 ht)⟩
  unfold followsShapes at hd
  split at hd
  · obtain ⟨t, ht, rfl⟩ := List.mem_map.1 hd
    exact ⟨hP.union ha t ht, hb⟩
  · obtain ⟨t, ht, rfl⟩ := List.mem_map.1 hd
    exact ⟨ha, hP.union hb t ht⟩
  · obtain ⟨m, hm, rfl⟩ := List.mem_map.1 hd
    exact ⟨hP.inter ha m hm, hb⟩
  · obtain ⟨m, hm, rfl⟩ := List.mem_map.1 hd
    exact ⟨ha, hP.inter hb m hm⟩
  · obtain ⟨g, hg, hd⟩ := List.mem_filterMap.1 hd
    obtain ⟨t, ht, rfl⟩ := Option.map_eq_some_iff.1 hd
    exact ⟨hP.record ha _ (Table.mem_of_get? ht), hP.record hb g hg⟩
  · obtain ⟨hp, hq⟩ := hP.fn ha
    obtain ⟨hp', hq'⟩ := hP.fn hb
    rcases List.mem_pair.1 hd with rfl | rfl
    · exact ⟨hp', hp⟩
    · exact ⟨hq, hq'⟩
  · split at hd
    · obtain ⟨e, he, rfl⟩ := List.mem_map.1 hd
      exact ⟨hP.tuple ha _ (List.of_mem_zip he).1, hP.tuple hb _ (List.of_mem_zip he).2⟩
    · rw [List.mem_singleton.1 hd]
      exact ⟨ha, hb⟩
  · cases hd
  · rw [List.mem_singleton.1 hd]
    exact ⟨ha, hb⟩

theorem Hereditary.comparison_leads (hP : r.Hereditary P) (hc : P c.sub ∧ P c.super) :
    ∀ d ∈ c.leads r, P d.sub ∧ P d.super := by
  obtain ⟨k, a, b⟩ := c
  cases k with
  | false => exact hP.follows hc.1 hc.2
  | true => exact List.forall_mem_map.2 (hP.leads hc.1 hc.2)

theorem Hereditary.asks (hP : r.Hereditary P) (h : r.Asks n c e) (hc : P c.sub ∧ P c.super) :
    P e.sub ∧ P e.super := by
  induction h with
  | here c => exact hc
  | next hd _ ih => exact ih (hP.comparison_leads hc _ hd)

end Registry

namespace Relate

/-- Makes a comparison, at most so many steps deep. -/
def compare (ctx : Context) (n : Nat) : Comparison → Relate Subst
  | ⟨true, a, b⟩ => Relate.unify ctx n a b
  | ⟨false, a, b⟩ => Relate.subtype ctx n a b

/-- Relates types of which one is expanded or unfolded first, once they are assumed. -/
def subtypeUnwrapped (ctx : Context) (subtype : Relation) (a b : Ty) : Relate Subst :=
  match a, b with
  | .named name args, b => do subtype (← expand ctx name args) b
  | .mu v t, b => subtype (.unfold v t) b
  | a, .named name args => do subtype a (← expand ctx name args)
  | a, .mu v t => subtype a (.unfold v t)
  | a, b => subtype a b

variable {ctx : Context} {subtype : Relation} {n : Nat} {P : Ty → Prop} {a b : Ty}

theorem subtypeIndirect_eq : subtypeIndirect ctx subtype a b = assume a b >>= fun known =>
    if known then pure .empty else subtypeUnwrapped ctx subtype a b := by
  unfold subtypeIndirect
  rfl

/-! ## What a run of subtyping reveals -/

section Reveals

variable {C M : Comparison → Prop} {Q : (Comparison → Prop) → Ty → Prop}

theorem reveals_subtypeSome {r : Registry} {f : Ty → Relate Subst} {ts : List Ty} {sub super : Ty}
    {reason : String} (h : ∀ t ∈ ts, Reveals r C M (f t) fun S => Q S t) :
    Reveals r C M (subtypeSome ctx sub super reason (firstOf f ts)) fun S => ∃ t ∈ ts, Q S t :=
  reveals_firstOrThrow h _

theorem reveals_subtypeUnwrapped (hne : a.equiv b = false)
    (hind : (isIndirect a || isIndirect b) = true)
    (h : ∀ c d, ⟨false, c, d⟩ ∈ ctx.registry.follows a b →
      Reveals ctx.registry C M (subtype c d) fun S => S ⟨false, c, d⟩) :
    Reveals ctx.registry C M (subtypeUnwrapped ctx subtype a b)
      fun S => ctx.registry.Sustained S a b := by
  have hleft : ∀ t, ctx.registry.unwrap? a = some t → Reveals ctx.registry C M (subtype t b)
      fun S => ctx.registry.Sustained S a b := fun t ht =>
    (h t b (by simp [Registry.follows_unwrap hne ht])).mono fun S hS => .unwrap ht hS
  have hright : isIndirect a = false → ∀ t, ctx.registry.unwrap? b = some t →
      Reveals ctx.registry C M (subtype a t) fun S => ctx.registry.Sustained S a b :=
    fun hinda t ht => (h a t (by simp [Registry.follows_unwrapRight hne hinda ht])).mono
      fun S hS => .unwrapRight hinda ht hS
  unfold subtypeUnwrapped
  split
  · exact reveals_expand hleft
  · exact hleft _ rfl
  · next hnamed hmu => exact reveals_expand (hright (isIndirect_eq_false hnamed hmu))
  · next hnamed hmu => exact hright (isIndirect_eq_false hnamed hmu) _ rfl
  · next hnameda hmua hnamedb hmub =>
      rw [isIndirect_eq_false hnameda hmua, isIndirect_eq_false hnamedb hmub] at hind
      cases hind

variable (hP : ctx.registry.Hereditary P) (hinj : ∀ c d, M c → M d → c.digest = d.digest → c = d)
include hP hinj

/-- What unifying two types whose constructors show reveals about them. -/
theorem reveals_unify_direct (ha : P a) (hb : P b)
    (hne : a.equiv b = false) (hinda : isIndirect a = false) (hindb : isIndirect b = false)
    (hcome : ∀ e, ctx.registry.Asks n ⟨true, a, b⟩ e → C e)
    (hcomp : ∀ e, ctx.registry.Asks n ⟨true, a, b⟩ e → e.Assumable → M e) :
    Reveals ctx.registry C M (Relate.unify ctx n a b)
      fun S => ctx.registry.Justified (fun x y => S ⟨true, x, y⟩) a b := by
  obtain _ | n := n
  · exact fun _ => ends_exceed trivial
  show Reveals ctx.registry C M (unifyStep ctx (Relate.unify ctx n) a b) _
  unfold unifyStep
  rw [if_neg (by simp [hne])]
  split
  · exact absurd (hP.ground ha) Ty.not_ground_var
  · exact absurd (hP.ground hb) Ty.not_ground_var
  · rw [if_neg (by simp [hinda, hindb])]
    refine reveals_unifyShapes (hP.ground ha) (hP.ground hb) hne hinda hindb fun e he => ?_
    have hasks : ∀ d, ctx.registry.Compares n e d →
        ctx.registry.Asks (n + 1) ⟨true, a, b⟩ ⟨true, d.1, d.2⟩ := fun d hd =>
      .next (List.mem_map_of_mem he) hd.asks
    exact reveals_unify hP hinj n (hP.leads ha hb e he).1 (hP.leads ha hb e he).2
      (fun d hd => hcome _ (hasks d hd)) fun d hd => hcomp _ (hasks d hd)

/-- Subtyping two types whose constructors show. -/
theorem reveals_subtypeShapes (ha : P a) (hb : P b) (hne : a.equiv b = false)
    (hinda : isIndirect a = false) (hindb : isIndirect b = false)
    (h : ∀ d ∈ ctx.registry.follows a b,
      Reveals ctx.registry C M (compare ctx n d) fun S => S d)
    (hcome : ∀ d ∈ ctx.registry.follows a b, ∀ e, ctx.registry.Asks n d e → C e)
    (hcomp : ∀ d ∈ ctx.registry.follows a b, ∀ e, ctx.registry.Asks n d e → e.Assumable → M e) :
    Reveals ctx.registry C M
      (subtypeShapes ctx (Relate.unify ctx n) (Relate.subtype ctx n) a b)
      fun S => ctx.registry.Sustained S a b := by
  rw [Registry.follows_shapes hne hinda hindb] at h hcome hcomp
  -- Types without a rule of their own are unified, and of those only the strings and a literal go
  -- together.
  have hunified : ⟨true, a, b⟩ ∈ Registry.followsShapes a b →
      (∀ S : Ty → Ty → Prop, ctx.registry.Justified S a b → a = .string ∧ ∃ v, b = .lit v) →
      Reveals ctx.registry C M (subtypeUnified ctx (Relate.unify ctx n) a b)
        fun S => ctx.registry.Sustained S a b := by
    intro hmem honly
    refine (reveals_orElseThrow (reveals_unify_direct hP hinj ha hb hne hinda hindb (hcome _ hmem)
      (hcomp _ hmem))).mono fun S hS => ?_
    obtain ⟨rfl, v, rfl⟩ := honly _ hS
    exact .string v
  unfold subtypeShapes
  split
  · refine (reveals_thread (k := false) (List.forall_mem_map.2 fun t ht => ?_)).mono fun S hS =>
      .fromUnion hindb fun t ht => hS _ (List.mem_map_of_mem ht)
    exact h ⟨false, t, b⟩ (List.mem_map_of_mem ht)
  · next hunion =>
      rw [Registry.followsShapes_intoUnion hunion] at h
      refine (reveals_subtypeSome (Q := fun S t => S ⟨false, a, t⟩) fun t ht => ?_).mono
        fun S hS => .intoUnion hinda hunion hS
      exact h ⟨false, a, t⟩ (List.mem_map_of_mem ht)
  · next hunion =>
      rw [Registry.followsShapes_fromInter hunion] at h
      refine (reveals_subtypeSome (Q := fun S m => S ⟨false, m, b⟩) fun m hm => ?_).mono
        fun S hS => .fromInter hindb hunion hS
      exact h ⟨false, m, b⟩ (List.mem_map_of_mem hm)
  · next hunion hinter =>
      rw [Registry.followsShapes_intoInter hunion hinter] at h
      refine (reveals_thread (k := false) (List.forall_mem_map.2 fun m hm => ?_)).mono fun S hS =>
        .intoInter hinda hunion hinter fun m hm => hS _ (List.mem_map_of_mem hm)
      exact h ⟨false, a, m⟩ (List.mem_map_of_mem hm)
  · obtain rfl := (hP.ground ha).closed
    obtain rfl := (hP.ground hb).closed
    refine (reveals_subtypeRecords fun g hg t ht => ?_).mono fun S hS => .record hS
    exact h ⟨true, t, g.2⟩ (List.mem_filterMap.2 ⟨g, hg, by rw [ht]; rfl⟩)
  · next p q p' q' =>
      refine (Reveals.bind (h ⟨false, p', p⟩ List.mem_cons_self) (monotone_comparison _)
        (R := fun S => S ⟨false, q, q'⟩) ?_ (monotone_comparison _)).mono fun S hS => .fn hS.1 hS.2
      rw [Subst.apply_empty, Subst.apply_empty]
      refine Reveals.mono (Reveals.bind (h ⟨false, q, q'⟩ (List.mem_cons_of_mem _
        List.mem_cons_self)) (monotone_comparison _) (R := fun _ => True) ?_ fun _ _ _ => id)
        fun S hS => hS.1
      exact reveals_pure fun _ => trivial
  · split
    · next hlen =>
        refine (reveals_thread (k := false) fun e he => ?_).mono fun S hS => .tuple hlen hS
        refine h ⟨false, e.1, e.2⟩ (show _ ∈ if _ then _ else _ from ?_)
        rw [if_pos hlen]
        exact List.mem_map_of_mem he
    · next hlen =>
        refine hunified (show _ ∈ if _ then _ else _ from ?_) fun S hS => ?_
        · rw [if_neg hlen]
          exact List.mem_cons_self
        · cases hS with
          | equiv heq => exact absurd heq (by simp [hne])
          | tuple hlen' => exact absurd hlen' hlen
  · exact reveals_pure fun S => .literal _
  · next hunion hinter hunion' hinter' hrecord hfn htuple hlit =>
      refine hunified ?_ fun S hS => ?_
      · unfold Registry.followsShapes
        split
        · exact absurd rfl (hunion _)
        · exact absurd rfl (hunion' _)
        · exact absurd rfl (hinter _)
        · exact absurd rfl (hinter' _)
        · exact (hrecord _ _ _ _ rfl rfl).elim
        · exact (hfn _ _ _ _ rfl rfl).elim
        · exact (htuple _ _ rfl rfl).elim
        · exact (hlit _ rfl rfl).elim
        · exact List.mem_cons_self
      · cases hS with
        | string v => exact ⟨rfl, v, rfl⟩
        | equiv heq => exact absurd heq (by simp [hne])
        | unions => exact absurd rfl (hunion _)
        | intoUnion => exact absurd rfl (hunion' _)
        | fromUnion => exact absurd rfl (hunion _)
        | intoInter => exact absurd rfl (hinter' _)
        | fromInter => exact absurd rfl (hinter _)
        | literal => exact (hlit _ rfl rfl).elim
        | fn => exact (hfn _ _ _ _ rfl rfl).elim
        | tuple => exact (htuple _ _ rfl rfl).elim
        | record => exact (hrecord _ _ _ _ rfl rfl).elim
        | args => cases hinda
        | expand => cases hinda
        | unfold => cases hinda
        | expandRight => cases hindb
        | unfoldRight => cases hindb

/-- Making a comparison of ground types, at most so many steps deep. -/
theorem reveals_compare : ∀ (n : Nat) {c : Comparison}, P c.sub ∧ P c.super →
    (∀ e, ctx.registry.Asks n c e → C e) →
    (∀ e, ctx.registry.Asks n c e → e.Assumable → M e) →
    Reveals ctx.registry C M (compare ctx n c) fun S => S c
  | n, ⟨true, a, b⟩, hc, hcome, hcomp =>
      reveals_unify hP hinj n hc.1 hc.2 (fun e he => hcome _ he.asks) fun e he => hcomp _ he.asks
  | 0, ⟨false, a, b⟩, _, _, _ => fun _ => ends_exceed trivial
  | n + 1, ⟨false, a, b⟩, ⟨ha, hb⟩, hcome, hcomp => by
      have ih : ∀ d ∈ ctx.registry.follows a b,
          Reveals ctx.registry C M (compare ctx n d) fun S => S d := fun d hd =>
        reveals_compare n (hP.follows ha hb d hd) (fun e he => hcome e (.next hd he))
          fun e he => hcomp e (.next hd he)
      have hhere : C ⟨false, a, b⟩ := hcome _ (.here _)
      have hself : Comparison.Assumable ⟨false, a, b⟩ → M ⟨false, a, b⟩ := hcomp _ (.here _)
      show Reveals ctx.registry C M
        (subtypeStep ctx (Relate.unify ctx n) (Relate.subtype ctx n) a b) _
      unfold subtypeStep
      split
      · next heq => exact reveals_justified hhere (reveals_pure fun S => .equiv heq)
      · next hne =>
          have hne : a.equiv b = false := by simpa using hne
          split
          · exact absurd (hP.ground ha) Ty.not_ground_var
          · exact absurd (hP.ground hb) Ty.not_ground_var
          · split
            · next hind =>
                have hM := hself ⟨hne, hind⟩
                rw [subtypeIndirect_eq]
                refine reveals_assume hhere hM (fun c hc => hinj c ⟨false, a, b⟩ hc hM) rfl ?_
                exact reveals_subtypeUnwrapped hne hind fun c d hcd => ih _ hcd
            · next hind =>
                rw [Bool.not_eq_true, Bool.or_eq_false_iff] at hind
                exact reveals_justified hhere (reveals_subtypeShapes hP hinj ha hb hne hind.1 hind.2
                  ih (fun d hd e he => hcome e (.next hd he)) fun d hd e he => hcomp e (.next hd he))

end Reveals

end Relate

/-! ## Comparisons that hold -/

namespace Registry

variable {r : Registry} {P : Ty → Prop} {S : Comparison → Prop} {a b : Ty} {c : Comparison}

/-- A comparison holds: it is one of some comparisons that justify each other. -/
def Holds (r : Registry) (P : Ty → Prop) (c : Comparison) : Prop :=
  ∃ S : Comparison → Prop, (∀ d, S d → (P d.sub ∧ P d.super) ∧ d.Justified r S) ∧ S c

theorem Holds.proper (h : r.Holds P c) : P c.sub ∧ P c.super := by
  obtain ⟨S, hS, hc⟩ := h
  exact (hS c hc).1

theorem Holds.justified (h : r.Holds P c) : c.Justified r (r.Holds P) := by
  obtain ⟨S, hS, hc⟩ := h
  exact (hS c hc).2.mono fun d hd => ⟨S, hS, hd⟩

theorem Holds.sustained (h : r.Holds P ⟨false, a, b⟩) : r.Sustained (r.Holds P) a b := h.justified

/-- Comparisons hold that justify each other together with others that hold. -/
theorem holds_of_justified
    (hS : ∀ d, S d → (P d.sub ∧ P d.super) ∧ d.Justified r fun e => S e ∨ r.Holds P e)
    (hc : S c) : r.Holds P c := by
  refine ⟨fun e => S e ∨ r.Holds P e, ?_, .inl hc⟩
  rintro d (hd | hd)
  · exact hS d hd
  · exact ⟨hd.proper, hd.justified.mono fun _ => .inr⟩

theorem holds_of_equiv {k : Bool} (ha : P a) (hb : P b) (h : a.equiv b = true) :
    r.Holds P ⟨k, a, b⟩ := by
  refine holds_of_justified (S := (· = ⟨k, a, b⟩)) ?_ rfl
  rintro _ rfl
  cases k with
  | true => exact ⟨⟨ha, hb⟩, Justified.equiv h⟩
  | false => exact ⟨⟨ha, hb⟩, Sustained.equiv h⟩

end Registry

namespace Relate

variable {ctx : Context} {unify subtype : Relation} {n limit : Nat} {P : Ty → Prop} {a b : Ty}
  {p : Progress} {s : Subst}

/-- What a successful run shows about the types that were compared, if no assumption was mistaken
for another one. -/
theorem holds_of_subtype (hP : ctx.registry.Hereditary P) (ha : P a) (hb : P b)
    (hapart : ctx.registry.KeptApart limit a b)
    (h : ((Relate.subtype ctx limit a b).run { supply := p.supply }).1 = .ok s) :
    ctx.registry.Holds P ⟨false, a, b⟩ := by
  have hends := reveals_compare (C := fun c => P c.sub ∧ P c.super)
    (M := fun c => ctx.registry.Asks limit ⟨false, a, b⟩ c ∧ c.Assumable) hP
    (fun c d hc hd => hapart c d hc.1 hd.1 hc.2 hd.2) limit (c := ⟨false, a, b⟩) ⟨ha, hb⟩
    (fun e he => hP.asks he ⟨ha, hb⟩) (fun e he he' => ⟨he, he'⟩) { supply := p.supply }
  unfold Ends at hends
  split at hends
  · obtain ⟨-, shown, hsupp, hab⟩ := hends
    refine ⟨fun d => d ∈ shown, fun d hd => ⟨hsupp.proper d hd, ?_⟩, backed_nil.1 hab⟩
    exact (hsupp.justified d hd).mono fun _ => backed_nil.1
  · next heq =>
      have heq : (Relate.subtype ctx limit a b).run { supply := p.supply } = _ := heq
      rw [heq] at h
      cases h

/-! ## Subtyping ground types binds nothing -/

section Shows

variable (hP : ctx.registry.Hereditary P)
include hP

theorem shows_subtypeUnwrapped (ha : P a) (hb : P b)
    (h : ∀ {c d : Ty}, P c → P d → Shows (subtype c d) True) :
    Shows (subtypeUnwrapped ctx subtype a b) True := by
  unfold subtypeUnwrapped
  split
  · exact shows_expand fun t ht => h (hP.expand ha ht) hb
  · exact h (hP.unfold ha) hb
  · exact shows_expand fun t ht => h ha (hP.expand hb ht)
  · exact h ha (hP.unfold hb)
  · exact h ha hb

theorem shows_subtypeShapes_ground (ha : P a) (hb : P b)
    (hunify : ∀ {c d : Ty}, P c → P d → Shows (unify c d) True)
    (h : ∀ {c d : Ty}, P c → P d → Shows (subtype c d) True) :
    Shows (subtypeShapes ctx unify subtype a b) True := by
  unfold subtypeShapes
  split
  · exact (shows_thread (R := fun _ _ => True) (List.forall_mem_map.2 fun t ht =>
      h (hP.union ha t ht) hb)).mono fun _ => trivial
  · exact (shows_subtypeSome fun t ht => h ha (hP.union hb t ht)).mono fun _ => trivial
  · exact (shows_subtypeSome fun m hm => h (hP.inter ha m hm) hb).mono fun _ => trivial
  · exact (shows_thread (R := fun _ _ => True) (List.forall_mem_map.2 fun m hm =>
      h ha (hP.inter hb m hm))).mono fun _ => trivial
  · obtain rfl := (hP.ground ha).closed
    obtain rfl := (hP.ground hb).closed
    refine (shows_subtypeRecords (R := fun _ _ => True) fun g hg t ht => ?_).mono fun _ => trivial
    exact hunify (hP.record ha _ (Table.mem_of_get? ht)) (hP.record hb g hg)
  · refine Shows.bind (h (hP.fn hb).1 (hP.fn ha).1) fun _ => ?_
    rw [Subst.apply_empty, Subst.apply_empty]
    exact Shows.bind (h (hP.fn ha).2 (hP.fn hb).2) fun _ => shows_pure trivial
  · split
    · refine (shows_thread (R := fun _ _ => True) fun e he => ?_).mono fun _ => trivial
      exact h (hP.tuple ha _ (List.of_mem_zip he).1) (hP.tuple hb _ (List.of_mem_zip he).2)
    · exact shows_orElseThrow (hunify ha hb)
  · exact shows_pure trivial
  · exact shows_orElseThrow (hunify ha hb)

theorem shows_subtype_ground : ∀ (n : Nat) {a b : Ty}, P a → P b →
    Shows (Relate.subtype ctx n a b) True
  | 0, _, _, _, _ => shows_exceed _ _
  | n + 1, a, b, ha, hb => by
      show Shows (subtypeStep ctx (Relate.unify ctx n) (Relate.subtype ctx n) a b) _
      unfold subtypeStep
      split
      · exact shows_pure trivial
      · split
        · exact absurd (hP.ground ha) Ty.not_ground_var
        · exact absurd (hP.ground hb) Ty.not_ground_var
        · split
          · rw [subtypeIndirect_eq]
            exact shows_assume (shows_pure trivial)
              (shows_subtypeUnwrapped hP ha hb (shows_subtype_ground n))
          · exact shows_subtypeShapes_ground hP ha hb (shows_unify_ground hP n)
              (shows_subtype_ground n)

end Shows

/-! ## Comparisons that hold are made -/

section Replays

variable {bound : List Digest → Nat} {S : Comparison → Prop}

theorem replays_unifyWidth (hbound : Shrinks bound) {sub super : RecordTy} :
    ∀ {gs : List (String × Ty)}, (∀ g ∈ gs, ∀ t, sub.field? g.1 = some t →
      Replays n bound (unify t g.2)) → Replays n bound (unifyWidth ctx unify sub super gs .empty)
  | [], _ => replays_pure
  | g :: gs, h => by
      obtain ⟨hhead, htail⟩ := List.forall_mem_cons.1 h
      rw [unifyWidth]
      split
      · exact replays_unifyWidth hbound htail
      · next t ht =>
          rw [Subst.apply_empty, Subst.apply_empty]
          exact (replays_orElseThrow (hhead t ht)).bind hbound (replays_unifyWidth hbound htail)

/-- A closed record that has all fields of another one, with types that are unified. -/
theorem replays_subtypeRecords (hbound : Shrinks bound) {fs gs : List (String × Ty)}
    (h : ∀ g ∈ gs, ∃ t, Table.get? g.1 fs = some t ∧ Replays n bound (unify t g.2)) :
    Replays n bound (subtypeRecords ctx unify ⟨fs, none⟩ ⟨gs, none⟩) := by
  refine (replays_unifyWidth hbound fun g hg t ht => ?_).bind hbound ?_
  · obtain ⟨u, hu, hreplays⟩ := h g hg
    obtain rfl : t = u := Option.some.inj (ht.symm.trans hu)
    exact hreplays
  · have hmissing : (RecordTy.names ⟨gs, none⟩).filter
        (fun name => (RecordTy.field? ⟨fs, none⟩ name).isNone) = [] := by
      refine List.filter_eq_nil_iff.2 (List.forall_mem_map.2 fun g hg => ?_)
      obtain ⟨t, ht, -⟩ := h g hg
      simp [RecordTy.field?, ht]
    dsimp only
    rw [hmissing]
    exact replays_pure

theorem subtypeUnwrapped_right {name : String} {args : List Ty} (h : isIndirect a = false) :
    subtypeUnwrapped ctx subtype a (.named name args) = expand ctx name args >>= subtype a := by
  cases a <;> first | rfl | cases h

theorem subtypeUnwrapped_mu_right {v : TyVar} {t : Ty} (h : isIndirect a = false) :
    subtypeUnwrapped ctx subtype a (.mu v t) = subtype a (.unfold v t) := by
  cases a <;> first | rfl | cases h

theorem replays_subtypeUnwrapped (hne : a.equiv b = false)
    (hind : (isIndirect a || isIndirect b) = true)
    (h : ∀ {c d : Ty}, S ⟨false, c, d⟩ → Replays n bound (subtype c d))
    (hsustained : ctx.registry.Sustained S a b) :
    Replays n bound (subtypeUnwrapped ctx subtype a b) := by
  cases hsustained with
  | equiv heq => exact absurd heq (by simp [hne])
  | unwrap ht hS =>
      cases a with
      | named name args => exact replays_expand ht (h hS)
      | mu v t => cases ht; exact h hS
      | _ => cases ht
  | unwrapRight hinda ht hS =>
      cases b with
      | named name args =>
          rw [subtypeUnwrapped_right hinda]
          exact replays_expand ht (h hS)
      | mu v t =>
          rw [subtypeUnwrapped_mu_right hinda]
          cases ht
          exact h hS
      | _ => cases ht
  | fromUnion hindb => rw [hindb, Bool.or_false] at hind; cases hind
  | intoUnion hinda => rw [hinda] at hind; cases hind
  | fromInter hindb => rw [hindb, Bool.or_false] at hind; cases hind
  | intoInter hinda => rw [hinda] at hind; cases hind
  | _ => cases hind

theorem subtypeShapes_intoUnion {ts : List Ty} (h : ∀ as, a ≠ .union as) :
    subtypeShapes ctx unify subtype a (.union ts) = subtypeSome ctx a (.union ts)
      "no alternative of the union accepts it" (firstOf (subtype a) ts) := by
  cases a <;> first | rfl | exact absurd rfl (h _)

theorem subtypeShapes_fromInter {ms : List Ty} (h : ∀ bs, b ≠ .union bs) :
    subtypeShapes ctx unify subtype (.inter ms) b = subtypeSome ctx (.inter ms) b
      "no member of the intersection is a subtype" (firstOf (fun m => subtype m b) ms) := by
  cases b <;> first | rfl | exact absurd rfl (h _)

theorem subtypeShapes_intoInter {ms : List Ty} (h : ∀ as, a ≠ .union as)
    (h' : ∀ ns, a ≠ .inter ns) : subtypeShapes ctx unify subtype a (.inter ms) =
      thread subtype (ms.map fun m => (a, m)) .empty := by
  cases a <;> first | rfl | exact absurd rfl (h _) | exact absurd rfl (h' _)

/-- Strings go with a literal, one step deep. -/
theorem replays_unify_string (value : String) :
    Replays n (fun _ => n + 1) (Relate.unify ctx n .string (.lit value)) := by
  cases n with
  | zero => exact fun _ => ends_exceed ⟨rfl, Nat.one_pos⟩
  | succ n =>
      show Replays _ _ (unifyStep ctx (Relate.unify ctx n) .string (.lit value))
      unfold unifyStep
      rw [if_neg (by simp [Ty.string, Ty.equiv, Ty.equivUnder])]
      exact replays_pure

theorem replays_subtypeShapes (hP : ctx.registry.Hereditary P) (ha : P a) (hb : P b)
    (hne : a.equiv b = false) (hinda : isIndirect a = false) (hindb : isIndirect b = false)
    (h : ∀ {c}, S c → Replays n (fun _ => n + 1) (compare ctx n c))
    (hsustained : ctx.registry.Sustained S a b) : Replays n (fun _ => n + 1)
      (subtypeShapes ctx (Relate.unify ctx n) (Relate.subtype ctx n) a b) := by
  have hbound : Shrinks fun _ => n + 1 := fun _ => Nat.le_refl _
  have hall : ∀ {c d : Ty}, P c → P d → Shows (Relate.subtype ctx n c d) True :=
    shows_subtype_ground hP n
  have hrelated : ∀ {c d : Ty}, S ⟨false, c, d⟩ →
      Replays n (fun _ => n + 1) (Relate.subtype ctx n c d) := fun hS => h hS
  have hunified : ∀ {c d : Ty}, S ⟨true, c, d⟩ →
      Replays n (fun _ => n + 1) (Relate.unify ctx n c d) := fun hS => h hS
  cases hsustained with
  | equiv heq => exact absurd heq (by simp [hne])
  | unwrap ht => rw [Registry.isIndirect_of_unwrap? ht] at hinda; cases hinda
  | unwrapRight _ ht => rw [Registry.isIndirect_of_unwrap? ht] at hindb; cases hindb
  | fromUnion _ hS =>
      exact replays_thread hbound (List.forall_mem_map.2 fun t ht => hrelated (hS t ht))
  | intoUnion _ hunion hS =>
      rw [subtypeShapes_intoUnion hunion]
      exact replays_firstOrThrow (fun t ht => hall ha (hP.union hb t ht))
        (hS.imp fun t ht => ⟨ht.1, hrelated ht.2⟩) _
  | fromInter _ hunion hS =>
      rw [subtypeShapes_fromInter hunion]
      exact replays_firstOrThrow (fun m hm => hall (hP.inter ha m hm) hb)
        (hS.imp fun m hm => ⟨hm.1, hrelated hm.2⟩) _
  | intoInter _ hunion hinter hS =>
      rw [subtypeShapes_intoInter hunion hinter]
      exact replays_thread hbound (List.forall_mem_map.2 fun m hm => hrelated (hS m hm))
  | string value => exact replays_orElseThrow (replays_unify_string value)
  | literal value => exact replays_pure
  | fn hp hq =>
      refine (hrelated hp).bind hbound ?_
      rw [Subst.apply_empty, Subst.apply_empty]
      refine Replays.bind (hrelated hq) hbound ?_
      exact replays_pure
  | tuple hlen hS =>
      show Replays n _ (if _ then _ else _)
      rw [if_pos hlen]
      exact replays_thread hbound fun e he => hrelated (hS e he)
  | record hS =>
      exact replays_subtypeRecords hbound fun g hg => (hS g hg).imp fun t ht =>
        ⟨ht.1, hunified ht.2⟩

/-- Comparisons that justify each other are made, unless the limit is exceeded. -/
theorem replays_compare (hP : ctx.registry.Hereditary P)
    (hS : ∀ c, S c → (P c.sub ∧ P c.super) ∧ c.Justified ctx.registry S) :
    ∀ (n : Nat) {c : Comparison}, S c → Replays n (fun _ => n + 1) (compare ctx n c)
  | n, ⟨true, a, b⟩, hc => replays_unify_of_justified (S := fun x y => S ⟨true, x, y⟩) hP
      (fun hxy => (hS _ hxy).1) (fun hxy => (hS _ hxy).2) n hc
  | 0, ⟨false, a, b⟩, _ => fun _ => ends_exceed ⟨rfl, Nat.one_pos⟩
  | n + 1, ⟨false, a, b⟩, hc => by
      obtain ⟨⟨ha, hb⟩, hjust⟩ := hS _ hc
      have ih : ∀ {c}, S c → Replays n (fun _ => n + 1) (compare ctx n c) :=
        replays_compare hP hS n
      show Replays (n + 1) _ (subtypeStep ctx (Relate.unify ctx n) (Relate.subtype ctx n) a b)
      unfold subtypeStep
      split
      · exact replays_pure
      · next hne =>
          have hne : a.equiv b = false := by simpa using hne
          split
          · exact absurd (hP.ground ha) Ty.not_ground_var
          · exact absurd (hP.ground hb) Ty.not_ground_var
          · split
            · next hind =>
                rw [subtypeIndirect_eq]
                refine Replays.step (replays_assume rfl
                  (replays_subtypeUnwrapped hne hind (fun hcd => ih hcd) hjust) ?_)
                exact fun _ _ => Nat.le_refl _
            · next hind =>
                rw [Bool.not_eq_true, Bool.or_eq_false_iff] at hind
                exact (replays_subtypeShapes hP ha hb hne hind.1 hind.2 ih hjust).step

/-- Where a comparison holds, one type is made a subtype of the other, unless the limit is
exceeded. -/
theorem ends_subtype_of_holds (hP : ctx.registry.Hereditary P)
    (h : ctx.registry.Holds P ⟨false, a, b⟩) (n : Nat) (p : Progress) :
    Ends (Relate.subtype ctx n a b) p (fun _ _ => True) fun _ q => q.exceeded = true := by
  obtain ⟨S, hS, hab⟩ := h
  exact (replays_compare hP hS n hab p).imp (fun _ _ _ => trivial) fun _ _ h => h.1

end Replays

end Relate

end RowTypes
