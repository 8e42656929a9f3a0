import Mathlib.Data.List.Sort
import RowTypes.Proofs.Contexts
import RowTypes.Proofs.RenamedTypes

/-!
# Using a scheme

Each use of a scheme is the body with new names for the quantified unknowns: the supply hands them
out in turn, so they are told apart from each other and from everything that was there before
(`Scheme.Renews`).  Two uses therefore have nothing in common but what is free in the scheme, and
closing one of them again over its new unknowns gives the scheme under other names.

What is found out about the unknowns that are free in a scheme can be put in before the scheme is
used or after.
-/

namespace RowTypes

open Ty

theorem Subst.without_eq_self {s : Subst} : ∀ {vs : List TyVar},
    (∀ v ∈ vs, s.get? v.id = none) → s.without vs = s
  | [], _ => rfl
  | v :: vs, h => by
      obtain ⟨hv, hvs⟩ := List.forall_mem_cons.1 h
      have herase : s.erase v = s := by
        refine congrArg Subst.mk (List.filter_eq_self.2 fun entry hentry => ?_)
        have hkeys : v.id ∉ s.bindings.keys := by
          rw [← Table.get?_isSome, Option.map_eq_none_iff.1 hv]
          exact Bool.false_ne_true
        refine decide_eq_true fun heq => hkeys ?_
        exact List.mem_map.2 ⟨entry, hentry, heq⟩
      show (s.erase v).without vs = s
      rw [herase]
      exact without_eq_self hvs

namespace Scheme

variable {p : Scheme} {level : Int} {n : Nat} {r : Int → Option TyVar} {s : Subst} {id : Int}

/-- The quantified unknowns get the numbers after the given one, in turn, and the others keep
theirs. -/
structure Renews (p : Scheme) (level : Int) (n : Nat) (r : Int → Option TyVar) : Prop where
  fresh : ∀ (i : Nat) (h : i < p.vars.length), r p.vars[i].id = some ⟨(n : Int) + i + 1, level⟩
  other : ∀ id, ¬ p.Binds id → r id = none

/-- One of the numbers that a use of the scheme takes from the supply. -/
def Takes (p : Scheme) (n : Nat) (id : Int) : Prop := n < id ∧ id ≤ n + p.vars.length

instance (p : Scheme) (n : Nat) (id : Int) : Decidable (p.Takes n id) :=
  inferInstanceAs (Decidable (_ ∧ _))

namespace Renews

theorem exists_index (h : p.Renews level n r) {v : TyVar} (hv : r id = some v) :
    ∃ (i : Nat) (hi : i < p.vars.length), p.vars[i].id = id ∧ v = ⟨(n : Int) + i + 1, level⟩ := by
  by_cases hid : p.Binds id
  · obtain ⟨w, hw, rfl⟩ := binds_iff.1 hid
    obtain ⟨i, hi, rfl⟩ := List.getElem_of_mem hw
    rw [h.fresh i hi] at hv
    exact ⟨i, hi, rfl, (Option.some.inj hv).symm⟩
  · rw [h.other id hid] at hv
    cases hv

theorem takes (h : p.Renews level n r) {v : TyVar} (hv : r id = some v) : p.Takes n v.id := by
  obtain ⟨i, hi, -, rfl⟩ := h.exists_index hv
  exact ⟨by dsimp only; omega, by dsimp only; omega⟩

theorem isSome_iff (h : p.Renews level n r) : (r id).isSome = true ↔ p.Binds id := by
  constructor
  · intro hsome
    by_contra hnot
    rw [h.other id hnot] at hsome
    cases hsome
  · intro hid
    obtain ⟨w, hw, rfl⟩ := binds_iff.1 hid
    obtain ⟨i, hi, rfl⟩ := List.getElem_of_mem hw
    rw [h.fresh i hi]
    rfl

/-- Numbers that the supply has not handed out yet are not mistaken for others. -/
theorem injOn (h : p.Renews level n r) : Set.InjOn (renumber r) {id | ¬ p.Takes n id} := by
  intro a ha b hb hab
  cases hra : r a with
  | none =>
      cases hrb : r b with
      | none => rwa [renumber_of_none hra, renumber_of_none hrb] at hab
      | some w =>
          rw [renumber_of_none hra, renumber_of_some hrb] at hab
          exact absurd (hab ▸ h.takes hrb) ha
  | some v =>
      cases hrb : r b with
      | none =>
          rw [renumber_of_some hra, renumber_of_none hrb] at hab
          exact absurd (hab ▸ h.takes hra) hb
      | some w =>
          rw [renumber_of_some hra, renumber_of_some hrb] at hab
          obtain ⟨i, hi, rfl, rfl⟩ := h.exists_index hra
          obtain ⟨j, hj, rfl, rfl⟩ := h.exists_index hrb
          obtain rfl : i = j := by dsimp only at hab; omega
          rfl

end Renews

/-- What the quantified unknowns are sent to, one by one. -/
theorem get?_refresh_getElem (level : Int) : ∀ (vs : List TyVar) (s : Subst) (n : Nat),
    vs.Pairwise (fun v w => v.id ≠ w.id) → (∀ v ∈ vs, v.id ≤ n) →
    (∀ (i : Nat) (h : i < vs.length), (refresh level vs s ⟨n⟩).1.get? vs[i].id =
      some (.var ⟨(n : Int) + i + 1, level⟩)) ∧
    ∀ id, id ∉ vs.map (·.id) → (refresh level vs s ⟨n⟩).1.get? id = s.get? id
  | [], s, n, _, _ => ⟨fun _ h => absurd h (Nat.not_lt_zero _), fun _ _ => rfl⟩
  | v :: vs, s, n, hdistinct, hle => by
      obtain ⟨hv, hvs⟩ := List.pairwise_cons.1 hdistinct
      obtain ⟨hvn, hvsn⟩ := List.forall_mem_cons.1 hle
      have hrest := get?_refresh_getElem level vs (s.bind v (.var ⟨(n : Int) + 1, level⟩)) (n + 1)
        hvs fun w hw => by have := hvsn w hw; omega
      rw [refresh]
      constructor
      · rintro (_ | i) h
        · refine (hrest.2 v.id ?_).trans ?_
          · rintro hmem
            obtain ⟨w, hw, hid⟩ := List.mem_map.1 hmem
            exact hv w hw hid.symm
          · rw [Subst.get?_bind, if_pos rfl, Subst.held_of_ne]
            · simp
            · rintro w ⟨rfl⟩
              dsimp only
              omega
        · refine (hrest.1 i (Nat.lt_of_succ_lt_succ h)).trans ?_
          push_cast
          congr 3
          omega
      · intro id hid
        rw [List.map_cons, List.mem_cons, not_or] at hid
        refine (hrest.2 id hid.2).trans ?_
        rw [Subst.get?_bind, if_neg hid.1]

/-- The renaming that a substitution of unknowns for unknowns is. -/
def renewal (s : Subst) (id : Int) : Option TyVar :=
  match s.get? id with
  | some (.var w) => some w
  | _ => none

/-- A scheme that is used is its body with new names. -/
theorem exists_renews (level : Int) (hdistinct : p.vars.Pairwise fun v w => v.id ≠ w.id)
    (hle : ∀ v ∈ p.vars, v.id ≤ n) : ∃ r, p.Renews level n r := by
  obtain ⟨hfresh, hother⟩ := get?_refresh_getElem level p.vars .empty n hdistinct hle
  refine ⟨renewal (refresh level p.vars .empty ⟨n⟩).1, fun i hi => ?_, fun id hid => ?_⟩
  · rw [renewal, hfresh i hi]
  · rw [renewal, hother id hid]
    rfl

theorem instantiate_eq_rename (hdistinct : p.vars.Pairwise fun v w => v.id ≠ w.id)
    (hle : ∀ v ∈ p.vars, v.id ≤ n) (hr : p.Renews level n r) (hbody : p.body.Plain)
    (hover : p.body.Over fun id => ¬ p.Takes n id) :
    p.instantiate level ⟨n⟩ = (p.body.rename r, ⟨n + p.vars.length⟩) := by
  obtain ⟨hfresh, hother⟩ := get?_refresh_getElem level p.vars .empty n hdistinct hle
  have hget : ∀ id, (refresh level p.vars .empty ⟨n⟩).1.get? id = (r id).map .var := by
    intro id
    by_cases hid : p.Binds id
    · obtain ⟨v, hv, rfl⟩ := binds_iff.1 hid
      obtain ⟨i, hi, rfl⟩ := List.getElem_of_mem hv
      rw [hfresh i hi, hr.fresh i hi]
      rfl
    · rw [hother id hid, hr.other id hid]
      rfl
  have hcount : (refresh level p.vars .empty ⟨n⟩).2 = ⟨n + p.vars.length⟩ :=
    congrArg Supply.mk (count_refresh level p.vars .empty ⟨n⟩)
  have happly := Subst.apply_eq_rename hget hr.injOn hbody hover
  unfold instantiate
  split
  · next hmono =>
      -- Without unknowns to refresh, nothing is applied at all.
      have hnil : p.vars = [] := List.isEmpty_iff.1 hmono
      rw [hnil] at happly hcount ⊢
      rw [← happly, refresh, Subst.apply_empty]
      rfl
  · exact Prod.ext happly hcount

section Generalize

variable {t : Ty} {except : VarSet}

theorem ascending_generalize (h : t.Tame) :
    (generalize t except).vars.Pairwise fun v w => v.id < w.id := (ascending_free h).filter _

theorem mentions_of_mem_generalize {v : TyVar} (hv : v ∈ (generalize t except).vars) :
    t.Mentions v.id := mentions_of_mem_free (List.mem_filter.1 hv).1

/-- The numbers in a use of a scheme are those that are free in the scheme, and those taken. -/
theorem mentions_renewed (hr : (generalize t except).Renews level n r) (h : t.Tame) :
    (t.rename r).Mentions id ↔
      (generalize t except).Mentions id ∨ (generalize t except).Takes n id := by
  rw [mentions_rename h]
  constructor
  · rintro ⟨old, hold, rfl⟩
    cases hv : r old with
    | none =>
        rw [renumber_of_none hv]
        refine .inl ⟨hold, fun hbinds => ?_⟩
        rw [← hr.isSome_iff, hv] at hbinds
        cases hbinds
    | some v =>
        rw [renumber_of_some hv]
        exact .inr (hr.takes hv)
  · rintro (⟨hid, hnot⟩ | ⟨hlt, hle⟩)
    · exact ⟨id, hid, renumber_of_none (hr.other id hnot)⟩
    · have hi : (id - n - 1).toNat < (generalize t except).vars.length := by omega
      refine ⟨_, mentions_of_mem_generalize (List.getElem_mem hi), ?_⟩
      rw [renumber_of_some (hr.fresh _ hi)]
      dsimp only
      omega

theorem rename_of_mem {v : TyVar} (hr : p.Renews level n r) (hv : v ∈ p.vars) :
    p.Takes n (v.rename r).id ∧ r v.id = some (v.rename r) := by
  obtain ⟨i, hi, rfl⟩ := List.getElem_of_mem hv
  have hrename : r p.vars[i].id = some (p.vars[i].rename r) := by
    rw [TyVar.rename, hr.fresh i hi]
    rfl
  exact ⟨hr.takes hrename, hrename⟩

/-- Of the free unknowns in a use of a scheme, those with the numbers taken are the new ones. -/
theorem exists_of_takes (hr : (generalize t except).Renews level n r) (h : t.Tame)
    (hids : t.Over (· ≤ (n : Int))) {v : TyVar} (hv : v ∈ (t.rename r).free)
    (htakes : (generalize t except).Takes n v.id) :
    ∃ u ∈ (generalize t except).vars, u.rename r = v := by
  obtain ⟨w, hw, rfl⟩ := (free_rename (r := r) h hids).2 v hv
  cases hrw : r w.id with
  | none => rw [TyVar.rename, hrw] at htakes; exact absurd htakes.1 (not_lt.2 hw)
  | some x =>
      obtain ⟨i, hi, hid, rfl⟩ := hr.exists_index hrw
      refine ⟨_, List.getElem_mem hi, ?_⟩
      rw [TyVar.rename, TyVar.rename, hid, hrw]
      rfl

/-- Closing a use of a scheme over its new unknowns gives the scheme under other names. -/
theorem generalize_renewed (hr : (generalize t except).Renews level n r) (h : t.Tame)
    (hids : t.Over (· ≤ (n : Int))) {except' : VarSet}
    (hfree : ∀ id, (generalize t except).Mentions id → except'.has ⟨id, 0⟩ = true)
    (htaken : ∀ v ∈ except', ¬ (generalize t except).Takes n v.id) :
    generalize (t.rename r) except' =
      ⟨(generalize t except).vars.map (TyVar.rename r), (generalize t except).body.rename r⟩ := by
  have hhas : ∀ v : TyVar, except'.has ⟨v.id, 0⟩ = except'.has v := fun _ => rfl
  have hanti : Std.Antisymm fun v w : TyVar => v.id < w.id :=
    ⟨fun _ _ h h' => absurd h (not_lt.2 h'.le)⟩
  have hirrefl : Std.Irrefl fun v w : TyVar => v.id < w.id := ⟨fun _ => lt_irrefl _⟩
  refine congrArg (Scheme.mk · (t.rename r)) ?_
  -- Both are in ascending order, so it is enough that they have the same elements.
  refine List.Pairwise.eq_of_mem_iff ((free_rename h hids).1.filter _) ?_ fun v => ?_
  · rw [List.pairwise_map, List.pairwise_iff_getElem]
    intro i j hi hj hij
    rw [TyVar.id_rename, TyVar.id_rename, renumber_of_some (hr.fresh i hi),
      renumber_of_some (hr.fresh j hj)]
    dsimp only
    omega
  · rw [List.mem_filter, List.mem_map, Bool.not_eq_true']
    constructor
    · rintro ⟨hv, hnot⟩
      refine exists_of_takes hr h hids hv ?_
      refine ((mentions_renewed hr h).1 (mentions_of_mem_free hv)).resolve_left fun hmentions => ?_
      rw [← hhas, hfree v.id hmentions] at hnot
      cases hnot
    · rintro ⟨u, hu, rfl⟩
      obtain ⟨htakes, hru⟩ := rename_of_mem hr hu
      constructor
      · obtain ⟨v, hv, hid⟩ := List.any_eq_true.1
          (Ty.has_free (w := u.rename r).2 ((mentions_renewed hr h).2 (.inr htakes)))
        have hid : v.id = (u.rename r).id := by simpa using hid
        obtain ⟨u', hu', rfl⟩ := exists_of_takes hr h hids hv (hid ▸ htakes)
        have hold : ∀ w ∈ (generalize t except).vars, ¬ (generalize t except).Takes n w.id :=
          fun w hw h => absurd h.1 (not_lt.2 (hids.of_mentions (mentions_of_mem_generalize hw)))
        have heq : u.id = u'.id := by
          refine hr.injOn (hold u hu) (hold u' hu') ?_
          rw [← TyVar.id_rename, ← TyVar.id_rename, hid]
        have hru' := (rename_of_mem hr hu').2
        rw [← heq, hru] at hru'
        rwa [Option.some.inj hru']
      · rw [Bool.eq_false_iff]
        intro hmem
        obtain ⟨w, hw, hid⟩ := List.any_eq_true.1 hmem
        have hid : w.id = (u.rename r).id := by simpa using hid
        exact htaken w hw (hid ▸ htakes)

end Generalize

/-- A scheme that a type without recursion is closed to is used by renaming.  The quantified unknowns
get the next numbers from the supply, in turn, none of which is taken for another, and the others
keep theirs.  So what two uses have in common is what is free in the scheme, and closing one of them
over its new unknowns gives the scheme under other names.  A substitution that has nothing to do with
either names comes to the same before the scheme is used and after. -/
theorem instantiate_generalize {t : Ty} {except : VarSet} {n : Nat} (ht : t.Plain)
    (hids : t.Over (· ≤ (n : Int))) (level : Int) :
    let p := generalize t except
    ∃ r, p.Renews level n r ∧ Set.InjOn (renumber r) {id | ¬ p.Takes n id} ∧
      p.instantiate level ⟨n⟩ = (t.rename r, ⟨n + p.vars.length⟩) ∧
      (∀ (level' : Int) (m : Nat), n + p.vars.length ≤ m → ∀ id,
        (t.rename r).Mentions id ∧ (p.instantiate level' ⟨m⟩).1.Mentions id ↔ p.Mentions id) ∧
      (∀ except' : VarSet, (∀ id, p.Mentions id → except'.has ⟨id, 0⟩ = true) →
        (∀ v ∈ except', ¬ p.Takes n v.id) →
        generalize (t.rename r) except' = ⟨p.vars.map (TyVar.rename r), p.body.rename r⟩) ∧
      ∀ s : Subst, (∀ id u, s.get? id = some u → u.Plain ∧ (¬ p.Binds id ∧ ¬ p.Takes n id) ∧
          u.Over fun id => ¬ p.Binds id ∧ ¬ p.Takes n id) →
        (p.apply s).instantiate level ⟨n⟩ = (s.apply (t.rename r), ⟨n + p.vars.length⟩) := by
  intro p
  have hdistinct : p.vars.Pairwise fun v w => v.id ≠ w.id :=
    (ascending_generalize ht.tame).imp fun h => ne_of_lt h
  have hle : ∀ v ∈ p.vars, v.id ≤ n := fun v hv =>
    hids.of_mentions (mentions_of_mem_generalize hv)
  have hover : ∀ m, n ≤ m → t.Over fun id => ¬ p.Takes m id := fun m hm =>
    hids.mono fun id hid htakes => by
      have := htakes.1
      omega
  obtain ⟨r, hr⟩ := exists_renews level hdistinct hle
  refine ⟨r, hr, hr.injOn, instantiate_eq_rename hdistinct hle hr ht (hover n le_rfl), ?_, ?_, ?_⟩
  · intro level' m hm id
    have hle' : ∀ v ∈ p.vars, v.id ≤ m := fun v hv => by have := hle v hv; omega
    obtain ⟨r', hr'⟩ := exists_renews level' hdistinct hle'
    rw [instantiate_eq_rename hdistinct hle' hr' ht (hover m (by omega)),
      mentions_renewed hr ht.tame]
    show _ ∧ (t.rename r').Mentions id ↔ _
    rw [mentions_renewed hr' ht.tame]
    constructor
    · rintro ⟨h | h, h' | h'⟩
      · exact h
      · exact h
      · exact h'
      · have hle : id ≤ n + p.vars.length := h.2
        have hlt : (m : Int) < id := h'.1
        omega
    · exact fun h => ⟨.inl h, .inl h⟩
  · exact fun except' hfree htaken => generalize_renewed hr ht.tame hids hfree htaken
  · intro s hs
    have hbound : ∀ id, p.Binds id → s.get? id = none := fun id hid => by
      cases hu : s.get? id with
      | none => rfl
      | some u => exact absurd hid (hs id u hu).2.1.1
    have hbody : p.apply s = ⟨p.vars, s.apply t⟩ := by
      rw [apply, Subst.without_eq_self fun v hv => hbound v.id (binds_iff.2 ⟨v, hv, rfl⟩)]
      rfl
    have happly : (s.apply t).Plain := ht.apply fun id u hu => (hs id u hu).1
    have hrange : (s.apply t).Over fun id => ¬ p.Takes n id :=
      Subst.over_apply (hover n le_rfl) fun id u _ hu => (hs id u hu).2.2.mono fun _ h => h.2
    have hr' : Renews ⟨p.vars, s.apply t⟩ level n r := ⟨hr.fresh, hr.other⟩
    rw [hbody, instantiate_eq_rename (p := ⟨p.vars, s.apply t⟩) hdistinct hle hr' happly hrange]
    refine Prod.ext (Subst.apply_rename hr.injOn ht (hover n le_rfl) ?_ ?_).symm rfl
    · intro id u hu
      obtain ⟨hplain, -, havoid⟩ := hs id u hu
      exact ⟨hplain, havoid.mono fun _ h => h.2, havoid.mono fun id h => hr.other id h.1⟩
    · intro id v hv
      refine ⟨hbound id (hr.isSome_iff.1 (by rw [hv]; rfl)), ?_⟩
      cases hu : s.get? v.id with
      | none => rfl
      | some u => exact absurd (hr.takes hv) (hs _ u hu).2.1.2

/-- `{x: t1 | t2} → t1 | t3 | Int`. -/
def selecting : Ty :=
  .fn (.record [("x", .var ⟨1, 0⟩)] (some ⟨2, 0⟩)) (.union [.var ⟨1, 0⟩, .var ⟨3, 0⟩, .int])

theorem plain_selecting : selecting.Plain := by
  refine .fn (.record _ (List.pairwise_singleton _ _) (by simpa using .var _)) ?_
  refine .union (by decide) ?_ (by simp [Ty.int]) (by simp [equiv, equivUnder, Ty.int, TyVar.sameUnder])
  simpa using ⟨.var _, .var _, .prim _⟩

/-- Where `t3` is known to be `Int`, a use of `selecting` has two alternatives in its result. -/
theorem instantiate_generalize_selecting :
    let p := generalize selecting [⟨3, 0⟩]
    let s := Subst.single ⟨3, 0⟩ .int
    p.instantiate 0 ⟨3⟩ = (.fn (.record [("x", .var ⟨4, 0⟩)] (some ⟨5, 0⟩))
        (.union [.var ⟨4, 0⟩, .var ⟨3, 0⟩, .int]), ⟨5⟩) ∧
      (p.apply s).instantiate 0 ⟨3⟩ = (s.apply (p.instantiate 0 ⟨3⟩).1, ⟨5⟩) ∧
      (p.apply s).instantiate 0 ⟨3⟩ = (.fn (.record [("x", .var ⟨4, 0⟩)] (some ⟨5, 0⟩))
        (.union [.var ⟨4, 0⟩, .int]), ⟨5⟩) := by
  intro p s
  obtain ⟨r, -, -, hinstantiate, -, -, happly⟩ := @instantiate_generalize selecting
    [⟨3, 0⟩] 3 plain_selecting (by simp [selecting, Ty.int]) 0
  refine ⟨by with_unfolding_all rfl, ?_, by with_unfolding_all rfl⟩
  rw [show (p.instantiate 0 ⟨3⟩).1 = selecting.rename r from congrArg Prod.fst hinstantiate]
  refine happly s fun id u hu => ?_
  rw [Subst.get?_single] at hu
  split at hu
  · next hid =>
      cases hu
      subst hid
      refine ⟨.prim _, ?_, Ty.over_prim⟩
      decide +kernel
  · cases hu

end Scheme

end RowTypes
