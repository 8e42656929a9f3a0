import RowTypes.Proofs.Folding
import RowTypes.Proofs.GroundedTypes

/-!
# Coherent types mean what they are read as

Building a union or an intersection of coherent types loses nothing, since only equivalent ones are
left out, and those mean the same.  So replacing a binder by its recursive type, which builds anew
what it changes, gives a coherent type that is read as before; and because the binder does not stand
at the head of the body, the head that has to be unfolded gets lower each time.  By induction on the
depth and on that head, a coherent type in which no binder is free has the approximations of what it
is read as.
-/

namespace RowTypes

open Ty

namespace Registry

namespace Regular

variable {r : Registry} {P : Int → Prop} {w : r.Regular P} {I : Naming} {k : Compound}
  {t x : Ty} {ts : List Ty} {n : Nat} {id : Int} (hI : I.Sound P)

include hI

/-! ## Building compounds of coherent types -/

/-- What a coherent type consists of is read as what it is read as consists of. -/
theorem Coherent.agree_parts (h : w.Coherent I t) :
    r.Agree (n + 1) (I.folded t) (k.of ((k.parts t).map I.folded)) := by
  induction hn : t.tower using Nat.strong_induction_on generalizing t with
  | _ l ih =>
      have hself : ∀ {ts : List Ty}, (∀ t ∈ ts, w.Coherent I t) →
          ∀ u ∈ ts.map I.folded, r.Agree (n + 1) u u := fun hts =>
        List.forall_mem_map.2 fun t ht => (hts t ht).agree_self hI _
      have hparts : ∀ a ∈ k.parts t, w.Coherent I a := fun a ha =>
        Compound.of_mem_parts (fun _ => coherent_of.1) h ha
      by_cases hk : ∃ us, t = k.of us
      · obtain ⟨us, rfl⟩ := hk
        have hus := coherent_of.1 h
        rw [Naming.folded_of]
        refine agree_of (hself hus) (hself hparts) fun f => ?_
        have hreveals : ∀ u ∈ us, r.Reveals k (n + 1) (I.folded u) f ↔
            ∃ a ∈ k.parts u, r.Reveals k (n + 1) (I.folded a) f := by
          intro u hu
          have hagree := ih _ (hn ▸ tower_lt_of hu) (hus u hu) rfl
          have hparts : ∀ a ∈ k.parts u, w.Coherent I a := fun a ha =>
            Compound.of_mem_parts (fun _ => coherent_of.1) (hus u hu) ha
          have hof := reveals_of (k := k) (f := f) (hself hparts)
          simp only [List.mem_map, exists_exists_and_eq_and] at hof
          exact ⟨fun h => hof.1 (hagree.reveals h), fun h => hagree.symm.reveals (hof.2 h)⟩
        simp only [Compound.parts_of, List.mem_map, exists_exists_and_eq_and, List.mem_flatMap]
        constructor
        · rintro ⟨u, hu, hf⟩
          obtain ⟨a, ha, hf⟩ := (hreveals u hu).1 hf
          exact ⟨a, ⟨u, hu, ha⟩, hf⟩
        · rintro ⟨a, ⟨u, hu, ha⟩, hf⟩
          exact ⟨u, hu, (hreveals u hu).2 ⟨a, ha, hf⟩⟩
      · rw [Compound.parts_of_ne fun us h => hk ⟨us, h⟩]
        exact agree_single (h.agree_self hI _)

/-- Building a compound of coherent types loses nothing. -/
theorem agree_build (h : ∀ t ∈ ts, w.Coherent I t) :
    r.Agree n (I.folded (k.build ts)) (k.of (ts.map I.folded)) := by
  cases n with
  | zero => exact agree_zero _ _
  | succ n =>
  have hparts : ∀ a ∈ ts.flatMap k.parts, w.Coherent I a := by
    intro a ha
    obtain ⟨t, ht, ha⟩ := List.mem_flatMap.1 ha
    exact Compound.of_mem_parts (fun _ => coherent_of.1) (h t ht) ha
  have hdistinct := fun a ha => hparts a (mem_distinct ha)
  have htogether : r.Agree (n + 1) (I.folded (k.build ts))
      (k.of ((distinct (ts.flatMap k.parts)).map I.folded)) := by
    rw [Compound.build_eq]
    generalize distinct (ts.flatMap k.parts) = as at hdistinct ⊢
    by_cases hlen : as.length = 1
    · obtain ⟨a, rfl⟩ := List.length_eq_one_iff.1 hlen
      exact agree_single ((hdistinct a (List.mem_singleton.2 rfl)).agree_self hI _)
    · rw [Compound.together_of_length_ne hlen, ← Naming.folded_of]
      exact (coherent_of.2 hdistinct).agree_self hI _
  have hall : r.Agree (n + 1) (k.of ((distinct (ts.flatMap k.parts)).map I.folded))
      (k.of ((ts.flatMap k.parts).map I.folded)) := by
    refine agree_of_parts (List.forall_mem_map.2 fun a ha => ?_)
      (List.forall_mem_map.2 fun a ha => ?_)
    · exact ⟨_, List.mem_map_of_mem (mem_distinct ha), (hdistinct a ha).agree_self hI _⟩
    · obtain ⟨b, hb, rfl | heq⟩ := exists_mem_distinct ha
      · exact ⟨_, List.mem_map_of_mem hb, (hdistinct b hb).agree_self hI _⟩
      · exact ⟨_, List.mem_map_of_mem hb,
          faithful hI w n.succ (hdistinct b hb) (hparts a ha) (fun _ _ h => by simp at h) heq⟩
  have hof := (coherent_of (k := k).2 h).agree_parts hI (n := n) (k := k)
  rw [Compound.parts_of, Naming.folded_of] at hof
  exact htogether.trans (hall.trans hof.symm)

/-! ## Being read as a type

Each constructor is read as the same constructor of what its parts are read as.  The types on the
left need not be coherent: they are what normal forms are made of, or what other types are read
as. -/

/-- A coherent type is read as something that agrees with a given type. -/
structure Reads (w : r.Regular P) (I : Naming) (t x : Ty) : Prop where
  coherent : w.Coherent I x
  agree : ∀ n, r.Agree n t (I.folded x)

theorem Coherent.reads (h : w.Coherent I x) : w.Reads I (I.folded x) x := ⟨h, h.agree_self hI⟩

omit hI in
theorem reads_ref {R : Reference} (h : w.Coherent I x) (hR : R.Genuine P)
    (hx : I.folded x = R.ty) : w.Reads I R.ty x :=
  ⟨h, fun n => hx ▸ w.agree_ref hR n⟩

section Constructors

omit hI

variable {xs : List Ty} (h : List.Forall₂ (w.Reads I) ts xs)

theorem reads_fn {p q y : Ty} (hp : w.Reads I p x) (hq : w.Reads I q y) :
    w.Reads I (.fn p q) (.fn x y) where
  coherent := .fn hp.coherent hq.coherent
  agree := agree_of_succ fun n => agree_fn (hp.agree n) (hq.agree n)

include h

theorem coherent_of_reads : ∀ x ∈ xs, w.Coherent I x := forall_of_forall₂ h fun _ _ h => h.coherent

theorem agree_of_reads (n : Nat) : List.Forall₂ (r.Agree n) ts (xs.map I.folded) :=
  List.forall₂_map_right_iff.2 (h.imp fun _ _ h => h.agree n)

theorem reads_tuple : w.Reads I (.tuple ts) (.tuple xs) where
  coherent := .tuple (coherent_of_reads h)
  agree := agree_of_succ fun n => by
    rw [Naming.folded_tuple]
    exact agree_tuple (agree_of_reads h n)

/-- References that cannot be expanded. -/
theorem reads_kept {name : String} (hnone : r.expand? name ts = none) :
    w.Reads I (.named name ts) (.named name xs) where
  coherent := .named (coherent_of_reads h) fun hsome => by
    rw [expand?_eq_none_of_length hnone h.length_eq.symm] at hsome
    cases hsome
  agree := agree_of_succ fun n => by
    rw [Naming.folded_named]
    exact agree_kept hnone
      (expand?_eq_none_of_length hnone ((List.length_map I.folded).trans h.length_eq.symm))
      (agree_of_reads h n)

include hI

theorem reads_build : w.Reads I (k.of ts) (k.build xs) where
  coherent := coherent_build (coherent_of_reads h)
  agree := agree_of_succ fun n => by
    refine Agree.trans (agree_of_parts (fun t ht => ?_) (List.forall_mem_map.2 fun x hx => ?_))
      (agree_build hI (coherent_of_reads h)).symm
    · obtain ⟨x, hx, h⟩ := forall₂_left h t ht
      exact ⟨_, List.mem_map_of_mem hx, h.agree _⟩
    · obtain ⟨t, ht, h⟩ := forall₂_left h.flip x hx
      exact ⟨t, ht, h.agree _⟩

omit hI h

theorem reads_record {fs gs : List (String × Ty)} {row : Option TyVar} (hasc : Table.Ascending fs)
    (h : Table.Paired (w.Reads I) fs gs) (hrow : ∀ v, row = some v → P v.id) :
    w.Reads I (.record fs row) (.record gs row) where
  coherent := .record (h.ascending hasc)
    (fun g hg => have ⟨_, h⟩ := h.exists_left g hg; h.coherent) hrow
  agree := agree_of_succ fun n => by
    rw [Naming.folded_record]
    refine agree_record hasc ((h.ascending hasc).map I.folded) rfl fun name => ?_
    rw [Table.get?_map]
    have hrel := h.get? name
    generalize Table.get? name fs = o, Table.get? name gs = o' at hrel
    cases hrel with
    | none => exact .none
    | some h => exact .some (h.agree n)

end Constructors

/-! ## Putting recursive types in for their binders -/

/-- Binders are sent to coherent types that are read as the references of the binders. -/
def Ties (w : r.Regular P) (I : Naming) (s : Subst) : Prop :=
  ∀ id u, s.get? id = some u → ∃ R, I id = some R ∧ w.Coherent I u ∧ I.folded u = R.ty ∧
    ∀ id' S, u.Bare id' → I id' = some S → w.height S < w.height R

omit hI in
theorem Ties.erase {s : Subst} (h : Ties w I s) (v : TyVar) : Ties w I (s.erase v) := by
  intro id u hu
  rw [Subst.get?_erase] at hu
  split at hu
  · cases hu
  · exact h id u hu

theorem Ties.get?_eq_none {s : Subst} (h : Ties w I s) (hid : P id) :
    s.get? id = none := by
  cases hu : s.get? id with
  | none => rfl
  | some u =>
      obtain ⟨R, hR, -⟩ := h id u hu
      rw [hI.eq_none hid] at hR
      cases hR

theorem Ties.apply_eq_self {s : Subst} (hs : Ties w I s) (h : t.Genuine P) : s.apply t = t :=
  h.plain.stable.apply_eq_self fun _ hid => hs.get?_eq_none hI (h.numbers.of_mentions hid)

theorem Ties.apply_record {s : Subst} (hs : Ties w I s) (fs : List (String × Ty))
    {row : Option TyVar} (hrow : ∀ v, row = some v → P v.id) :
    s.apply (.record fs row) = .record (fs.map fun f => (f.1, s.apply f.2)) row := by
  cases row with
  | none => rw [Subst.apply_closed]
  | some v =>
      rw [Subst.apply_open, hs.get?_eq_none hI (hrow v rfl)]
      rfl

theorem reads_apply_of {s : Subst} (h : w.Coherent I (k.of ts))
    (ih : ∀ t ∈ ts, w.Reads I (I.folded t) (s.apply t)) :
    w.Reads I (I.folded (k.of ts)) (s.apply (k.of ts)) := by
  cases hempty : s.isEmpty with
  | true =>
      rw [Subst.apply_of_isEmpty hempty]
      exact h.reads hI
  | false =>
      rw [Subst.apply_of hempty, Naming.folded_of]
      exact reads_build hI (forall₂_map ih)

/-- Replacing binders by types that are read as the references of the binders leaves a coherent
type that is read in the same way. -/
theorem Coherent.apply (h : w.Coherent I x) : ∀ {s : Subst}, Ties w I s →
    w.Reads I (I.folded x) (s.apply x) := by
  induction h with
  | @var v hv =>
      intro s hs
      rw [Subst.apply_var]
      cases hu : s.get? v.id with
      | none => exact (Coherent.var hv).reads hI
      | some u =>
          obtain ⟨R, hR, hcoherent, hfolded, -⟩ := hs _ u hu
          rw [Naming.folded, Naming.refer_of_some hR]
          exact reads_ref hcoherent (hI _ R hR).2 hfolded
  | prim name =>
      intro s _
      rw [Subst.apply_prim]
      exact (Coherent.prim name).reads hI
  | lit value =>
      intro s _
      rw [Subst.apply_lit]
      exact (Coherent.lit value).reads hI
  | fn _ _ ihp ihq =>
      intro s hs
      rw [Subst.apply_fn]
      exact reads_fn (ihp hs) (ihq hs)
  | @record fs _ hasc _ hrow ih =>
      intro s hs
      rw [hs.apply_record hI fs hrow, Naming.folded_record]
      exact reads_record (hasc.map I.folded) (Table.paired_map fun f hf => ih f hf hs) hrow
  | tuple _ ih =>
      intro s hs
      rw [Subst.apply_tuple, Naming.folded_tuple]
      exact reads_tuple (forall₂_map fun t ht => ih t ht hs)
  | union hts ih => exact fun hs => reads_apply_of hI (k := .union) (.union hts) fun t ht => ih t ht hs
  | inter hts ih => exact fun hs => reads_apply_of hI (k := .inter) (.inter hts) fun t ht => ih t ht hs
  | @named name args hargs hgenuine ih =>
      intro s hs
      cases he : r.expand? name args with
      | some t =>
          have hargs' := hgenuine (by rw [he]; rfl)
          rw [hs.apply_eq_self hI (genuine_named hargs')]
          exact (Coherent.named hargs hgenuine).reads hI
      | none =>
          rw [Subst.apply_named, Naming.folded_named]
          exact reads_kept (forall₂_map fun t ht => ih t ht hs)
            (expand?_eq_none_of_length he (List.length_map I.folded))
  | @mu v t R hR ht hbare hagree ih =>
      intro s hs
      rw [Subst.apply_mu, Naming.folded, Naming.refer_of_some hR]
      obtain ⟨hcoherent, hsame⟩ := ih (hs.erase v)
      refine reads_ref (.mu hR hcoherent (fun id S hid hS => ?_) fun n => (hagree n).trans (hsame n))
        (hI _ R hR).2 (by rw [Naming.folded, Naming.refer_of_some hR])
      rcases Ty.bare_apply _ hid with hid | ⟨c, u, hc, hu, hid⟩
      · exact hbare id S hid hS
      · obtain ⟨Q, hQ, -, -, hlow⟩ := hs.erase v c u hu
        exact (hlow id S hid hS).trans (hbare c Q hc hQ)

/-- What a recursive type unfolds to is a coherent type that is read as the body. -/
theorem Coherent.unfold {v : TyVar} (h : w.Coherent I (.mu v t)) :
    w.Coherent I (t.unfold v) ∧ (t.unfold v).tower ≤ t.tower ∧
      ∀ n, r.Agree n (I.folded (t.unfold v)) (I.folded t) := by
  cases h with
  | @mu _ _ R hR ht hbare hagree =>
      have hties : Ties w I (Subst.single v (.mu v t)) := by
        intro id u hu
        obtain ⟨rfl, rfl⟩ := Subst.eq_of_get?_single hu
        refine ⟨R, hR, .mu hR ht hbare hagree, ?_, fun id S hid => ?_⟩
        · rw [Naming.folded, Naming.refer_of_some hR]
        · cases hid with
          | mu _ hid => exact hbare id S hid
      have hfree : ∀ id, t.Bare id → (Subst.single v (.mu v t)).get? id = none := by
        intro id hid
        cases hu : (Subst.single v (.mu v t)).get? id with
        | none => rfl
        | some u =>
            obtain ⟨rfl, -⟩ := Subst.eq_of_get?_single hu
            exact absurd (hbare _ R hid hR) (lt_irrefl _)
      obtain ⟨hcoherent, hsame⟩ := ht.apply hI hties
      exact ⟨hcoherent, Ty.tower_apply_le _ hfree, fun n => (hsame n).symm⟩

/-- A coherent type in which no binder is free means what it is read as. -/
theorem Coherent.agree_folded (h : w.Coherent I x)
    (hx : x.Rooted P P) (n : Nat) : r.Agree n x (I.folded x) := by
  induction n using Nat.strong_induction_on generalizing x with
  | _ n ih =>
  cases n with
  | zero => exact agree_zero _ _
  | succ n =>
  have hlist : ∀ {ts : List Ty}, (∀ t ∈ ts, w.Coherent I t) →
      (∀ t ∈ ts, t.Rooted P P) →
      List.Forall₂ (r.Agree n) ts (ts.map I.folded) := by
    intro ts hts hrooted
    rw [List.forall₂_map_right_iff, List.forall₂_same]
    exact fun t ht => ih n (Nat.lt_succ_self n) (hts t ht) (hrooted t ht)
  induction hl : x.tower using Nat.strong_induction_on generalizing x with
  | _ l ihl =>
  have hof : ∀ {k : Compound} {ts : List Ty}, (∀ t ∈ ts, w.Coherent I t) →
      (∀ t ∈ ts, t.Rooted P P) → (k.of ts).tower = l →
      r.Agree (n + 1) (k.of ts) (I.folded (k.of ts)) := by
    intro k ts hts hrooted hl
    have hagree : ∀ t ∈ ts, r.Agree (n + 1) t (I.folded t) := fun t ht =>
      ihl _ (hl ▸ tower_lt_of ht) (hts t ht) (hrooted t ht) rfl
    rw [Naming.folded_of]
    exact agree_of_parts (fun t ht => ⟨_, List.mem_map_of_mem ht, hagree t ht⟩)
      (List.forall_mem_map.2 fun t ht => ⟨t, ht, hagree t ht⟩)
  cases h with
  | @var v _ =>
      cases hx with
      | var hv =>
          rw [Naming.folded, Naming.refer_of_none (hI.eq_none hv)]
          exact agree_var rfl
  | prim name => exact agree_leaf (fun _ => .prim name) (.prim name)
  | lit value => exact agree_leaf (fun _ => .lit value) (.lit value)
  | fn hp hq =>
      cases hx with
      | fn hp' hq' =>
          exact agree_fn (ih n (Nat.lt_succ_self n) hp hp') (ih n (Nat.lt_succ_self n) hq hq')
  | @record fs row hasc hfs _ =>
      obtain ⟨hrooted, -⟩ := rooted_record.1 hx
      rw [Naming.folded_record]
      refine agree_record hasc (hasc.map I.folded) rfl fun name => ?_
      rw [Table.get?_map]
      cases hf : Table.get? name fs with
      | none => exact .none
      | some t =>
          have hmem := Table.mem_of_get? hf
          exact .some (ih n (Nat.lt_succ_self n) (hfs _ hmem) (hrooted _ hmem))
  | tuple hts =>
      rw [Naming.folded_tuple]
      exact agree_tuple (hlist hts (rooted_tuple.1 hx))
  | union hts => exact hof (k := .union) hts (rooted_union.1 hx) hl
  | inter hts => exact hof (k := .inter) hts (rooted_inter.1 hx) hl
  | @named name args hargs hgenuine =>
      have hrooted : ∀ t ∈ args, t.Rooted P P := by
        cases hx
        assumption
      cases he : r.expand? name args with
      | none =>
          rw [Naming.folded_named]
          exact agree_kept he (expand?_eq_none_of_length he (List.length_map I.folded))
            (hlist hargs hrooted)
      | some t =>
          have hargs' := hgenuine (by rw [he]; rfl)
          rw [hI.folded_eq_self (genuine_named hargs')]
          exact w.agree_ref (R := (name, args)) hargs' _
  | @mu v t R hR ht hbare hagree =>
      have hmu : w.Coherent I (.mu v t) := .mu hR ht hbare hagree
      obtain ⟨hunfold, htower, hsame⟩ := hmu.unfold hI
      have hrooted := hx.unfold fun _ hid => hid
      have hlt : (t.unfold v).tower < l := by
        rw [← hl, tower]
        exact Nat.lt_succ_of_le htower
      have h := ihl _ hlt hunfold hrooted rfl
      rw [Naming.folded, Naming.refer_of_some hR]
      exact (agree_unfold h.left).trans (h.trans ((hsame _).trans (hagree _).symm))

/-! ## More numbers -/

omit hI in
theorem Coherent.of_bare (h : w.Coherent I x) (hid : x.Bare id) :
    P id ∨ (I id).isSome := by
  induction hid with
  | var hv => cases h with | var h => exact hv ▸ h
  | union ht _ ih => cases h with | union h => exact ih (h _ ht)
  | inter ht _ ih => cases h with | inter h => exact ih (h _ ht)
  | mu v _ ih => cases h with | mu _ h _ _ => exact ih h

omit hI in
/-- What is coherent stays so, and is read in the same way, when more numbers get a meaning. -/
theorem Coherent.mono {I' : Naming} (h : w.Coherent I x) (hI' : I'.Sound P)
    (hle : ∀ id R, I id = some R → I' id = some R) :
    w.Coherent I' x ∧ I'.folded x = I.folded x := by
  have hall : ∀ {ts : List Ty}, (∀ t ∈ ts, w.Coherent I' t ∧ I'.folded t = I.folded t) →
      ts.map I'.folded = ts.map I.folded := fun h => List.map_congr_left fun t ht => (h t ht).2
  induction h with
  | @var v hv =>
      rw [Naming.folded, Naming.folded]
      cases hR : I v.id with
      | some R =>
          rw [Naming.refer_of_some hR, Naming.refer_of_some (hle _ R hR)]
          exact ⟨.var (.inr (by rw [hle _ R hR]; rfl)), rfl⟩
      | none =>
          rw [hR] at hv
          have hv := hv.resolve_right Bool.false_ne_true
          rw [Naming.refer_of_none hR, Naming.refer_of_none (hI'.eq_none hv)]
          exact ⟨.var (.inl hv), rfl⟩
  | prim name => exact ⟨.prim name, rfl⟩
  | lit value => exact ⟨.lit value, rfl⟩
  | fn _ _ ihp ihq =>
      exact ⟨.fn ihp.1 ihq.1, by rw [Naming.folded, Naming.folded, ihp.2, ihq.2]⟩
  | record hasc _ hrow ih =>
      refine ⟨.record hasc (fun f hf => (ih f hf).1) hrow, ?_⟩
      rw [Naming.folded_record, Naming.folded_record]
      congr 1
      exact List.map_congr_left fun f hf => by rw [(ih f hf).2]
  | tuple _ ih =>
      refine ⟨.tuple fun t ht => (ih t ht).1, ?_⟩
      rw [Naming.folded_tuple, Naming.folded_tuple, hall ih]
  | @union ts _ ih =>
      refine ⟨.union fun t ht => (ih t ht).1, ?_⟩
      rw [show Ty.union ts = Compound.union.of ts from rfl, Naming.folded_of, Naming.folded_of,
        hall ih]
  | @inter ts _ ih =>
      refine ⟨.inter fun t ht => (ih t ht).1, ?_⟩
      rw [show Ty.inter ts = Compound.inter.of ts from rfl, Naming.folded_of, Naming.folded_of,
        hall ih]
  | named _ hgenuine ih =>
      refine ⟨.named (fun t ht => (ih t ht).1) hgenuine, ?_⟩
      rw [Naming.folded_named, Naming.folded_named, hall ih]
  | @mu v t R hR ht hbare hagree ih =>
      have hR' := hle _ R hR
      refine ⟨.mu hR' ih.1 (fun id S hid hS => ?_) fun n => ih.2 ▸ hagree n, ?_⟩
      · rcases ht.of_bare hid with hid' | hsome
        · rw [hI'.eq_none hid'] at hS
          cases hS
        · obtain ⟨Q, hQ⟩ := Option.isSome_iff_exists.1 hsome
          obtain rfl := Option.some.inj (hS.symm.trans (hle id Q hQ))
          exact hbare id S hid hQ
      · rw [Naming.folded, Naming.folded, Naming.refer_of_some hR, Naming.refer_of_some hR']

end Regular

end Registry

end RowTypes
