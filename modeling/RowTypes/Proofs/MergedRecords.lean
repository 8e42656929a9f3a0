import RowTypes.Proofs.BranchResults
import RowTypes.Proofs.ConstraintSets
import RowTypes.Proofs.RecordFields

/-!
# Merging records

A record that spreads others has the fields of all of them and its own, and fields of one name are
unified.  So whatever a part has when it is collected stays there: what is found later refines
what was found before, and a field that replaces another one has been unified with it.

A part is collected only once.  If its row also stands in a field, or in the result, what is found
later may give the row more fields, and nobody looks at the part again.  So what is said here is
about the fields that a part has at its turn; if the rows of the parts stand nowhere else, these
are all the fields that it will ever have.
-/

namespace RowTypes

open Equations Relate

namespace Relate.Merging

/-- What was collected so far can be made the fields of a record. -/
structure Gathers (κ : Sorts) (P : Int → Prop) (n k : Nat) (m : Merging) : Prop where
  gained : m.subst.Gained κ P n k
  ascending : Table.Ascending m.fields
  inside : ∀ name t, Table.get? name m.fields = some t → t.Inside κ P n k

/-- There is a field of the name, and its type is equivalent to one by now. -/
def Holds (m : Merging) (name : String) (t : Ty) : Prop :=
  ∃ u, Table.get? name m.fields = some u ∧ (m.subst.apply u).equiv (m.subst.apply t) = true

/-- Collecting more loses nothing. -/
structure Grows (κ : Sorts) (m m' : Merging) : Prop where
  refines : m.subst.Refines κ m'.subst
  holds : ∀ {name : String} {t : Ty}, t.Core κ → m.Holds name t → m'.Holds name t

section Collecting

variable {κ : Sorts} {P : Int → Prop} {n k k' : Nat} {m m' m'' : Merging} {next : Subst}
  {name : String} {t existing : Ty}

theorem gathers_empty (κ : Sorts) (P : Int → Prop) (n : Nat) : Gathers κ P n n {} :=
  ⟨Subst.gained_empty κ P n n, List.Pairwise.nil, nofun⟩

theorem Gathers.later (h : m.Gathers κ P n k) (hk : k ≤ k') : m.Gathers κ P n k' :=
  ⟨h.gained.later hk, h.ascending, fun name t ht => (h.inside name t ht).later hk⟩

theorem Gathers.core (h : m.Gathers κ P n k) : m.subst.Core κ := h.gained.solved.core

theorem Gathers.grows_self (h : m.Gathers κ P n k) : m.Grows κ m :=
  ⟨h.gained.solved.refines_self, fun _ h => h⟩

theorem Grows.trans (hm : m.Gathers κ P n k) (h : m.Grows κ m') (h' : m'.Grows κ m'') :
    m.Grows κ m'' :=
  ⟨h.refines.trans hm.core h'.refines, fun ht hold => h'.holds ht (h.holds ht hold)⟩

/-- A field of a new name is added under what was found. -/
theorem Gathers.add (hm : m.Gathers κ P n k) (ht : t.Inside κ P n k)
    (hnone : Table.get? name m.fields = none) :
    Gathers κ P n k { m with fields := Table.insert name (m.subst.apply t) m.fields } ∧
      m.Grows κ { m with fields := Table.insert name (m.subst.apply t) m.fields } ∧
      Holds { m with fields := Table.insert name (m.subst.apply t) m.fields } name t := by
  refine ⟨⟨hm.gained, hm.ascending.insert _ _, fun name' u hu => ?_⟩,
    ⟨hm.gained.solved.refines_self, fun {name' u} _ hold => ?_⟩, ?_⟩
  · by_cases hname : name' = name
    · subst hname
      rw [Table.get?_insert_self] at hu
      cases hu
      exact hm.gained.apply ht
    · rw [Table.get?_insert_of_ne hname] at hu
      exact hm.inside name' u hu
  · obtain ⟨w, hw, hequiv⟩ := hold
    have hname : name' ≠ name := by
      rintro rfl
      rw [hnone] at hw
      cases hw
    exact ⟨w, by rw [Table.get?_insert_of_ne hname, hw], hequiv⟩
  · refine ⟨_, Table.get?_insert_self _ _ _, ?_⟩
    rw [hm.gained.solved.apply_apply ht.core]
    exact Ty.equiv_refl (hm.core.apply ht.core).tame

/-- A field that is there already is unified with the one that is laid over it. -/
theorem Gathers.unify (hP : ∀ id, P id → id ≤ n) (hκ : ∀ id : Int, n < id → κ.isRow id)
    (hnk : n ≤ k) (hk : k ≤ k') (hm : m.Gathers κ P n k) (ht : t.Inside κ P n k)
    (hexisting : Table.get? name m.fields = some existing)
    (hnext : Solves κ k k' [(m.subst.apply existing, m.subst.apply t)] next) :
    Gathers κ P n k' { m with subst := next.after m.subst } ∧
      m.Grows κ { m with subst := next.after m.subst } ∧
      Holds { m with subst := next.after m.subst } name t := by
  obtain ⟨hgained, hrefines, hequiv⟩ := hm.gained.unified hP hκ hnk hk
    (hm.inside name existing hexisting) ht hnext
  refine ⟨⟨hgained, hm.ascending, (hm.later hk).inside⟩, ⟨hrefines, fun {name' u} hu hold => ?_⟩,
    ⟨existing, hexisting, hequiv⟩⟩
  obtain ⟨w, hw, hequiv⟩ := hold
  exact ⟨w, hw, hrefines.equiv (hm.inside name' w hw).core hu hequiv⟩

/-- A field may be replaced by one that is equivalent to it by now. -/
theorem Gathers.replace (hm : m.Gathers κ P n k) (ht : t.Inside κ P n k)
    (hold : m.Holds name t) :
    Gathers κ P n k { m with fields := Table.insert name t m.fields } ∧
      m.Grows κ { m with fields := Table.insert name t m.fields } := by
  refine ⟨⟨hm.gained, hm.ascending.insert _ _, fun name' u hu => ?_⟩,
    ⟨hm.gained.solved.refines_self, fun {name' u} hu hold' => ?_⟩⟩
  · by_cases hname : name' = name
    · subst hname
      rw [Table.get?_insert_self] at hu
      cases hu
      exact ht
    · rw [Table.get?_insert_of_ne hname] at hu
      exact hm.inside name' u hu
  · obtain ⟨w, hw, hequiv⟩ := hold'
    by_cases hname : name' = name
    · subst hname
      obtain ⟨x, hx, hxt⟩ := hold
      cases hx.symm.trans hw
      have htame := fun {u : Ty} (hu : u.Core κ) => (hm.core.apply hu).tame
      have hx := htame (hm.inside name' _ hw).core
      exact ⟨t, Table.get?_insert_self _ _ _, Ty.equiv_trans (htame ht.core) hx (htame hu)
        (Ty.equiv_symm hx (htame ht.core) hxt) hequiv⟩
    · exact ⟨w, by rw [Table.get?_insert_of_ne hname, hw], hequiv⟩

/-- What was collected, with a new row behind it, is a record. -/
theorem Gathers.record (hκ : ∀ id : Int, n < id → κ.isRow id) (hrecords : κ.records) (hnk : n ≤ k)
    (hm : m.Gathers κ P n k) {row : TyVar} (hrow : row.id = k + 1) :
    (Ty.record m.fields (some row)).Inside κ P n (k + 1) := by
  have hfield : ∀ f ∈ m.fields, f.2.Inside κ P n (k + 1) := fun f hf =>
    (hm.later (Nat.le_succ k)).inside f.1 f.2 (Table.get?_of_mem hm.ascending hf)
  refine ⟨.record hrecords hm.ascending ?_ fun f hf => (hfield f hf).core, fun id hid => ?_⟩
  · rintro v ⟨⟩
    exact hκ _ (by omega)
  · rcases Ty.mentions_record.1 hid with ⟨f, hf, hid⟩ | ⟨v, hv, rfl⟩
    · exact (hfield f hf).inside id hid
    · cases hv
      exact .inr ⟨by omega, by omega⟩

/-- The result of a merge is unified with a record of the fields that were collected, and whatever
stands behind them. -/
theorem Gathers.settle (hP : ∀ id, P id → id ≤ n) (hκ : ∀ id : Int, n < id → κ.isRow id)
    (hrecords : κ.records) (hnk : n ≤ k) (hk : k + 1 ≤ k') (hm : m.Gathers κ P n k)
    {result : Ty} (hresult : result.Inside κ P n k) {row : TyVar} (hrow : row.id = k + 1)
    (hnext : Solves κ (k + 1) k'
      [(m.subst.apply result, m.subst.apply (.record m.fields (some row)))] next) :
    (next.after m.subst).Gained κ P n k' ∧ m.subst.Refines κ (next.after m.subst) ∧
      (∃ r : RecordTy, (next.after m.subst).apply result = r.toTy) ∧
      ∀ name t, t.Core κ → m.Holds name t → (next.after m.subst).Gives result name t := by
  have hmerged := hm.record hκ hrecords hnk hrow
  obtain ⟨hgained, hrefines, hequiv⟩ := (hm.gained.later (Nat.le_succ k)).unified hP hκ
    (Nat.le_succ_of_le hnk) hk (hresult.later (Nat.le_succ k)) hmerged hnext
  have htame := fun {u : Ty} (hu : u.Core κ) => (hgained.solved.core.apply hu).tame
  refine ⟨hgained, hrefines, ?_, fun name t ht hold => ?_⟩
  · have hrecord : (RecordTy.toTy ⟨m.fields, some row⟩).Core κ := hmerged.core
    obtain ⟨r, hr⟩ := hgained.solved.core.exists_record hrecord
    exact Ty.exists_toTy_of_equiv (hr ▸ hequiv)
  · obtain ⟨u, hu, hut⟩ := hold
    have hucore := (hm.inside name u hu).core
    obtain ⟨v, hv, hvu⟩ := Ty.HasField.of_equiv (htame hresult.core) (htame hmerged.core) hequiv
      (Ty.HasField.apply hgained.solved.core hmerged.core ⟨⟨_, _⟩, rfl, hu⟩)
    have hvcore := hv.core (hgained.solved.core.apply hresult.core)
    exact ⟨v, hv, Ty.equiv_trans hvcore.tame (htame hucore) (htame ht) hvu
      (hrefines.equiv hucore ht hut)⟩

end Collecting

end Relate.Merging

namespace Relate

open Merging

variable {κ : Sorts} {excuse : Diagnostic → Prop} {rel : Relation} {P : Int → Prop} {n : Nat}
  {ctx : Context}

/-- Laying fields over those collected loses nothing, and they are there afterwards. -/
theorem gathers_overlay (hrel : Decides κ excuse rel) (hP : ∀ id, P id → id ≤ n)
    (hκ : ∀ id : Int, n < id → κ.isRow id) (replace : Bool) :
    ∀ {fs : List (String × Ty)} {m : Merging} {p : Progress}, n ≤ p.supply.count →
      m.Gathers κ P n p.supply.count → (∀ f ∈ fs, f.2.Inside κ P n p.supply.count) →
      Ends (overlay ctx rel replace fs m) p
        (fun m' q => p.supply.count ≤ q.supply.count ∧ m'.Gathers κ P n q.supply.count ∧
          m.Grows κ m' ∧ ∀ f ∈ fs, m'.Holds f.1 f.2)
        fun _ _ => True
  | [], m, p, _, hm, _ => ends_pure ⟨Nat.le_refl _, hm, hm.grows_self, nofun⟩
  | (name, t) :: fs, m, p, hn, hm, hfs => by
      obtain ⟨ht, hfs⟩ := List.forall_mem_cons.1 hfs
      -- Once the first field is there, the others are laid over what that gives.
      have hrest : ∀ (m' : Merging) (q : Progress), p.supply.count ≤ q.supply.count →
          m'.Gathers κ P n q.supply.count ∧ m.Grows κ m' ∧ m'.Holds name t →
          Ends (overlay ctx rel replace fs m') q
            (fun m'' r => p.supply.count ≤ r.supply.count ∧ m''.Gathers κ P n r.supply.count ∧
              m.Grows κ m'' ∧ ∀ f ∈ (name, t) :: fs, m''.Holds f.1 f.2)
            fun _ _ => True := by
        rintro m' q hq ⟨hm', hgrows, hholds⟩
        refine (gathers_overlay hrel hP hκ replace (Nat.le_trans hn hq) hm'
          fun f hf => (hfs f hf).later hq).imp ?_ fun _ _ h => h
        rintro m'' r ⟨hr, hm'', hgrows', hlaid⟩
        exact ⟨Nat.le_trans hq hr, hm'', hgrows.trans hm hgrows',
          List.forall_mem_cons.2 ⟨hgrows'.holds ht.core hholds, hlaid⟩⟩
      rw [overlay]
      dsimp only
      split
      · next hnone => exact Ends.bind (ends_pure (hrest _ p (Nat.le_refl _) (hm.add ht hnone)))
      · next existing hexisting =>
          have hposed := hm.gained.posed hP hκ hn (hm.inside name existing hexisting) ht
          refine Ends.bind (ends_orElseThrow ((hrel p _ _ hposed).imp ?_ fun _ _ _ => trivial))
          rintro next q ⟨hadv, hnext⟩
          obtain ⟨hm', hgrows, hholds⟩ := hm.unify hP hκ hn hadv.count ht hexisting hnext
          refine Ends.bind (ends_pure (hrest _ q hadv.count ?_))
          cases replace with
          | false => exact ⟨hm', hgrows, hholds⟩
          | true =>
              -- What replaces the field is the type as it was before the two were unified.
              have habsorbs := hgrows.refines.absorbs ht.core
              have hholds' : Holds { m with subst := next.after m.subst } name
                  (m.subst.apply t) := by
                obtain ⟨u, hu, hequiv⟩ := hholds
                exact ⟨u, hu, by rw [habsorbs]; exact hequiv⟩
              obtain ⟨hm'', hgrows'⟩ :=
                hm'.replace ((hm.gained.apply ht).later hadv.count) hholds'
              refine ⟨hm'', hgrows.trans hm hgrows', hgrows'.holds ht.core hholds⟩

/-- What is spread are records, whose fields are about what was asked about. -/
structure Spreads (κ : Sorts) (P : Int → Prop) (n : Nat) (r : RecordTy) : Prop where
  core : r.toTy.Core κ
  inside : ∀ name t, r.field? name = some t → t.Inside κ P n n

theorem run_spreadRecord (r : RecordTy) (p : Progress) :
    (spreadRecord ctx r.toTy).run p = (.ok r, p) := by
  rw [spreadRecord, RecordTy.toTy, head_record]
  rfl

/-- A part of a merge keeps the fields that it has at its turn. -/
structure Keeps (κ : Sorts) (m : Merging) (t : Ty) (m' : Merging) : Prop where
  core : m.subst.Core κ
  refines : m.subst.Refines κ m'.subst
  holds : ∀ {name : String} {u : Ty}, (m.subst.apply t).HasField name u →
    u.Core κ ∧ m'.Holds name u

theorem Keeps.grows {m₀ m m' : Merging} {t : Ty} (h : Keeps κ m₀ t m) (hgrows : m.Grows κ m') :
    Keeps κ m₀ t m' :=
  ⟨h.core, h.refines.trans h.core hgrows.refines, fun hu =>
    ⟨(h.holds hu).1, hgrows.holds (h.holds hu).1 (h.holds hu).2⟩⟩

/-- Spreading records keeps the fields that each of them has at its turn. -/
theorem gathers_overlaySpreads (hrel : Decides κ excuse rel) (hP : ∀ id, P id → id ≤ n)
    (hκ : ∀ id : Int, n < id → κ.isRow id) :
    ∀ {ts : List Ty} {m : Merging} {p : Progress}, n ≤ p.supply.count →
      m.Gathers κ P n p.supply.count → (∀ t ∈ ts, ∃ r : RecordTy, t = r.toTy ∧ Spreads κ P n r) →
      Ends (overlaySpreads ctx rel ts m) p
        (fun m' q => p.supply.count ≤ q.supply.count ∧ m'.Gathers κ P n q.supply.count ∧
          m.Grows κ m' ∧ ∀ before t after, ts = before ++ t :: after → ∃ m₀ q₀,
            (overlaySpreads ctx rel before m).run p = (.ok m₀, q₀) ∧ Keeps κ m₀ t m')
        fun _ _ => True
  | [], m, p, _, hm, _ => by
      refine ends_pure ⟨Nat.le_refl _, hm, hm.grows_self, fun before t after h => ?_⟩
      simp at h
  | t :: ts, m, p, hn, hm, hts => by
      obtain ⟨⟨r, rfl, hr⟩, hrest⟩ := List.forall_mem_cons.1 hts
      obtain ⟨r', hr'⟩ := hm.core.exists_record hr.core
      have hfields : ∀ {name : String} {u : Ty}, r'.field? name = some u →
          u.Inside κ P n p.supply.count := fun hu =>
        hm.gained.field hr.core (fun name t ht => (hr.inside name t ht).later hn)
          ⟨r', hr', hu⟩
      have hasc : Table.Ascending r'.fields :=
        RecordTy.ascending_fields (hr' ▸ hm.core.apply hr.core)
      rw [overlaySpreads, hr']
      refine Ends.bind ?_
      rw [Ends, run_spreadRecord]
      dsimp only
      refine Ends.bind ((gathers_overlay hrel hP hκ false hn hm
        fun f hf => hfields (Table.get?_of_mem hasc hf)).with_run.imp ?_ fun _ _ h => h)
      rintro m₁ q ⟨⟨hq, hm₁, hgrows, hlaid⟩, hrun⟩
      refine (gathers_overlaySpreads hrel hP hκ (Nat.le_trans hn hq) hm₁ hrest).imp ?_
        fun _ _ h => h
      rintro m' q' ⟨hq', hm', hgrows', hkeeps⟩
      refine ⟨Nat.le_trans hq hq', hm', hgrows.trans hm hgrows', ?_⟩
      intro before t after hsplit
      cases before with
      | nil =>
          obtain ⟨rfl, -⟩ := List.cons_eq_cons.1 hsplit
          refine ⟨m, p, rfl, Keeps.grows ⟨hm.core, hgrows.refines, fun {name u} hu => ?_⟩ hgrows'⟩
          rw [hr'] at hu
          obtain ⟨r'', hr'', hu⟩ := hu
          cases r'
          cases r''
          cases hr''
          exact ⟨(hfields hu).core, hlaid _ (Table.mem_of_get? hu)⟩
      | cons t₀ before =>
          obtain ⟨rfl, rfl⟩ := List.cons_eq_cons.1 hsplit
          obtain ⟨m₀, q₀, hbefore, hkept⟩ := hkeeps before t after rfl
          refine ⟨m₀, q₀, ?_, hkept⟩
          rw [overlaySpreads, hr', run_bind, run_spreadRecord]
          dsimp only
          rw [run_bind, hrun]
          exact hbefore

/-- What a merge comes to is a record, with the fields that each part has at its turn. -/
theorem gives_merge (hrel : Decides κ excuse rel) {p : Progress}
    (hP : ∀ id, P id → id ≤ p.supply.count) (hκ : ∀ id : Int, p.supply.count < id → κ.isRow id)
    (hrecords : κ.records) {result : Ty} {spreads : List Ty} {explicit : RecordTy}
    (hresult : result.Inside κ P p.supply.count p.supply.count)
    (hspreads : ∀ t ∈ spreads, ∃ r : RecordTy, t = r.toTy ∧ Spreads κ P p.supply.count r)
    (hexplicit : Spreads κ P p.supply.count explicit) :
    Ends (merge ctx rel result spreads explicit) p
      (fun s q => s.Gained κ P p.supply.count q.supply.count ∧
        (∃ r : RecordTy, s.apply result = r.toTy) ∧
        (∀ before t after, spreads = before ++ t :: after → ∃ m q₀,
          (overlaySpreads ctx rel before {}).run p = (.ok m, q₀) ∧
          m.subst.Core κ ∧ m.subst.Refines κ s ∧
            ∀ name u, (m.subst.apply t).HasField name u → s.Gives result name u) ∧
        ∀ name t, explicit.field? name = some t → s.Gives result name t)
      fun _ _ => True := by
  have hexplicit' : ∀ f ∈ explicit.fields, f.2.Inside κ P p.supply.count p.supply.count :=
    fun f hf => hexplicit.inside f.1 f.2
      (Table.get?_of_mem (RecordTy.ascending_fields hexplicit.core) hf)
  unfold merge
  refine Ends.bind ((gathers_overlaySpreads hrel hP hκ (Nat.le_refl _)
    (gathers_empty κ P p.supply.count) hspreads).imp ?_ fun _ _ h => h)
  rintro m₁ q₁ ⟨hq₁, hm₁, -, hkeeps⟩
  refine Ends.bind ((gathers_overlay hrel hP hκ true hq₁ hm₁
    fun f hf => (hexplicit' f hf).later hq₁).imp ?_ fun _ _ h => h)
  rintro m₂ q₂ ⟨hq₂, hm₂, hgrows, hlaid⟩
  have hle := Nat.le_trans hq₁ hq₂
  refine Ends.bind (ends_fresh ?_)
  dsimp only
  have hposed : Posed κ (q₂.supply.count + 1) [(m₂.subst.apply result,
      m₂.subst.apply (.record m₂.fields (some ⟨(q₂.supply.count : Int) + 1, 0⟩)))] :=
    (hm₂.gained.later (Nat.le_succ _)).posed hP hκ (Nat.le_succ_of_le hle)
      (hresult.later (Nat.le_succ_of_le hle)) (hm₂.record hκ hrecords hle rfl)
  refine Ends.bind ((hrel { q₂ with supply := ⟨q₂.supply.count + 1⟩ } _ _ hposed).imp ?_
    fun _ _ _ => trivial)
  rintro next q₃ ⟨hadv, hnext⟩
  obtain ⟨hgained, hrefines, hrecord, hgives⟩ :=
    hm₂.settle hP hκ hrecords hle hadv.count (hresult.later hle) rfl hnext
  refine ends_pure ⟨hgained, hrecord, fun before t after hsplit => ?_, fun name t ht => ?_⟩
  · obtain ⟨m, q₀, hbefore, hkept⟩ := hkeeps before t after hsplit
    replace hkept := hkept.grows hgrows
    exact ⟨m, q₀, hbefore, hkept.core, hkept.refines.trans hkept.core hrefines, fun name u hu =>
      hgives name u (hkept.holds hu).1 (hkept.holds hu).2⟩
  · exact hgives name t (hexplicit.inside name t ht).core (hlaid _ (Table.mem_of_get? ht))

end Relate

/-- An unknown stands in the result of a merge, or in a field of one of the parts. -/
def Demand.Touches (result : Ty) (parts : List Ty) (id : Int) : Prop :=
  result.Mentions id ∨ ∃ r : RecordTy, r.toTy ∈ parts ∧ ∃ f ∈ r.fields, f.2.Mentions id

/-- A constraint demands a merge of records: core types, with rows and other unknowns told apart by
their numbers, and of unknowns that have been given out. -/
structure Constraint.Merges (isRow : Int → Prop) (n : Nat) (c : Constraint) (result : Ty)
    (spreads : List Ty) (explicit : RecordTy) : Prop where
  demand : c.demand = .merge result spreads explicit
  core : ∀ t ∈ result :: explicit.toTy :: spreads, t.Core ⟨isRow, True⟩
  older : ∀ t ∈ result :: explicit.toTy :: spreads, ∀ id, t.Mentions id → id ≤ n
  records : ∀ t ∈ spreads, ∃ r : RecordTy, t = r.toTy

namespace Constraint.Merges

variable {isRow : Int → Prop} {n : Nat} {c : Constraint} {result : Ty} {spreads : List Ty}
  {explicit : RecordTy}

theorem coreFrom (h : c.Merges isRow n result spreads explicit) {t : Ty}
    (ht : t ∈ result :: explicit.toTy :: spreads) :
    t.Core (ConstraintSet.sortsFrom isRow n) :=
  (h.core t ht).sortsFrom (h.older t ht)

theorem touches_le (h : c.Merges isRow n result spreads explicit) {id : Int}
    (hid : Demand.Touches result (explicit.toTy :: spreads) id) : id ≤ n := by
  rcases hid with hid | ⟨r, hr, f, hf, hid⟩
  · exact h.older _ List.mem_cons_self id hid
  · exact h.older _ (List.mem_cons_of_mem _ hr) id (Ty.mentions_record.2 (.inl ⟨f, hf, hid⟩))

theorem spreads_part (h : c.Merges isRow n result spreads explicit) {r : RecordTy}
    (hr : r.toTy ∈ explicit.toTy :: spreads) :
    Spreads (ConstraintSet.sortsFrom isRow n)
      (Demand.Touches result (explicit.toTy :: spreads)) n r := by
  have hcore := h.coreFrom (List.mem_cons_of_mem _ hr)
  exact ⟨hcore, fun name t ht => ⟨RecordTy.core_field hcore ht, fun id hid =>
    .inl (.inr ⟨r, hr, _, Table.mem_of_get? ht, hid⟩)⟩⟩

theorem spreads_parts (h : c.Merges isRow n result spreads explicit) :
    ∀ t ∈ spreads, ∃ r : RecordTy, t = r.toTy ∧ Spreads (ConstraintSet.sortsFrom isRow n)
      (Demand.Touches result (explicit.toTy :: spreads)) n r := by
  intro t ht
  obtain ⟨r, rfl⟩ := h.records t ht
  exact ⟨r, rfl, h.spreads_part (List.mem_cons_of_mem _ ht)⟩

end Constraint.Merges

namespace Session

variable {isRow : Int → Prop} {limit : Nat} {σ τ : Session} {cs : ConstraintSet} {c : Constraint}
  {result : Ty} {spreads : List Ty} {explicit : RecordTy} {s : Subst} {name : String} {u : Ty}

/-- Spreads records, as a merge does with those that come before a part. -/
def spreading (limit : Nat) (span : Span) (spreads : List Ty) : SessionM Merging :=
  relating span fun ctx => overlaySpreads ctx (Relate.unify ctx limit) spreads {}

/-- What solving a merge comes to. -/
theorem gives_solve (h : c.Merges isRow σ.supply.count result spreads explicit)
    (hitems : cs.items = [c]) (hsolve : (solve limit cs).run σ = ({ subst := s }, τ)) :
    ∃ next : Subst, (∀ id, s.get? id = next.get? id) ∧
      next.Gained (ConstraintSet.sortsFrom isRow σ.supply.count)
        (Demand.Touches result (explicit.toTy :: spreads)) σ.supply.count τ.supply.count ∧
      (∃ r : RecordTy, next.apply result = r.toTy) ∧
      (∀ before t after, spreads = before ++ t :: after → ∃ m υ,
        (spreading limit c.span before).run σ = (.ok m, υ) ∧
        m.subst.Core (ConstraintSet.sortsFrom isRow σ.supply.count) ∧
        m.subst.Refines (ConstraintSet.sortsFrom isRow σ.supply.count) next ∧
          ∀ name u, (m.subst.apply t).HasField name u → next.Gives result name u) ∧
      ∀ name t, explicit.field? name = some t → next.Gives result name t := by
  have htrivial : c.isTrivial = false := by rw [Constraint.isTrivial, h.demand]
  obtain ⟨next, hmet, hget⟩ := solve_single hitems htrivial hsolve
  rw [Constraint.apply_of_isEmpty rfl, discharge, if_neg (by simp [htrivial]), h.demand] at hmet
  dsimp only at hmet
  obtain ⟨q, hq, rfl⟩ := exists_of_relating hmet
  have hends : Ends (merge { registry := σ.registry, span := c.span }
      (Relate.unify { registry := σ.registry, span := c.span } limit) result spreads explicit)
      { supply := σ.supply } _ _ :=
    gives_merge (decides_unify _ _ limit) (fun id => h.touches_le)
      (ConstraintSet.isRow_sortsFrom isRow _) trivial
      ⟨h.coreFrom List.mem_cons_self, fun id hid => .inl (.inl hid)⟩ h.spreads_parts
      (h.spreads_part List.mem_cons_self)
  obtain ⟨hgained, hrecord, hspreads, hexplicit⟩ := hends.of_run hq
  refine ⟨next, hget hgained.solved.ordered, hgained, hrecord, fun before t after hsplit => ?_,
    hexplicit⟩
  obtain ⟨m, q₀, hrun, hkept⟩ := hspreads before t after hsplit
  exact ⟨m, _, run_relating (fun ctx => overlaySpreads ctx (Relate.unify ctx limit) before {})
    _ hrun, hkept⟩

/-- What a merge comes to is a record.  Every field that a spread record has in the end is a field
of it, with an equivalent type, if the record names the field, or has it when it is spread, after
those before it; and so is every field of the explicit record that this names. -/
theorem field_of_merge (h : c.Merges isRow σ.supply.count result spreads explicit)
    (hitems : cs.items = [c]) (hsolve : (solve limit cs).run σ = ({ subst := s }, τ)) :
    (∃ r : RecordTy, s.apply result = r.toTy) ∧
      (∀ before t after, spreads = before ++ t :: after → ∀ name u,
        (s.apply t).HasField name u →
        ((∃ w, t.HasField name w) ∨ ∀ m υ, (spreading limit c.span before).run σ = (.ok m, υ) →
          ∃ w, (m.subst.apply t).HasField name w) →
        ∃ v, (s.apply result).HasField name v ∧ v.equiv u = true) ∧
      ∀ name u, (s.apply explicit.toTy).HasField name u → (explicit.field? name).isSome →
        ∃ v, (s.apply result).HasField name v ∧ v.equiv u = true := by
  obtain ⟨next, hget, hgained, hrecord, hspreads, hexplicit⟩ := gives_solve h hitems hsolve
  have happly : ∀ {t : Ty}, t ∈ result :: explicit.toTy :: spreads → s.apply t = next.apply t :=
    fun ht => Subst.apply_congr hget (h.coreFrom ht)
  have hnext := hgained.solved.core
  rw [happly List.mem_cons_self]
  refine ⟨hrecord, fun before t after hsplit name u hu hname => ?_, fun name u hu hname => ?_⟩
  · have hmem : t ∈ result :: explicit.toTy :: spreads := by
      rw [hsplit]
      simp
    have ht := h.coreFrom hmem
    rw [happly hmem] at hu
    obtain ⟨m, υ, hrun, hm, hrefines, hgives⟩ := hspreads before t after hsplit
    have hturn : ∃ w, (m.subst.apply t).HasField name w :=
      hname.elim (fun ⟨w, hw⟩ => ⟨_, hw.apply hm ht⟩) fun hname => hname m υ hrun
    obtain ⟨w, hw⟩ := hturn
    have hlater := hw.apply hnext (hm.apply ht)
    rw [hrefines.absorbs ht] at hlater
    rw [hu.unique hlater]
    exact hgives name w hw
  · rw [happly (List.mem_cons_of_mem _ List.mem_cons_self)] at hu
    obtain ⟨t, ht⟩ := Option.isSome_iff_exists.1 hname
    have hcore := h.coreFrom (List.mem_cons_of_mem _ List.mem_cons_self)
    rw [hu.unique (Ty.HasField.apply hnext hcore ⟨explicit, rfl, ht⟩)]
    exact hexplicit name t ht

/-- A part whose row stands in no field and not in the result has the fields that it names. -/
theorem named_of_merge (h : c.Merges isRow σ.supply.count result spreads explicit)
    (hitems : cs.items = [c]) (hsolve : (solve limit cs).run σ = ({ subst := s }, τ))
    {r : RecordTy} (hr : r.toTy ∈ explicit.toTy :: spreads)
    (hrow : ∀ v, r.row = some v → ¬ Demand.Touches result (explicit.toTy :: spreads) v.id)
    (hu : (s.apply r.toTy).HasField name u) : (r.field? name).isSome := by
  obtain ⟨next, hget, hgained, -⟩ := gives_solve h hitems hsolve
  have hmem : r.toTy ∈ result :: explicit.toTy :: spreads := List.mem_cons_of_mem _ hr
  rw [Subst.apply_congr hget (h.coreFrom hmem)] at hu
  have hfree : ∀ v, r.row = some v → next.get? v.id = none := fun v hv =>
    hgained.get?_eq_none (hrow v hv)
      (h.older _ hmem v.id (Ty.mentions_record.2 (.inr ⟨v, hv, rfl⟩)))
  obtain ⟨t, ht, -⟩ := hasField_of_free hgained.solved.core (h.coreFrom hmem) hfree hu
  exact Option.isSome_iff_exists.2 ⟨t, ht⟩

/-- Colors that are not known yet. -/
def colored : Ty := .record [("colors", .record [] (some ⟨1, 0⟩))] none

def dark : Ty := .record [("colors", .record [("dark", .bool)] none)] none

/-- A size, and whatever the colors have. -/
def sized : Ty := .record [("size", .int)] (some ⟨1, 0⟩)

/-- The record that spreads the three of them, with no field of its own. -/
def theme : Constraint where
  demand := .merge (.var ⟨2, 0⟩) [colored, dark, sized] ⟨[], none⟩

/-- What is found for it: the colors have a field, and so does what is spread last. -/
def themed : Subst :=
  .ofList [(⟨1, 0⟩, .record [("dark", .bool)] none),
    (⟨2, 0⟩, .record
      [("colors", .record [("dark", .bool)] none), ("dark", .bool), ("size", .int)] (some ⟨3, 0⟩))]

theorem merges_theme :
    theme.Merges (· = 1) (sessionOf 2).supply.count (.var ⟨2, 0⟩) [colored, dark, sized]
      ⟨[], none⟩ where
  demand := rfl
  core := by
    have hrecord : ∀ {name : String} {t : Ty} {row : Option TyVar}, t.Core ⟨(· = 1), True⟩ →
        (∀ v, row = some v → v.id = 1) → (Ty.record [(name, t)] row).Core ⟨(· = 1), True⟩ :=
      fun ht hrow => .record trivial (List.pairwise_singleton _ _) hrow
        (List.forall_mem_singleton.2 ht)
    have hrow : ∀ v : TyVar, some (⟨1, 0⟩ : TyVar) = some v → v.id = 1 := by
      rintro v ⟨⟩
      rfl
    simp only [List.forall_mem_cons]
    refine ⟨.var (by simp), .record trivial List.Pairwise.nil nofun nofun, hrecord ?_ nofun,
      hrecord (hrecord (.prim _) nofun) nofun, hrecord (.prim _) hrow, nofun⟩
    exact .record trivial List.Pairwise.nil hrow nofun
  older := by
    simp [colored, dark, sized, Ty.bool, Ty.int, Ty.mentions_record, sessionOf, RecordTy.toTy]
  records := by
    simp only [List.forall_mem_cons]
    exact ⟨⟨⟨_, _⟩, rfl⟩, ⟨⟨_, _⟩, rfl⟩, ⟨⟨_, _⟩, rfl⟩, nofun⟩

/-- What is spread last has a field through its row, since the colors are known by then. -/
theorem field_of_merge_theme :
    (solve 250 (.ofList [theme])).run (sessionOf 2) = ({ subst := themed }, sessionOf 3) ∧
      ∃ v, (themed.apply (.var ⟨2, 0⟩)).HasField "dark" v ∧ v.equiv .bool = true := by
  have hsolve : (solve 250 (.ofList [theme])).run (sessionOf 2) =
      ({ subst := themed }, sessionOf 3) := by cbv
  have hspread : (spreading 250 theme.span [colored, dark]).run (sessionOf 2) =
      (.ok { fields := [("colors", .record [] (some ⟨1, 0⟩))]
             subst := .single ⟨1, 0⟩ (.record [("dark", .bool)] none) }, sessionOf 2) := by
    cbv
  have hitems : (ConstraintSet.ofList [theme]).items = [theme] := by cbv
  refine ⟨hsolve, (field_of_merge merges_theme hitems hsolve).2.1 [colored, dark] sized [] rfl
    "dark" .bool ?_ (.inr fun m υ hrun => ?_)⟩
  · exact ⟨⟨[("dark", .bool), ("size", .int)], none⟩, by cbv, rfl⟩
  · rw [hspread] at hrun
    cases hrun
    exact ⟨.bool, ⟨[("dark", .bool), ("size", .int)], none⟩, by cbv, rfl⟩

end Session

end RowTypes
