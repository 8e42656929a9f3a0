import RowTypes.Proofs.BuiltTypes
import RowTypes.Proofs.Congruence

/-!
# Types whose recursive types are enclosed

Equivalence of types is decided by walking down both at once with a renaming of binders, and what a
binder stands for is looked up by its number alone.  Where an inner recursive type uses the binder
of an outer one, the numbers can be chosen so that two types pass for equivalent though their
unfoldings are not.  This cannot happen if no recursive type uses anything from outside: such a type
is enclosed, and where no unknown is left free, equivalence neither knows nor needs a renaming.

Parameters and binders may stand anywhere else, also among the alternatives of a union.  So a
substitution builds unions and intersections anew, and may make two alternatives one.  That
equivalent types stay equivalent all the same rests on three facts: two types that are equivalent to
one type are equivalent to each other; leaving out what is equivalent to something earlier leaves
one of each kind; and two lists with one of each of the same kinds are equally long.
-/

namespace RowTypes

namespace Ty

/-- The free unknowns of the type satisfy a predicate, and in a recursive type nothing is free but
its own binder.  Records are closed, references go to definitions, and unions and intersections are
as they are built. -/
inductive Enclosed (r : Registry) : (Int → Prop) → Ty → Prop where
  | var {P : Int → Prop} {v : TyVar} : P v.id → Enclosed r P (.var v)
  | prim {P : Int → Prop} (name : String) : Enclosed r P (.prim name)
  | lit {P : Int → Prop} (value : String) : Enclosed r P (.lit value)
  | fn {P : Int → Prop} {p q : Ty} : Enclosed r P p → Enclosed r P q → Enclosed r P (.fn p q)
  | record {P : Int → Prop} {fs : List (String × Ty)} : Table.Ascending fs →
      (∀ f ∈ fs, Enclosed r P f.2) → Enclosed r P (.record fs none)
  | tuple {P : Int → Prop} {ts : List Ty} : (∀ t ∈ ts, Enclosed r P t) → Enclosed r P (.tuple ts)
  | union {P : Int → Prop} {ts : List Ty} : ts.length ≠ 1 → (∀ t ∈ ts, Enclosed r P t) →
      (∀ t ∈ ts, ∀ us, t ≠ .union us) → ts.Pairwise (fun a b => equiv a b = false) →
      Enclosed r P (.union ts)
  | inter {P : Int → Prop} {ts : List Ty} : ts.length ≠ 1 → (∀ t ∈ ts, Enclosed r P t) →
      (∀ t ∈ ts, ∀ us, t ≠ .inter us) → ts.Pairwise (fun a b => equiv a b = false) →
      Enclosed r P (.inter ts)
  | named {P : Int → Prop} {name : String} {ts : List Ty} {d : Definition} :
      r.lookup? name = some d → ts.length = d.params.length → (∀ t ∈ ts, Enclosed r P t) →
      Enclosed r P (.named name ts)
  | mu {P : Int → Prop} {v : TyVar} {t : Ty} : Enclosed r (fun id => id = v.id) t →
      Enclosed r P (.mu v t)

end Ty

namespace Registry

/-- In every definition the recursive types are enclosed, and the free unknowns are the
parameters. -/
def Enclosed (r : Registry) : Prop :=
  ∀ entry ∈ r.definitions, entry.2.body.Enclosed r fun id => ∃ v ∈ entry.2.params, v.id = id

end Registry

namespace Ty

variable {r : Registry} {P Q : Int → Prop} {s s' : Subst} {m m' m'' : Renaming} {k : Compound}
  {a b c t u w : Ty} {as bs cs ts us : List Ty}

theorem enclosed_of_iff : (k.of ts).Enclosed r P ↔ ts.length ≠ 1 ∧ (∀ t ∈ ts, t.Enclosed r P) ∧
    (∀ t ∈ ts, ∀ us, t ≠ k.of us) ∧ ts.Pairwise fun a b => equiv a b = false := by
  constructor
  · intro h
    cases k with
    | union => cases h with | union hlen hts hflat hdistinct => exact ⟨hlen, hts, hflat, hdistinct⟩
    | inter => cases h with | inter hlen hts hflat hdistinct => exact ⟨hlen, hts, hflat, hdistinct⟩
  · rintro ⟨hlen, hts, hflat, hdistinct⟩
    cases k with
    | union => exact .union hlen hts hflat hdistinct
    | inter => exact .inter hlen hts hflat hdistinct

theorem Enclosed.built (h : t.Enclosed r P) : t.Built True := by
  induction h with
  | var _ => exact .var _
  | prim name => exact .prim name
  | lit value => exact .lit value
  | fn _ _ ihp ihq => exact .fn ihp ihq
  | record hasc _ ih => exact .record none hasc ih
  | tuple _ ih => exact .tuple ih
  | union hlen _ hflat hdistinct ih => exact .union hlen ih hflat hdistinct
  | inter hlen _ hflat hdistinct ih => exact .inter hlen ih hflat hdistinct
  | named _ _ _ ih => exact .named _ ih
  | mu _ ih => exact .mu _ trivial ih

theorem Enclosed.rooted (h : t.Enclosed r P) : t.Rooted (fun _ => False) P := by
  induction h with
  | var hv => exact .var hv
  | prim name => exact .prim name
  | lit value => exact .lit value
  | fn _ _ ihp ihq => exact .fn ihp ihq
  | record _ _ ih => exact .record ih nofun
  | tuple _ ih => exact .tuple ih
  | union _ _ _ _ ih => exact .union ih
  | inter _ _ _ _ ih => exact .inter ih
  | named _ _ _ ih => exact .named ih
  | mu _ ih => exact .mu (ih.mono (fun _ => .inl) nofun)

theorem Enclosed.sorted (h : t.Enclosed r P) : t.Sorted := by
  induction h with
  | var _ => exact .var _
  | prim name => exact .prim name
  | lit value => exact .lit value
  | fn _ _ ihp ihq => exact .fn ihp ihq
  | record hasc _ ih => exact .record none hasc ih
  | tuple _ ih => exact .tuple ih
  | union _ _ _ _ ih => exact .union ih
  | inter _ _ _ _ ih => exact .inter ih
  | named _ _ _ ih => exact .named _ ih
  | mu _ ih => exact .mu _ ih

theorem Enclosed.ne_var (h : t.Enclosed r fun _ => False) (w : TyVar) : t ≠ .var w := by
  rintro rfl
  cases h with
  | var h => exact h

theorem enclosed_build (h : ∀ t ∈ ts, t.Enclosed r P) : (k.build ts).Enclosed r P :=
  Compound.build_induction (fun _ hlen hts hflat hdistinct =>
    enclosed_of_iff.2 ⟨hlen, hts, hflat, hdistinct⟩) fun t ht _ =>
      Compound.of_mem_parts (fun _ h => (enclosed_of_iff.1 h).2.1) (h t ht)

/-! ## Substituting -/

/-- Where no free unknown is bound, a type stays as it is. -/
theorem Enclosed.apply_of_unbound (h : t.Enclosed r P) (hs : ∀ id, P id → s.get? id = none) :
    s.apply t = t :=
  h.built.stable.apply_eq_self fun id hid =>
    hs id ((h.rooted.of_mentions hid).resolve_right not_false)

/-- Replacing all free unknowns by enclosed types leaves an enclosed type. -/
theorem Enclosed.apply (h : t.Enclosed r P)
    (hs : ∀ id, P id → ∃ u, s.get? id = some u ∧ u.Enclosed r Q) : (s.apply t).Enclosed r Q := by
  induction h with
  | @var _ v hv =>
      obtain ⟨u, hu, henclosed⟩ := hs _ hv
      rw [Subst.apply_var, hu]
      exact henclosed
  | prim name => rw [Subst.apply_prim]; exact .prim name
  | lit value => rw [Subst.apply_lit]; exact .lit value
  | fn _ _ ihp ihq => rw [Subst.apply_fn]; exact .fn (ihp hs) (ihq hs)
  | record hasc _ ih =>
      rw [Subst.apply_closed]
      exact .record (hasc.map s.apply) (List.forall_mem_map.2 fun f hf => ih f hf hs)
  | tuple _ ih =>
      rw [Subst.apply_tuple]
      exact .tuple (List.forall_mem_map.2 fun t ht => ih t ht hs)
  | union hlen hts hflat hdistinct ih =>
      have hbuilt := (Enclosed.union hlen hts hflat hdistinct).built
      rw [show s.apply (.union _) = Compound.union.build _ from hbuilt.apply_of (k := .union)]
      exact enclosed_build (List.forall_mem_map.2 fun t ht => ih t ht hs)
  | inter hlen hts hflat hdistinct ih =>
      have hbuilt := (Enclosed.inter hlen hts hflat hdistinct).built
      rw [show s.apply (.inter _) = Compound.inter.build _ from hbuilt.apply_of (k := .inter)]
      exact enclosed_build (List.forall_mem_map.2 fun t ht => ih t ht hs)
  | named hd hlen _ ih =>
      rw [Subst.apply_named]
      exact .named hd (by simpa using hlen) (List.forall_mem_map.2 fun t ht => ih t ht hs)
  | mu ht _ =>
      have hwhole : Enclosed r (fun _ => False) (.mu _ _) := .mu ht
      rw [hwhole.apply_of_unbound nofun]
      exact .mu ht

theorem Enclosed.unfold {v : TyVar} (h : (Ty.mu v t).Enclosed r P) :
    (Ty.unfold v t).Enclosed r P := by
  cases h with
  | mu ht =>
      refine ht.apply fun id hid => ⟨.mu v t, ?_, .mu ht⟩
      rw [Subst.get?_single, if_pos hid, Subst.held_of_ne fun _ h => by cases h]

/-! ## Equivalence -/

theorem rel_between {R S T : Ty → Ty → Prop} {x y z : Option Ty} (h : Option.Rel R x y)
    (h' : Option.Rel S x z)
    (hT : ∀ a b c, x = some a → y = some b → z = some c → R a b → S a c → T b c) :
    Option.Rel T y z :=
  rel_comp (rel_flip (S := fun b a => R a b) h fun _ _ _ _ h => h) h' fun b a c hb ha hc =>
    hT a b c ha hb hc

theorem forall₂_between {R S T : Ty → Ty → Prop} (h : List.Forall₂ R as bs)
    (h' : List.Forall₂ S as cs)
    (hT : ∀ a ∈ as, ∀ b ∈ bs, ∀ c ∈ cs, R a b → S a c → T b c) : List.Forall₂ T bs cs :=
  forall₂_comp (forall₂_flip (S := fun b a => R a b) h fun _ _ _ _ h => h) h'
    fun b hb a ha c hc => hT a ha b hb c hc

theorem Matched.between {R S T : Ty → Ty → Prop} (h : Matched R as bs) (h' : Matched S as cs)
    (hT : ∀ a ∈ as, ∀ b ∈ bs, ∀ c ∈ cs, R a b → S a c → T b c) : Matched T bs cs :=
  (h.flip (S := fun b a => R a b) fun _ _ _ _ h => h).comp h' fun b hb a ha c hc =>
    hT a ha b hb c hc

/-- Two types that are equivalent to one type are equivalent to each other, under any renaming that
does to the free unknowns what the two renamings do. -/
theorem Enclosed.equivUnder_between (ht : t.Enclosed r P) : ∀ {u w : Ty} {m m' m'' : Renaming}
    {Q R : Int → Prop}, u.Enclosed r Q → w.Enclosed r R →
    (∀ x y z : TyVar, P x.id → Q y.id → R z.id → x.sameUnder m y = true →
      x.sameUnder m' z = true → y.sameUnder m'' z = true) →
    equivUnder m t u = true → equivUnder m' t w = true → equivUnder m'' u w = true := by
  induction ht with
  | var hx =>
      intro u w m m' m'' Q R hu hw hvar h h'
      obtain ⟨y, rfl, hxy⟩ := exists_var_of_equivUnder h
      obtain ⟨z, rfl, hxz⟩ := exists_var_of_equivUnder h'
      cases hu with
      | var hy =>
          cases hw with
          | var hz =>
              rw [equivUnder]
              exact hvar _ _ _ hx hy hz hxy hxz
  | prim name =>
      intro u w m m' m'' Q R _ _ _ h h'
      rw [eq_prim_of_equivUnder h, eq_prim_of_equivUnder h', equivUnder, beq_self_eq_true]
  | lit value =>
      intro u w m m' m'' Q R _ _ _ h h'
      rw [eq_lit_of_equivUnder h, eq_lit_of_equivUnder h', equivUnder, beq_self_eq_true]
  | fn _ _ ihp ihq =>
      intro u w m m' m'' Q R hu hw hvar h h'
      obtain ⟨p, q, rfl, hep, heq⟩ := exists_fn_of_equivUnder h
      obtain ⟨p', q', rfl, hep', heq'⟩ := exists_fn_of_equivUnder h'
      cases hu with
      | fn hp hq =>
          cases hw with
          | fn hp' hq' =>
              exact equivUnder_fn.2 ⟨ihp hp hp' hvar hep hep', ihq hq hq' hvar heq heq'⟩
  | record hasc _ ih =>
      intro u w m m' m'' Q R hu hw hvar h h'
      obtain ⟨fs, row, rfl⟩ := exists_record_of_equivUnder h
      obtain ⟨gs, row', rfl⟩ := exists_record_of_equivUnder h'
      cases hu with
      | record hasc' hfs =>
          cases hw with
          | record hasc'' hgs =>
              obtain ⟨-, hfields⟩ := (equivUnder_record hasc hasc').1 h
              obtain ⟨-, hfields'⟩ := (equivUnder_record hasc hasc'').1 h'
              refine (equivUnder_record hasc' hasc'').2 ⟨rfl, fun name => ?_⟩
              refine rel_between (hfields name) (hfields' name) fun a b c ha hb hc => ?_
              exact ih _ (Table.mem_of_get? ha) (hfs _ (Table.mem_of_get? hb))
                (hgs _ (Table.mem_of_get? hc)) hvar
  | tuple _ ih =>
      intro u w m m' m'' Q R hu hw hvar h h'
      obtain ⟨us, rfl, helems⟩ := exists_tuple_of_equivUnder h
      obtain ⟨ws, rfl, helems'⟩ := exists_tuple_of_equivUnder h'
      cases hu with
      | tuple hus =>
          cases hw with
          | tuple hws =>
              exact equivUnder_tuple.2 (forall₂_between helems helems' fun a ha b hb c hc =>
                ih a ha (hus b hb) (hws c hc) hvar)
  | union _ _ _ _ ih =>
      intro u w m m' m'' Q R hu hw hvar h h'
      obtain ⟨us, rfl, hmatch⟩ := exists_union_of_equivUnder h
      obtain ⟨ws, rfl, hmatch'⟩ := exists_union_of_equivUnder h'
      cases hu with
      | union _ hus =>
          cases hw with
          | union _ hws =>
              exact equivUnder_union.2 (hmatch.between hmatch' fun a ha b hb c hc =>
                ih a ha (hus b hb) (hws c hc) hvar)
  | inter _ _ _ _ ih =>
      intro u w m m' m'' Q R hu hw hvar h h'
      obtain ⟨us, rfl, hmatch⟩ := exists_inter_of_equivUnder h
      obtain ⟨ws, rfl, hmatch'⟩ := exists_inter_of_equivUnder h'
      cases hu with
      | inter _ hus =>
          cases hw with
          | inter _ hws =>
              exact equivUnder_inter.2 (hmatch.between hmatch' fun a ha b hb c hc =>
                ih a ha (hus b hb) (hws c hc) hvar)
  | named _ _ _ ih =>
      intro u w m m' m'' Q R hu hw hvar h h'
      obtain ⟨us, rfl, hargs⟩ := exists_named_of_equivUnder h
      obtain ⟨ws, rfl, hargs'⟩ := exists_named_of_equivUnder h'
      cases hu with
      | named _ _ hus =>
          cases hw with
          | named _ _ hws =>
              exact equivUnder_named.2 ⟨rfl, forall₂_between hargs hargs' fun a ha b hb c hc =>
                ih a ha (hus b hb) (hws c hc) hvar⟩
  | mu _ ih =>
      intro u w m m' m'' Q R hu hw _ h h'
      obtain ⟨y, u, rfl, hbody⟩ := exists_mu_of_equivUnder h
      obtain ⟨z, w, rfl, hbody'⟩ := exists_mu_of_equivUnder h'
      cases hu with
      | mu hu =>
          cases hw with
          | mu hw =>
              rw [equivUnder]
              -- The three binders are the only unknowns that are free below them.
              refine ih hu hw (fun x y z _ hy hz _ _ => ?_) hbody hbody'
              simp [TyVar.sameUnder, hy, hz]

/-- Where no unknown is free, it does not matter under which renaming types are compared. -/
theorem Enclosed.equivUnder_congr (ht : t.Enclosed r fun _ => False)
    (h : equivUnder m t u = true) : equivUnder m' t u = true :=
  ht.sorted.equivUnder_of_lookup (fun _ hid => ((ht.rooted.of_mentions hid).elim id id).elim) h

theorem Enclosed.equiv_symm (ht : t.Enclosed r fun _ => False) (hu : u.Enclosed r fun _ => False)
    (h : equiv t u = true) : equiv u t = true :=
  ht.equivUnder_between hu ht nofun h ht.sorted.equiv_self

theorem Enclosed.equiv_trans (ht : t.Enclosed r fun _ => False) (hu : u.Enclosed r fun _ => False)
    (hw : w.Enclosed r fun _ => False) (h : equiv t u = true) (h' : equiv u w = true) :
    equiv t w = true :=
  hu.equivUnder_between ht hw nofun (ht.equiv_symm hu h) h'

/-! ## Equivalent parts make equivalent compounds -/

/-- Each of some types is equivalent to one of some others. -/
def Represented (as bs : List Ty) : Prop := ∀ a ∈ as, ∃ b ∈ bs, equiv a b = true

/-- A list without repetitions is no longer than one that has an equivalent of each of its types. -/
theorem Represented.length_le (h : Represented as bs) (has : ∀ a ∈ as, a.Enclosed r fun _ => False)
    (hbs : ∀ b ∈ bs, b.Enclosed r fun _ => False)
    (hdistinct : as.Pairwise fun a b => equiv a b = false) : as.length ≤ bs.length := by
  choose! f hf using h
  have hnodup : (as.map f).Nodup := by
    refine List.pairwise_map.2 (hdistinct.imp_of_mem fun {a b} ha hb hne heq => ?_)
    have hback := (has b hb).equiv_symm (hbs _ (hf b hb).1) (hf b hb).2
    rw [(has a ha).equiv_trans (hbs _ (hf a ha).1) (has b hb) (hf a ha).2 (heq ▸ hback)] at hne
    cases hne
  have hsub : as.map f ⊆ bs := fun c hc => by
    obtain ⟨a, ha, rfl⟩ := List.mem_map.1 hc
    exact (hf a ha).1
  simpa using (hnodup.subperm hsub).length_le

theorem Enclosed.parts_of (h : (k.of ts).Enclosed r P) : k.parts (k.of ts) = ts := by
  rw [Compound.parts_of, Compound.flatMap_parts_eq_self (enclosed_of_iff.1 h).2.2.1]

theorem Represented.parts (h : Represented as bs) (has : ∀ a ∈ as, a.Enclosed r fun _ => False)
    (hbs : ∀ b ∈ bs, b.Enclosed r fun _ => False) :
    Represented (as.flatMap k.parts) (bs.flatMap k.parts) := by
  intro p hp
  obtain ⟨a, ha, hp⟩ := List.mem_flatMap.1 hp
  obtain ⟨b, hb, hab⟩ := h a ha
  suffices hq : ∃ q ∈ k.parts b, equiv p q = true by
    obtain ⟨q, hq, hpq⟩ := hq
    exact ⟨q, List.mem_flatMap.2 ⟨b, hb, hq⟩, hpq⟩
  by_cases hk : ∃ us, a = k.of us
  · obtain ⟨us, rfl⟩ := hk
    obtain ⟨vs, rfl, -, hto, -⟩ := Compound.equiv_of_iff.1 hab
    rw [(has _ ha).parts_of] at hp
    rw [(hbs _ hb).parts_of]
    exact hto p hp
  · have hne : ∀ vs, b ≠ k.of vs := by
      rintro vs rfl
      obtain ⟨us, rfl, -⟩ := Compound.equiv_of_iff.1 ((has a ha).equiv_symm (hbs _ hb) hab)
      exact hk ⟨us, rfl⟩
    rw [Compound.parts_of_ne fun us h => hk ⟨us, h⟩, List.mem_singleton] at hp
    rw [Compound.parts_of_ne hne]
    exact ⟨b, List.mem_singleton_self b, hp ▸ hab⟩

theorem Represented.distinct (h : Represented as bs) (has : ∀ a ∈ as, a.Enclosed r fun _ => False)
    (hbs : ∀ b ∈ bs, b.Enclosed r fun _ => False) : Represented (distinct as) (distinct bs) := by
  intro a ha
  have ha := mem_distinct ha
  obtain ⟨b, hb, hab⟩ := h a ha
  obtain ⟨c, hc, rfl | hcb⟩ := exists_mem_distinct hb
  · exact ⟨c, hc, hab⟩
  · have hclosed := hbs c (mem_distinct hc)
    exact ⟨c, hc, (has a ha).equiv_trans (hbs b hb) hclosed hab
      (hclosed.equiv_symm (hbs b hb) hcb)⟩

/-- Compounds of equivalent types are equivalent. -/
theorem equiv_build (has : ∀ a ∈ as, a.Enclosed r fun _ => False)
    (hbs : ∀ b ∈ bs, b.Enclosed r fun _ => False) (h : Represented as bs) (h' : Represented bs as) :
    equiv (k.build as) (k.build bs) = true := by
  have hparts : ∀ {ts : List Ty}, (∀ t ∈ ts, t.Enclosed r fun _ => False) →
      ∀ t ∈ ts.flatMap k.parts, t.Enclosed r fun _ => False := by
    intro ts hts p hp
    obtain ⟨t, ht, hp⟩ := List.mem_flatMap.1 hp
    exact Compound.of_mem_parts (fun _ h => (enclosed_of_iff.1 h).2.1) (hts t ht) hp
  have hto := (h.parts (k := k) has hbs).distinct (hparts has) (hparts hbs)
  have hfrom := (h'.parts (k := k) hbs has).distinct (hparts hbs) (hparts has)
  have has := fun a ha => hparts has a (mem_distinct ha)
  have hbs := fun b hb => hparts hbs b (mem_distinct hb)
  have hlen := Nat.le_antisymm (hto.length_le has hbs (pairwise_distinct _))
    (hfrom.length_le hbs has (pairwise_distinct _))
  rw [Compound.build_eq, Compound.build_eq]
  generalize Ty.distinct (as.flatMap k.parts) = as at has hto hfrom hlen ⊢
  generalize Ty.distinct (bs.flatMap k.parts) = bs at hbs hto hfrom hlen ⊢
  by_cases hone : as.length = 1
  · obtain ⟨a, rfl⟩ := List.length_eq_one_iff.1 hone
    obtain ⟨b, rfl⟩ := List.length_eq_one_iff.1 (hlen ▸ hone)
    obtain ⟨b', hb', hab⟩ := hto a (List.mem_singleton_self a)
    exact List.mem_singleton.1 hb' ▸ hab
  · rw [Compound.together_of_length_ne hone, Compound.together_of_length_ne (hlen ▸ hone)]
    refine Compound.equiv_of_iff.2 ⟨bs, rfl, hlen, hto, fun b hb => ?_⟩
    obtain ⟨a, ha, hba⟩ := hfrom b hb
    exact ⟨a, ha, (hbs b hb).equiv_symm (has a ha) hba⟩

/-! ## Equivalent types stay equivalent -/

/-- Compounds whose parts become equivalent become equivalent, though they are built anew. -/
theorem equiv_apply_of (ha : (k.of as).Enclosed r P) (hb : (k.of bs).Enclosed r Q)
    (hs : ∀ id, P id → ∃ a, s.get? id = some a ∧ a.Enclosed r fun _ => False)
    (hs' : ∀ id, Q id → ∃ a, s'.get? id = some a ∧ a.Enclosed r fun _ => False)
    (h : Matched (fun a b => equiv (s.apply a) (s'.apply b) = true) as bs) :
    equiv (s.apply (k.of as)) (s'.apply (k.of bs)) = true := by
  have has : ∀ a ∈ as.map s.apply, a.Enclosed r fun _ => False := List.forall_mem_map.2
    fun a ha' => ((enclosed_of_iff.1 ha).2.1 a ha').apply hs
  have hbs : ∀ b ∈ bs.map s'.apply, b.Enclosed r fun _ => False := List.forall_mem_map.2
    fun b hb' => ((enclosed_of_iff.1 hb).2.1 b hb').apply hs'
  rw [ha.built.apply_of, hb.built.apply_of]
  refine equiv_build has hbs (List.forall_mem_map.2 fun a ha => ?_)
    (List.forall_mem_map.2 fun b hb => ?_)
  · obtain ⟨b, hb, hab⟩ := h.2.1 a ha
    exact ⟨_, List.mem_map_of_mem hb, hab⟩
  · obtain ⟨a, ha, hab⟩ := h.2.2 b hb
    exact ⟨_, List.mem_map_of_mem ha, (has _ (List.mem_map_of_mem ha)).equiv_symm
      (hbs _ (List.mem_map_of_mem hb)) hab⟩

/-- Equivalent types stay equivalent if equivalent types without free unknowns are put in for all of
their unknowns. -/
theorem Enclosed.equiv_apply (ht : t.Enclosed r P)
    (hs : ∀ id, P id → ∃ a, s.get? id = some a ∧ a.Enclosed r fun _ => False) :
    ∀ {u : Ty}, u.Enclosed r Q →
      (∀ id, Q id → ∃ a, s'.get? id = some a ∧ a.Enclosed r fun _ => False) →
      (∀ x y : TyVar, P x.id → Q y.id → x.sameUnder m y = true →
        equiv (s.apply (.var x)) (s'.apply (.var y)) = true) →
      equivUnder m t u = true → equiv (s.apply t) (s'.apply u) = true := by
  have hmap : ∀ {as bs : List Ty},
      List.Forall₂ (fun a b => equiv (s.apply a) (s'.apply b) = true) as bs →
      List.Forall₂ (fun a b => equiv a b = true) (as.map s.apply) (bs.map s'.apply) := fun h =>
    List.forall₂_map_left_iff.2 (List.forall₂_map_right_iff.2 h)
  induction ht with
  | var hx =>
      intro u hu hs' hvar h
      obtain ⟨y, rfl, hxy⟩ := exists_var_of_equivUnder h
      cases hu with
      | var hy => exact hvar _ _ hx hy hxy
  | prim name =>
      intro u _ _ _ h
      rw [eq_prim_of_equivUnder h, Subst.apply_prim, Subst.apply_prim]
      exact Sorted.equiv_self (.prim name)
  | lit value =>
      intro u _ _ _ h
      rw [eq_lit_of_equivUnder h, Subst.apply_lit, Subst.apply_lit]
      exact Sorted.equiv_self (.lit value)
  | fn _ _ ihp ihq =>
      intro u hu hs' hvar h
      obtain ⟨p', q', rfl, hep, heq⟩ := exists_fn_of_equivUnder h
      cases hu with
      | fn hp hq =>
          rw [Subst.apply_fn, Subst.apply_fn]
          exact equiv_fn.2 ⟨ihp hs hp hs' hvar hep, ihq hs hq hs' hvar heq⟩
  | record hasc _ ih =>
      intro u hu hs' hvar h
      obtain ⟨gs, row, rfl⟩ := exists_record_of_equivUnder h
      cases hu with
      | record hasc' hgs =>
          obtain ⟨-, hfields⟩ := (equivUnder_record hasc hasc').1 h
          rw [Subst.apply_closed, Subst.apply_closed]
          refine (equiv_record (hasc.map s.apply) (hasc'.map s'.apply)).2 ⟨rfl, fun name => ?_⟩
          rw [Table.get?_map, Table.get?_map]
          refine rel_map (hfields name) fun a b ha hb h => ?_
          exact ih _ (Table.mem_of_get? ha) hs (hgs _ (Table.mem_of_get? hb)) hs' hvar h
  | tuple _ ih =>
      intro u hu hs' hvar h
      obtain ⟨us, rfl, helems⟩ := exists_tuple_of_equivUnder h
      cases hu with
      | tuple hus =>
          rw [Subst.apply_tuple, Subst.apply_tuple]
          refine equiv_tuple.2 (hmap (forall₂_imp helems ?_))
          exact fun t ht u hu h => ih t ht hs (hus u hu) hs' hvar h
  | union hlen hts hflat hdistinct ih =>
      intro u hu hs' hvar h
      obtain ⟨us, rfl, hmatch⟩ := exists_union_of_equivUnder h
      cases hu with
      | union hlen' hus hflat' hdistinct' =>
          refine equiv_apply_of (k := .union) (.union hlen hts hflat hdistinct)
            (.union hlen' hus hflat' hdistinct') hs hs' (hmatch.mono ?_)
          exact fun t ht u hu h => ih t ht hs (hus u hu) hs' hvar h
  | inter hlen hts hflat hdistinct ih =>
      intro u hu hs' hvar h
      obtain ⟨us, rfl, hmatch⟩ := exists_inter_of_equivUnder h
      cases hu with
      | inter hlen' hus hflat' hdistinct' =>
          refine equiv_apply_of (k := .inter) (.inter hlen hts hflat hdistinct)
            (.inter hlen' hus hflat' hdistinct') hs hs' (hmatch.mono ?_)
          exact fun t ht u hu h => ih t ht hs (hus u hu) hs' hvar h
  | named _ _ _ ih =>
      intro u hu hs' hvar h
      obtain ⟨us, rfl, hargs⟩ := exists_named_of_equivUnder h
      cases hu with
      | named _ _ hus =>
          rw [Subst.apply_named, Subst.apply_named]
          refine equiv_named.2 ⟨rfl, hmap (forall₂_imp hargs ?_)⟩
          exact fun t ht u hu h => ih t ht hs (hus u hu) hs' hvar h
  | mu ht _ =>
      intro u hu _ _ h
      obtain ⟨w, u, rfl, -⟩ := exists_mu_of_equivUnder h
      cases hu with
      | mu hu =>
          have hleft : Enclosed r (fun _ => False) (.mu _ _) := .mu ht
          have hright : Enclosed r (fun _ => False) (.mu _ _) := .mu hu
          rw [hleft.apply_of_unbound nofun, hright.apply_of_unbound nofun]
          exact hleft.equivUnder_congr h

theorem Enclosed.of_named {name : String} (h : (Ty.named name ts).Enclosed r P) :
    (∃ d, r.lookup? name = some d ∧ ts.length = d.params.length) ∧ ∀ t ∈ ts, t.Enclosed r P := by
  cases h with
  | named hd hlen hts => exact ⟨⟨_, hd, hlen⟩, hts⟩

/-- Equivalent recursive types have equivalent unfoldings. -/
theorem equiv_unfold {v x : TyVar} (ht : (Ty.mu v t).Enclosed r fun _ => False)
    (hu : (Ty.mu x u).Enclosed r fun _ => False) (h : equiv (.mu v t) (.mu x u) = true) :
    equiv (unfold v t) (unfold x u) = true := by
  have hself : ∀ {v y : TyVar} {t : Ty}, y.id = v.id →
      (Subst.single v (.mu v t)).get? y.id = some (.mu v t) := by
    intro v y t hy
    rw [Subst.get?_single, if_pos hy, Subst.held_of_ne fun _ h => by cases h]
  cases ht with
  | mu ht =>
      cases hu with
      | mu hu =>
          refine ht.equiv_apply (m := [(v.id, x.id)]) (fun id hid => ⟨_, hself (y := ⟨id, 0⟩) hid, .mu ht⟩)
            hu (fun id hid => ⟨_, hself (y := ⟨id, 0⟩) hid, .mu hu⟩) (fun y z hy hz _ => ?_)
            (by rwa [equiv, equivUnder] at h)
          rw [Subst.apply_var, Subst.apply_var, hself hy, hself hz]
          exact h

end Ty

namespace Registry

variable {r : Registry} {P : Int → Prop} {name : String} {as bs : List Ty} {a a' b t : Ty}

section Enclosed

variable (hr : r.Enclosed)
include hr

/-- A reference to an enclosed definition can be expanded, to an enclosed type. -/
theorem Enclosed.exists_expand? (h : (Ty.named name as).Enclosed r fun _ => False) :
    ∃ t, r.expand? name as = some t ∧ t.Enclosed r fun _ => False := by
  obtain ⟨⟨d, hd, hlen⟩, has⟩ := h.of_named
  refine ⟨_, expand?_of_lookup? hd hlen, (hr _ (Table.mem_of_get? hd)).apply fun id hid => ?_⟩
  obtain ⟨u, hu, hmem⟩ := exists_arg hlen (fun a ha => (has a ha).ne_var) hid
  exact ⟨u, hu, has u hmem⟩

theorem Enclosed.hereditary : r.Hereditary fun t => t.Enclosed r fun _ => False where
  ground h := h.rooted
  fn h := by cases h; constructor <;> assumption
  record h := by cases h; assumption
  tuple h := by cases h; assumption
  union h := by cases h; assumption
  inter h := by cases h; assumption
  named h := h.of_named.2
  expand h ht := by
    obtain ⟨u, hu, henclosed⟩ := hr.exists_expand? h
    rw [hu] at ht
    cases ht
    exact henclosed
  unfold h := h.unfold

theorem Enclosed.unwrap? (ha : a.Enclosed r fun _ => False) (h : r.unwrap? a = some t) :
    t.Enclosed r fun _ => False := by
  cases a with
  | named name as => exact hr.hereditary.expand ha h
  | mu v t => cases h; exact ha.unfold
  | _ => cases h

/-- References and recursive types can be expanded or unfolded. -/
theorem Enclosed.exists_unwrap? (ha : a.Enclosed r fun _ => False)
    (hind : Relate.isIndirect a = true) : ∃ t, r.unwrap? a = some t := by
  cases a with
  | named name as => exact (hr.exists_expand? ha).imp fun _ h => h.1
  | mu v t => exact ⟨_, rfl⟩
  | _ => cases hind

/-- References with equivalent arguments stand for equivalent types. -/
theorem Enclosed.equiv_expand? (ha : (Ty.named name as).Enclosed r fun _ => False)
    (hb : (Ty.named name bs).Enclosed r fun _ => False)
    (h : List.Forall₂ (fun a b => a.equiv b = true) as bs) :
    ∃ t u, r.expand? name as = some t ∧ r.expand? name bs = some u ∧ t.equiv u = true := by
  obtain ⟨⟨d, hd, hlen⟩, has⟩ := ha.of_named
  obtain ⟨⟨d', hd', hlen'⟩, hbs⟩ := hb.of_named
  obtain rfl : d = d' := Option.some.inj (hd.symm.trans hd')
  refine ⟨_, _, expand?_of_lookup? hd hlen, expand?_of_lookup? hd hlen', ?_⟩
  have hbound : ∀ {ts : List Ty}, ts.length = d.params.length →
      (∀ t ∈ ts, t.Enclosed r fun _ => False) → ∀ id, (∃ v ∈ d.params, v.id = id) →
      ∃ a, (Subst.ofList (d.params.zip ts)).get? id = some a ∧ a.Enclosed r fun _ => False := by
    intro ts hlen hts id hid
    obtain ⟨u, hu, hmem⟩ := exists_arg hlen (fun t ht => (hts t ht).ne_var) hid
    exact ⟨u, hu, hts u hmem⟩
  have hbody := hr _ (Table.mem_of_get? hd)
  refine hbody.equiv_apply (hbound hlen has) hbody (hbound hlen' hbs) (fun v w hv _ heq => ?_)
    hbody.sorted.equiv_self
  exact Subst.rel_apply_param h (fun a ha => (has a ha).ne_var) (fun b hb => (hbs b hb).ne_var) hlen
    hv (by simpa [TyVar.sameUnder] using heq)

/-- Equivalent types are expanded or unfolded to equivalent types. -/
theorem Enclosed.equiv_unwrap? (ha : a.Enclosed r fun _ => False)
    (hb : b.Enclosed r fun _ => False) (h : a.equiv b = true)
    (hind : Relate.isIndirect b = true) :
    ∃ a' b', r.unwrap? a = some a' ∧ r.unwrap? b = some b' ∧ a'.equiv b' = true := by
  cases b with
  | named name bs =>
      obtain ⟨as, rfl⟩ := Ty.exists_named_of_equiv_named h
      exact hr.equiv_expand? ha hb (Ty.equiv_named.1 h).2
  | mu w u =>
      obtain ⟨v, t, rfl⟩ := Ty.exists_mu_of_equiv_mu h
      exact ⟨_, _, rfl, rfl, Ty.equiv_unfold ha hb h⟩
  | _ => cases hind

end Enclosed

end Registry

end RowTypes
