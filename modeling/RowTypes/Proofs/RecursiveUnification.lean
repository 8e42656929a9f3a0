import RowTypes.Proofs.Coinduction

/-!
# Unifying recursive types is sound

If two types without intersections are unified, they are one in the sense of a consistent relation:
a relation all of whose pairs are alike at the head, up to the two liberties of unification, and
have parts that are related again.  For types that are infinite once their references are expanded,
this is the most that a successful run can say.

The relation is the list of pairs that the run has shown, in both orders.  Two things have to be
excluded.  A definition with an intersection brings intersections in, and of an intersection
unification asks that the other type goes with every member.  And a binder, or a parameter of a
definition, that stands in the place of a row gets free when the type is unfolded or expanded, since
nothing but a record is put in the place of a row; the row is then bound to whatever fields the
other record has.
-/

namespace RowTypes

namespace Ty

/-- No intersection occurs in a type. -/
inductive InterFree : Ty → Prop where
  | var (v : TyVar) : InterFree (.var v)
  | prim (name : String) : InterFree (.prim name)
  | lit (value : String) : InterFree (.lit value)
  | fn {p r : Ty} : InterFree p → InterFree r → InterFree (.fn p r)
  | record {fs : List (String × Ty)} (row : Option TyVar) : (∀ f ∈ fs, InterFree f.2) →
      InterFree (.record fs row)
  | tuple {ts : List Ty} : (∀ t ∈ ts, InterFree t) → InterFree (.tuple ts)
  | union {ts : List Ty} : (∀ t ∈ ts, InterFree t) → InterFree (.union ts)
  | named {name : String} {ts : List Ty} : (∀ t ∈ ts, InterFree t) → InterFree (.named name ts)
  | mu {v : TyVar} {t : Ty} : InterFree t → InterFree (.mu v t)

variable {t : Ty} {ts : List Ty} {fs : List (String × Ty)} {row : Option TyVar}

theorem interFree_record : (Ty.record fs row).InterFree ↔ ∀ f ∈ fs, f.2.InterFree :=
  ⟨by rintro ⟨⟩; assumption, .record row⟩

theorem interFree_union : (Ty.union ts).InterFree ↔ ∀ t ∈ ts, t.InterFree :=
  ⟨by rintro ⟨⟩; assumption, .union⟩

theorem interFree_splice {row : TyVar} {bound : Option Ty} (hfs : ∀ f ∈ fs, f.2.InterFree)
    (hbound : ∀ u, bound = some u → u.InterFree) :
    (RecordTy.splice fs row bound).toTy.InterFree := by
  refine .record _ fun f hf => ?_
  obtain hf | ⟨more, rest, hb, hf⟩ := RecordTy.mem_fields_splice hf
  · exact hfs f hf
  · exact interFree_record.1 (hbound _ hb) f hf

theorem InterFree.apply (h : t.InterFree) : ∀ {s : Subst},
    (∀ id u, s.get? id = some u → u.InterFree) → (s.apply t).InterFree := by
  induction h with
  | var v =>
      intro s hs
      rw [Subst.apply_var]
      cases hv : s.get? v.id with
      | none => exact .var v
      | some u => exact hs v.id u hv
  | prim name =>
      intro s _
      rw [Subst.apply_prim]
      exact .prim name
  | lit value =>
      intro s _
      rw [Subst.apply_lit]
      exact .lit value
  | fn _ _ ihp ihr =>
      intro s hs
      rw [Subst.apply_fn]
      exact .fn (ihp hs) (ihr hs)
  | @record fs row _ ih =>
      intro s hs
      have hfields : ∀ f ∈ s.applyFields fs, f.2.InterFree := by
        rw [Subst.applyFields_eq_map]
        exact List.forall_mem_map.2 fun f hf => ih f hf hs
      cases row with
      | none =>
          rw [Subst.apply_closed, ← Subst.applyFields_eq_map]
          exact .record none hfields
      | some row =>
          rw [Subst.apply_open, ← Subst.applyFields_eq_map]
          exact interFree_splice hfields fun u hu => hs _ u hu
  | tuple _ ih =>
      intro s hs
      rw [Subst.apply_tuple]
      exact .tuple (List.forall_mem_map.2 fun t ht => ih t ht hs)
  | @union ts hts ih =>
      intro s hs
      rw [Subst.apply]
      split
      · exact .union hts
      · rw [Subst.applyAll_eq_map]
        exact of_unionOf (fun _ => interFree_union) (List.forall_mem_map.2 fun t ht => ih t ht hs)
  | named _ ih =>
      intro s hs
      rw [Subst.apply_named]
      exact .named (List.forall_mem_map.2 fun t ht => ih t ht hs)
  | @mu v t ht ih =>
      intro s hs
      rw [Subst.apply]
      split
      · exact .mu ht
      · refine .mu (ih fun id u hu => ?_)
        rw [Subst.get?_erase] at hu
        split at hu
        · cases hu
        · exact hs id u hu

theorem InterFree.unfold {v : TyVar} (h : (Ty.mu v t).InterFree) : (Ty.unfold v t).InterFree := by
  have hbody : t.InterFree := by cases h; assumption
  refine hbody.apply fun id u hu => ?_
  rw [Subst.get?_single] at hu
  split at hu
  · exact (Subst.held_eq_some hu).1 ▸ h
  · cases hu

end Ty

namespace Registry

/-- No intersection occurs in a definition. -/
def InterFree (r : Registry) : Prop := ∀ entry ∈ r.definitions, entry.2.body.InterFree

variable {r : Registry} {S : Ty → Ty → Prop} {a b : Ty}

theorem InterFree.expand? (hr : r.InterFree) {name : String} {args : List Ty} {t : Ty}
    (hargs : ∀ u ∈ args, u.InterFree) (ht : r.expand? name args = some t) : t.InterFree := by
  obtain ⟨d, hd, ht⟩ := Option.bind_eq_some_iff.1 ht
  unfold Definition.expand? at ht
  split at ht
  · cases ht
    refine (hr _ (Table.mem_of_get? hd)).apply fun id u hu => ?_
    obtain ⟨b, hb, -, rfl⟩ := Subst.mem_of_get?_ofList hu
    exact hargs b.2 (List.of_mem_zip hb).2
  · cases ht

theorem Closed.hereditary_interFree (hr : r.Closed) (hr' : r.InterFree) :
    r.Hereditary fun t => t.Ground ∧ t.InterFree := by
  have hground := hr.hereditary_ground
  constructor
  · exact fun h => h.1
  · rintro p q ⟨h, h'⟩
    cases h' with
    | fn hp hq => exact ⟨⟨(hground.fn h).1, hp⟩, (hground.fn h).2, hq⟩
  · rintro fs row ⟨h, h'⟩ f hf
    exact ⟨hground.record h f hf, Ty.interFree_record.1 h' f hf⟩
  · rintro ts ⟨h, h'⟩ t ht
    cases h' with
    | tuple hts => exact ⟨hground.tuple h t ht, hts t ht⟩
  · rintro ts ⟨h, h'⟩ t ht
    exact ⟨hground.union h t ht, Ty.interFree_union.1 h' t ht⟩
  · rintro ts ⟨-, h'⟩
    cases h'
  · rintro name ts ⟨h, h'⟩ t ht
    cases h' with
    | named hts => exact ⟨hground.named h t ht, hts t ht⟩
  · rintro name ts t ⟨h, h'⟩ ht
    cases h' with
    | named hts => exact ⟨hground.expand h ht, hr'.expand? hts ht⟩
  · rintro v t ⟨h, h'⟩
    exact ⟨hground.unfold h, h'.unfold⟩

/-- What makes two types one as far as a relation tells: they are equivalent, or alike at the head
with related parts; a reference or a recursive type may be expanded or unfolded once. -/
inductive Agrees (r : Registry) (S : Ty → Ty → Prop) : Ty → Ty → Prop where
  | equiv {a b : Ty} : a.equiv b = true → Agrees r S a b
  | args {name : String} {as bs : List Ty} : as.length = bs.length →
      (∀ e ∈ as.zip bs, S e.1 e.2) → Agrees r S (.named name as) (.named name bs)
  | expand {name : String} {args : List Ty} {t b : Ty} : r.expand? name args = some t → S t b →
      Agrees r S (.named name args) b
  | unfold {v : TyVar} {t b : Ty} : S (.unfold v t) b → Agrees r S (.mu v t) b
  | unions {as bs : List Ty} : (∀ a ∈ as, ∃ b ∈ bs, S a b) → (∀ b ∈ bs, ∃ a ∈ as, S a b) →
      Agrees r S (.union as) (.union bs)
  | alternative {bs : List Ty} {a : Ty} : (∀ as, a ≠ .union as) → (∃ b ∈ bs, S a b) →
      Agrees r S a (.union bs)
  | string (value : String) : Agrees r S (.lit value) .string
  | fn {p p' q q' : Ty} : S p p' → S q q' → Agrees r S (.fn p q) (.fn p' q')
  | tuple {as bs : List Ty} : as.length = bs.length → (∀ e ∈ as.zip bs, S e.1 e.2) →
      Agrees r S (.tuple as) (.tuple bs)
  | record {fs gs : List (String × Ty)} :
      (∀ name, Option.Rel S (Table.get? name fs) (Table.get? name gs)) →
      Agrees r S (.record fs none) (.record gs none)

/-- A relation in which the types of each pair are one, in one order or the other, as far as the
relation itself tells. -/
structure Consistent (r : Registry) (S : Ty → Ty → Prop) : Prop where
  symm : ∀ {a b}, S a b → S b a
  agrees : ∀ {a b}, S a b → r.Agrees S a b ∨ r.Agrees S b a

/-- Where no intersection occurs, justified types agree. -/
theorem Justified.agrees (h : r.Justified S a b) (hS : ∀ {a b}, S a b → S b a)
    (ha : a.InterFree) (hb : b.InterFree) : r.Agrees S a b ∨ r.Agrees S b a := by
  cases h with
  | equiv h => exact .inl (.equiv h)
  | args hlen h => exact .inl (.args hlen h)
  | expand ht h => exact .inl (.expand ht h)
  | expandRight _ ht h => exact .inr (.expand ht (hS h))
  | unfold _ h => exact .inl (.unfold h)
  | unfoldRight _ h => exact .inr (.unfold (hS h))
  | unions h h' =>
      exact .inl (.unions h fun b hb => (h' b hb).imp fun _ ha => ⟨ha.1, hS ha.2⟩)
  | intoUnion _ hne h => exact .inl (.alternative hne h)
  | intoInter _ _ => cases hb
  | fromUnion _ hne _ h => exact .inr (.alternative hne h)
  | fromInter _ _ _ _ => cases ha
  | string value => exact .inr (.string value)
  | literal value => exact .inl (.string value)
  | fn h h' => exact .inl (.fn h h')
  | tuple hlen h => exact .inl (.tuple hlen h)
  | record h => exact .inl (.record h)

/-- A relation that justifies its pairs is a consistent one, taken in both orders. -/
theorem consistent_of_justified (h : ∀ {a b}, S a b → r.Justified S a b)
    (hfree : ∀ {a b}, S a b → a.InterFree ∧ b.InterFree) :
    r.Consistent fun a b => S a b ∨ S b a where
  symm hab := hab.symm
  agrees := by
    have hboth : ∀ {a b}, S a b → r.Justified (fun a b => S a b ∨ S b a) a b := fun hab =>
      (h hab).mono fun _ _ => .inl
    rintro a b (hab | hba)
    · exact (hboth hab).agrees (fun h => h.symm) (hfree hab).1 (hfree hab).2
    · exact ((hboth hba).agrees (fun h => h.symm) (hfree hba).1 (hfree hba).2).symm

end Registry

namespace Session

/-- Unified types are one in the sense of a consistent relation, if different pairs that are assumed
on the way have different digests. -/
theorem exists_consistent_of_unify {limit : Nat} {span : Span} {a b : Ty} {σ τ : Session}
    {s : Subst} (hclosed : σ.registry.Closed) (hdefs : σ.registry.InterFree) (ha : a.Ground)
    (ha' : a.InterFree) (hb : b.Ground) (hb' : b.InterFree)
    (hapart : σ.registry.SetApart limit a b)
    (h : (unify limit span a b).run σ = (.ok s, τ)) :
    ∃ S : Ty → Ty → Prop, S a b ∧ σ.registry.Consistent S := by
  have hrun : ((Relate.unify { registry := σ.registry, span } limit a b).run
      { supply := σ.supply }).1 = .ok s := congrArg Prod.fst h
  let ctx : Context := { registry := σ.registry, span }
  have hhereditary : ctx.registry.Hereditary fun t => t.Ground ∧ t.InterFree :=
    hclosed.hereditary_interFree hdefs
  obtain ⟨S, hab, hproper, hjust⟩ := Relate.exists_justified_of_unify
    (p := { supply := σ.supply }) hhereditary ⟨ha, ha'⟩ ⟨hb, hb'⟩ hapart hrun
  exact ⟨_, .inl hab, Registry.consistent_of_justified hjust fun hxy =>
    ⟨(hproper hxy).1.2, (hproper hxy).2.2⟩⟩

/-- A number, and more of what a name stands for. -/
def streamOf (name : String) : Ty := .record [("head", .int), ("tail", .named name [])] none

/-- A session where two names stand for streams of numbers. -/
def withStreams : Session :=
  { registry :=
      { definitions := [("A", ⟨"A", [], streamOf "A", {}⟩), ("B", ⟨"B", [], streamOf "B", {}⟩)] } }

/-- Unifying the two names comes back to them. -/
theorem setApart_streams (limit : Nat) :
    withStreams.registry.SetApart limit (.named "A" []) (.named "B" []) := by
  let pairs : List (Ty × Ty) := [(.named "A" [], .named "B" []), (streamOf "A", .named "B" []),
    (streamOf "A", streamOf "B"), (.int, .int)]
  have hleads : withStreams.registry.leads (.named "A" []) (.named "B" []) =
        [(streamOf "A", .named "B" [])] ∧
      withStreams.registry.leads (streamOf "A") (.named "B" []) = [(streamOf "A", streamOf "B")] ∧
      withStreams.registry.leads (streamOf "A") (streamOf "B") =
        [(.int, .int), (.named "A" [], .named "B" [])] ∧
      withStreams.registry.leads .int .int = [] := ⟨by cbv, by cbv, by cbv, by cbv⟩
  have hclosed : ∀ c ∈ pairs, ∀ d ∈ withStreams.registry.leads c.1 c.2, d ∈ pairs := by
    simp only [pairs, List.forall_mem_cons, hleads]
    simp
  have hapart : Relate.pairDigest (.named "A" []) (.named "B" []) ≠
      Relate.pairDigest (streamOf "A") (.named "B" []) := by decide +kernel
  have hassumed : ∀ e ∈ pairs, Registry.Assumable e →
      e = (.named "A" [], .named "B" []) ∨ e = (streamOf "A", .named "B" []) := by
    rintro e he ⟨-, hind⟩
    simp only [pairs, List.mem_cons, List.not_mem_nil, or_false] at he
    rcases he with rfl | rfl | rfl | rfl
    · exact .inl rfl
    · exact .inr rfl
    · cases hind
    · cases hind
  refine Registry.setApart_of_mem hclosed List.mem_cons_self fun e he e' he' hind hind' heq => ?_
  rcases hassumed e he hind with rfl | rfl <;> rcases hassumed e' he' hind' with rfl | rfl
  · rfl
  · exact absurd heq hapart
  · exact absurd heq.symm hapart
  · rfl

theorem consistent_streams :
    withStreams.registry.Closed ∧ withStreams.registry.InterFree ∧
    withStreams.registry.SetApart defaultLimit (.named "A" []) (.named "B" []) ∧
    (∃ s τ, (unify defaultLimit {} (.named "A" []) (.named "B" [])).run withStreams = (.ok s, τ)) ∧
    ∃ S : Ty → Ty → Prop,
      S (.named "A" []) (.named "B" []) ∧ withStreams.registry.Consistent S := by
  have hground : ∀ name, (Ty.named name []).Ground := fun name => .named (by simp)
  have hfree : ∀ name, (Ty.named name []).InterFree := fun name => .named (by simp)
  have hclosed : withStreams.registry.Closed := by
    refine List.forall_mem_cons.2 ⟨?_, List.forall_mem_singleton.2 ?_⟩
    all_goals exact .record (by simp [Ty.int, Ty.Rooted.prim, Ty.Rooted.named]) nofun
  have hinter : withStreams.registry.InterFree := by
    refine List.forall_mem_cons.2 ⟨?_, List.forall_mem_singleton.2 ?_⟩
    all_goals exact .record none (by simp [Ty.int, Ty.InterFree.prim, Ty.InterFree.named])
  have hrun : ∃ s τ, (unify defaultLimit {} (.named "A" []) (.named "B" [])).run withStreams =
      (.ok s, τ) := by
    have hok : ((unify defaultLimit {} (.named "A" []) (.named "B" [])).run
        withStreams).1.isOk = true := by decide +kernel
    generalize (unify defaultLimit {} (.named "A" []) (.named "B" [])).run withStreams = out at hok
    obtain ⟨_ | s, τ⟩ := out
    · cases hok
    · exact ⟨s, τ, rfl⟩
  obtain ⟨s, τ, h⟩ := hrun
  exact ⟨hclosed, hinter, setApart_streams _, ⟨s, τ, h⟩, exists_consistent_of_unify hclosed hinter
    (hground _) (hfree _) (hground _) (hfree _) (setApart_streams _) h⟩

/-- A recursive type whose binder is the row of its record. -/
def knot : Ty := .mu ⟨1, 0⟩ (.record [("x", .int)] (some ⟨1, 0⟩))

/-- A session where a name stands for an intersection. -/
def withMeet : Session :=
  { registry := { definitions := [("A", ⟨"A", [], .inter [.record [("x", .int)] none,
      .record [("x", .union [.int, .string])] none], {}⟩)] } }

/-- Unfolding the knot leaves an open record, which goes with any record of its field. -/
theorem setApart_knot :
    Registry.SetApart {} defaultLimit knot (.record [("x", .int), ("y", .int)] none) := by
  let fields : Ty := .record [("x", .int), ("y", .int)] none
  let loose : Ty := .record [("x", .int)] (some ⟨1, 0⟩)
  have hleads : Registry.leads {} knot fields = [(loose, fields)] ∧
      Registry.leads {} loose fields = [(.int, .int)] ∧ Registry.leads {} .int .int = [] :=
    ⟨by cbv, by cbv, by cbv⟩
  refine Registry.setApart_of_direct [(loose, fields), (.int, .int)] ?_ ?_
  · simp only [List.forall_mem_cons, show Ty.record [("x", .int), ("y", .int)] none = fields from rfl,
      hleads]
    simp
  · simp only [List.forall_mem_cons]
    exact ⟨rfl, rfl, by simp⟩

/-- Expanding the name leaves its members, whose fields have no references in them. -/
theorem setApart_meet :
    withMeet.registry.SetApart defaultLimit (.named "A" []) (.record [("x", .int)] none) := by
  let number : Ty := .record [("x", .int)] none
  let either : Ty := .record [("x", .union [.int, .string])] none
  have hleads : withMeet.registry.leads (.named "A" []) number = [(.inter [number, either], number)] ∧
      withMeet.registry.leads (.inter [number, either]) number =
        [(number, number), (number, either)] ∧
      withMeet.registry.leads number number = [] ∧
      withMeet.registry.leads number either = [(.int, .union [.int, .string])] ∧
      withMeet.registry.leads .int (.union [.int, .string]) = [(.int, .int), (.int, .string)] ∧
      withMeet.registry.leads .int .int = [] ∧ withMeet.registry.leads .int .string = [] :=
    ⟨by cbv, by cbv, by cbv, by cbv, by cbv, by cbv, by cbv⟩
  refine Registry.setApart_of_direct [(.inter [number, either], number),
    (number, number), (number, either), (.int, .union [.int, .string]), (.int, .int),
    (.int, .string)] ?_ ?_
  · simp only [List.forall_mem_cons, show Ty.record [("x", .int)] none = number from rfl, hleads]
    simp
  · simp only [List.forall_mem_cons]
    exact ⟨rfl, rfl, rfl, rfl, rfl, rfl, by simp⟩

/-- A binder in the place of a row gets free, and is bound to a field that the recursive type does
not have; and an intersection goes with a type that goes with both of its members. -/
theorem unify_beyond_consistency :
    ((∀ id, ¬ knot.Mentions id) ∧ knot.InterFree ∧
      Registry.SetApart {} defaultLimit knot (.record [("x", .int), ("y", .int)] none) ∧
      ((unify defaultLimit {} knot (.record [("x", .int), ("y", .int)] none)).run {}).1.isOk =
        true ∧
      ¬ ∃ S : Ty → Ty → Prop, S knot (.record [("x", .int), ("y", .int)] none) ∧
        Registry.Consistent {} S) ∧
    withMeet.registry.Closed ∧
      withMeet.registry.SetApart defaultLimit (.named "A" []) (.record [("x", .int)] none) ∧
      ((unify defaultLimit {} (.named "A" []) (.record [("x", .int)] none)).run
        withMeet).1.isOk = true ∧
      ¬ ∃ S : Ty → Ty → Prop, S (.named "A" []) (.record [("x", .int)] none) ∧
        withMeet.registry.Consistent S := by
  refine ⟨⟨fun id => ?_, ?_, setApart_knot, by decide +kernel, ?_⟩, ?_, setApart_meet,
    by decide +kernel, ?_⟩
  · simp [knot, Ty.mentions_mu, Ty.mentions_record, Ty.int]
  · exact .mu (.record _ (by simp [Ty.int, Ty.InterFree.prim]))
  · rintro ⟨S, hS, hcons⟩
    have hopen : S (Ty.unfold ⟨1, 0⟩ (.record [("x", .int)] (some ⟨1, 0⟩)))
        (.record [("x", .int), ("y", .int)] none) := by
      rcases hcons.agrees hS with h | h
      · cases h with
        | equiv h => exact absurd h (by decide +kernel)
        | unfold h => exact h
      · cases h with
        | equiv h => exact absurd h (by decide +kernel)
    rw [show Ty.unfold ⟨1, 0⟩ (.record [("x", .int)] (some ⟨1, 0⟩)) =
      .record [("x", .int)] (some ⟨1, 0⟩) by cbv] at hopen
    rcases hcons.agrees hopen with h | h
    all_goals cases h with
      | equiv h => exact absurd h (by decide +kernel)
  · refine List.forall_mem_singleton.2 (.inter ?_)
    simp [Ty.rooted_record, Ty.rooted_union, Ty.int, Ty.string, Ty.Rooted.prim]
  · rintro ⟨S, hS, hcons⟩
    rcases hcons.agrees hS with h | h
    · cases h with
      | equiv h => exact absurd h (by decide +kernel)
      | expand ht h =>
          have hexpand : withMeet.registry.expand? "A" [] = some (.inter [.record [("x", .int)] none,
            .record [("x", .union [.int, .string])] none]) := by cbv
          rw [hexpand] at ht
          cases ht
          rcases hcons.agrees h with h | h
          all_goals cases h with
            | equiv h => exact absurd h (by decide +kernel)
    · cases h with
      | equiv h => exact absurd h (by decide +kernel)

end Session

end RowTypes
