import Mathlib.Data.List.Forall2
import RowTypes.Constraint.Set
import RowTypes.Proofs.DigestMessages
import RowTypes.Proofs.StructuralTypes
import RowTypes.Registry.Normalize

/-!
# What a digest tells apart

As long as no two of the messages that come up have one digest, types with equal digests have one
tag and parts with equal digests, and an induction over the type makes the parts equivalent.
A record without a row has an even number of parts, one with a row an odd number.

The other way round needs normal forms.  The digests of the members of a union are sorted, which
forgets their order but not how often each comes up, while equivalence asks only that each member
has one that is like it on the other side.  Where no two members of a union are equivalent, the
forms of the members of equivalent unions are the same up to their order, and with them the
digests.

Both ways together say what a set of constraints takes for a duplicate: a constraint of one kind and
of equivalent types, and if it is about patterns, of the same patterns up to their places.
-/

namespace RowTypes

/-- The tags of types. -/
def Ty.tags : List String :=
  ["Var", "Primitive", "Literal", "Func", "Record", "Tuple", "Union", "Intersection", "Alias",
    "Recursive"]

theorem Ty.prefixFree_tags : Digest.PrefixFree Ty.tags := by decide +kernel

def TyVar.message (v : TyVar) : List UInt8 := Digest.message "Var" [.ofInt v.id]

theorem TyVar.digest_inj {ms : List (List UInt8)} {v w : TyVar} (h : Digest.Faithful ms)
    (hv : Digest.IsWord v.id) (hw : Digest.IsWord w.id) (hvm : v.message ∈ ms)
    (hwm : w.message ∈ ms) (heq : v.digest = w.digest) : v.id = w.id := by
  obtain ⟨-, hparts⟩ := Digest.message_inj Ty.prefixFree_tags (by simp [Ty.tags])
    (by simp [Ty.tags]) (h _ hvm _ hwm heq)
  exact Digest.ofInt_inj hv hw (List.cons.inj hparts).1

theorem TyVar.map_digest_eq {r r' : Option TyVar} (h : r.map TyVar.id = r'.map TyVar.id) :
    r.map TyVar.digest = r'.map TyVar.digest := by
  cases r with
  | none => cases r' <;> simp_all
  | some v =>
      cases r' with
      | none => cases h
      | some w =>
          rw [Option.map_some, Option.map_some, TyVar.digest, TyVar.digest, Option.some.inj h]

namespace Ty

open Digest (IsWord Faithful)

variable {ms : List (List UInt8)} {a b : Ty} {as bs ts us : List Ty} {fs gs : List (String × Ty)}

/-- Types without recursion, in normal form: records list their fields in order, and no two
members of a union or of an intersection are equivalent.  Unknowns have machine words for
numbers. -/
inductive Reduced : Ty → Prop where
  | var {v : TyVar} : IsWord v.id → Reduced (.var v)
  | prim (name : String) : Reduced (.prim name)
  | lit (value : String) : Reduced (.lit value)
  | fn {p r : Ty} : Reduced p → Reduced r → Reduced (.fn p r)
  | record {fs : List (String × Ty)} {row : Option TyVar} : Table.Ascending fs →
      (∀ f ∈ fs, Reduced f.2) → (∀ v, row = some v → IsWord v.id) → Reduced (.record fs row)
  | tuple {ts : List Ty} : (∀ t ∈ ts, Reduced t) → Reduced (.tuple ts)
  | union {ts : List Ty} : (∀ t ∈ ts, Reduced t) → ts.Pairwise (fun a b => equiv a b = false) →
      Reduced (.union ts)
  | inter {ts : List Ty} : (∀ t ∈ ts, Reduced t) → ts.Pairwise (fun a b => equiv a b = false) →
      Reduced (.inter ts)
  | named (name : String) {ts : List Ty} : (∀ t ∈ ts, Reduced t) → Reduced (.named name ts)

/-- Types without recursion, whatever the numbers of their unknowns: records list their fields in
order, and no two members of a union or of an intersection are equivalent. -/
inductive Irredundant : Ty → Prop where
  | var (v : TyVar) : Irredundant (.var v)
  | prim (name : String) : Irredundant (.prim name)
  | lit (value : String) : Irredundant (.lit value)
  | fn {p r : Ty} : Irredundant p → Irredundant r → Irredundant (.fn p r)
  | record {fs : List (String × Ty)} (row : Option TyVar) : Table.Ascending fs →
      (∀ f ∈ fs, Irredundant f.2) → Irredundant (.record fs row)
  | tuple {ts : List Ty} : (∀ t ∈ ts, Irredundant t) → Irredundant (.tuple ts)
  | union {ts : List Ty} : (∀ t ∈ ts, Irredundant t) →
      ts.Pairwise (fun a b => equiv a b = false) → Irredundant (.union ts)
  | inter {ts : List Ty} : (∀ t ∈ ts, Irredundant t) →
      ts.Pairwise (fun a b => equiv a b = false) → Irredundant (.inter ts)
  | named (name : String) {ts : List Ty} : (∀ t ∈ ts, Irredundant t) → Irredundant (.named name ts)

theorem Irredundant.tame (h : a.Irredundant) : a.Tame := by
  induction h with
  | var v => exact .var v
  | prim name => exact .prim name
  | lit value => exact .lit value
  | fn _ _ ihp ihr => exact .fn ihp ihr
  | record row hasc _ ih => exact .record row hasc ih
  | tuple _ ih => exact .tuple ih
  | union _ _ ih => exact .union ih
  | inter _ _ ih => exact .inter ih
  | named name _ ih => exact .named name ih

theorem Reduced.irredundant (h : a.Reduced) : a.Irredundant := by
  induction h with
  | @var v _ => exact .var v
  | prim name => exact .prim name
  | lit value => exact .lit value
  | fn _ _ ihp ihr => exact .fn ihp ihr
  | record hasc _ _ ih => exact .record _ hasc ih
  | tuple _ ih => exact .tuple ih
  | union _ hdistinct ih => exact .union ih hdistinct
  | inter _ hdistinct ih => exact .inter ih hdistinct
  | named name _ ih => exact .named name ih

theorem Reduced.tame (h : a.Reduced) : a.Tame := h.irredundant.tame

/-! ## Messages -/

/-- The tag of a type's digest. -/
def tag : Ty → String
  | .var _ => "Var"
  | .prim _ => "Primitive"
  | .lit _ => "Literal"
  | .fn .. => "Func"
  | .record .. => "Record"
  | .tuple _ => "Tuple"
  | .union _ => "Union"
  | .inter _ => "Intersection"
  | .named .. => "Alias"
  | .mu .. => "Recursive"

/-- The digests that a type's digest is taken over. -/
def digestParts : Ty → List Digest
  | .var v => [.ofInt v.id]
  | .prim name => [.ofText name]
  | .lit value => [.ofText value]
  | .fn p r => [p.digest, r.digest]
  | .record fs row => digestFields fs ++ (row.map TyVar.digest).toList
  | .tuple ts => digestAll ts
  | .union ts | .inter ts => Digest.sorted (digestAll ts)
  | .named name ts => .ofText name :: digestAll ts
  | .mu v t => [v.digest, t.digest]

/-- What the digest of a type is taken over. -/
def message (t : Ty) : List UInt8 := Digest.message t.tag t.digestParts

theorem digest_eq (t : Ty) : t.digest = Digest.ofBytes t.message := by
  cases t <;> rfl

theorem tag_mem (t : Ty) : t.tag ∈ tags := by
  cases t <;> simp [tag, tags]

mutual

/-- Everything that is digested on the way to the digest of a type. -/
def messages : Ty → List (List UInt8)
  | .var v => [(Ty.var v).message]
  | .prim name => [(Ty.prim name).message, Digest.textBytes name]
  | .lit value => [(Ty.lit value).message, Digest.textBytes value]
  | .fn p r => (Ty.fn p r).message :: (p.messages ++ r.messages)
  | .record fs row =>
    (Ty.record fs row).message :: (messagesFields fs ++ (row.map TyVar.message).toList)
  | .tuple ts => (Ty.tuple ts).message :: messagesAll ts
  | .union ts => (Ty.union ts).message :: messagesAll ts
  | .inter ts => (Ty.inter ts).message :: messagesAll ts
  | .named name ts => (Ty.named name ts).message :: Digest.textBytes name :: messagesAll ts
  | .mu v t => (Ty.mu v t).message :: v.message :: t.messages

def messagesAll : List Ty → List (List UInt8)
  | [] => []
  | t :: ts => t.messages ++ messagesAll ts

def messagesFields : List (String × Ty) → List (List UInt8)
  | [] => []
  | (name, t) :: fs => Digest.textBytes name :: (t.messages ++ messagesFields fs)

end

theorem message_mem (t : Ty) : t.message ∈ t.messages := by
  cases t <;> rw [messages] <;> exact List.mem_cons_self

theorem messagesAll_subset_iff : messagesAll ts ⊆ ms ↔ ∀ t ∈ ts, t.messages ⊆ ms := by
  induction ts with
  | nil => simp [messagesAll]
  | cons t ts ih => rw [messagesAll, List.append_subset, ih, List.forall_mem_cons]

theorem messagesFields_subset_iff : messagesFields fs ⊆ ms ↔
    ∀ f ∈ fs, Digest.textBytes f.1 ∈ ms ∧ f.2.messages ⊆ ms := by
  induction fs with
  | nil => simp [messagesFields]
  | cons f fs ih =>
      rw [messagesFields, List.cons_subset, List.append_subset, ih, List.forall_mem_cons, and_assoc]

theorem digestAll_eq_map (ts : List Ty) : digestAll ts = ts.map digest := by
  induction ts with
  | nil => rfl
  | cons t ts ih => rw [digestAll, ih, List.map_cons]

theorem digestFields_eq_flatMap (fs : List (String × Ty)) :
    digestFields fs = fs.flatMap fun f => [.ofText f.1, f.2.digest] := by
  induction fs with
  | nil => rfl
  | cons f fs ih =>
      rw [digestFields, ih]
      rfl

theorem length_digestFields (fs : List (String × Ty)) :
    (digestFields fs).length = 2 * fs.length := by
  induction fs with
  | nil => rfl
  | cons f fs ih =>
      rw [digestFields, List.length_cons, List.length_cons, ih, List.length_cons]
      omega

/-! ## Equal digests -/

/-- Types with one digest are made in one way of parts with the same digests. -/
theorem parts_eq_of_digest_eq (h : Faithful ms) (ha : a.messages ⊆ ms) (hb : b.messages ⊆ ms)
    (heq : a.digest = b.digest) : a.tag = b.tag ∧ a.digestParts = b.digestParts := by
  rw [digest_eq, digest_eq] at heq
  exact Digest.message_inj prefixFree_tags a.tag_mem b.tag_mem
    (h _ (ha a.message_mem) _ (hb b.message_mem) heq)

/-- Equal digests among some messages are digests of equivalent types. -/
def Decides (ms : List (List UInt8)) (a : Ty) : Prop :=
  ∀ {b : Ty}, b.Reduced → a.messages ⊆ ms → b.messages ⊆ ms → a.digest = b.digest →
    equiv a b = true

theorem forall₂_of_digestAll_eq : ∀ {as bs : List Ty}, (∀ a ∈ as, Decides ms a) →
    (∀ b ∈ bs, b.Reduced) → messagesAll as ⊆ ms → messagesAll bs ⊆ ms →
    digestAll as = digestAll bs → List.Forall₂ (fun a b => equiv a b = true) as bs
  | [], [], _, _, _, _, _ => .nil
  | [], _ :: _, _, _, _, _, h | _ :: _, [], _, _, _, _, h => by simp [digestAll] at h
  | a :: as, b :: bs, ih, hbs, hsub, hsub', h => by
      obtain ⟨ha, has⟩ := List.forall_mem_cons.1 ih
      obtain ⟨hb, hbs⟩ := List.forall_mem_cons.1 hbs
      obtain ⟨hsa, hsas⟩ := List.append_subset.1 hsub
      obtain ⟨hsb, hsbs⟩ := List.append_subset.1 hsub'
      obtain ⟨hhead, htail⟩ := List.cons.inj h
      exact .cons (ha hb hsa hsb hhead) (forall₂_of_digestAll_eq has hbs hsas hsbs htail)

/-- Sorted digests are equal only if they are the digests of equivalent members. -/
theorem sameMembers_of_sorted_eq (ih : ∀ a ∈ as, Decides ms a) (hbs : ∀ b ∈ bs, b.Reduced)
    (hsub : messagesAll as ⊆ ms) (hsub' : messagesAll bs ⊆ ms)
    (h : Digest.sorted (digestAll as) = Digest.sorted (digestAll bs)) : SameMembers as bs := by
  rw [Digest.sorted_eq_iff, digestAll_eq_map, digestAll_eq_map] at h
  have hlike : ∀ a ∈ as, ∀ b ∈ bs, a.digest = b.digest → equiv a b = true := fun a ha b hb =>
    ih a ha (hbs b hb) (messagesAll_subset_iff.1 hsub a ha) (messagesAll_subset_iff.1 hsub' b hb)
  refine ⟨by simpa using h.length_eq, fun a ha => ?_, fun b hb => ?_⟩
  · obtain ⟨b, hb, heq⟩ := List.mem_map.1 (h.subset (List.mem_map_of_mem ha))
    exact ⟨b, hb, hlike a ha b hb heq.symm⟩
  · obtain ⟨a, ha, heq⟩ := List.mem_map.1 (h.symm.subset (List.mem_map_of_mem hb))
    exact ⟨a, ha, hlike a ha b hb heq⟩

theorem fields_of_digestFields_eq (hms : Faithful ms) : ∀ {fs gs : List (String × Ty)},
    (∀ f ∈ fs, Decides ms f.2) → (∀ g ∈ gs, g.2.Reduced) → messagesFields fs ⊆ ms →
    messagesFields gs ⊆ ms → digestFields fs = digestFields gs →
    Table.Paired (fun a b => equiv a b = true) fs gs
  | [], [], _, _, _, _, _ => .nil
  | [], _ :: _, _, _, _, _, h | _ :: _, [], _, _, _, _, h => by simp [digestFields] at h
  | f :: fs, g :: gs, ih, hgs, hsub, hsub', h => by
      obtain ⟨hf, hfs⟩ := List.forall_mem_cons.1 ih
      obtain ⟨hg, hgs⟩ := List.forall_mem_cons.1 hgs
      obtain ⟨⟨hname, hsf⟩, hsfs⟩ :=
        List.forall_mem_cons.1 (messagesFields_subset_iff.1 hsub)
      obtain ⟨⟨hname', hsg⟩, hsgs⟩ :=
        List.forall_mem_cons.1 (messagesFields_subset_iff.1 hsub')
      obtain ⟨htext, hrest⟩ := List.cons.inj h
      obtain ⟨htype, htail⟩ := List.cons.inj hrest
      refine .cons ⟨hms.text hname hname' htext, hf hg hsf hsg htype⟩ ?_
      exact fields_of_digestFields_eq hms hfs hgs (messagesFields_subset_iff.2 hsfs)
        (messagesFields_subset_iff.2 hsgs) htail

/-- Rows count by their numbers, and a row is told from no row by how many parts there are. -/
theorem record_of_parts_eq (hms : Faithful ms) {r r' : Option TyVar}
    (hr : ∀ v, r = some v → IsWord v.id) (hr' : ∀ v, r' = some v → IsWord v.id)
    (hsub : (r.map TyVar.message).toList ⊆ ms) (hsub' : (r'.map TyVar.message).toList ⊆ ms)
    (h : digestFields fs ++ (r.map TyVar.digest).toList =
      digestFields gs ++ (r'.map TyVar.digest).toList) :
    digestFields fs = digestFields gs ∧ r.map TyVar.id = r'.map TyVar.id := by
  have hlen := congrArg List.length h
  rw [List.length_append, List.length_append, length_digestFields, length_digestFields] at hlen
  cases r with
  | none =>
      cases r' with
      | none => exact ⟨by simpa using h, rfl⟩
      | some w => simp at hlen; omega
  | some v =>
      cases r' with
      | none => simp at hlen; omega
      | some w =>
          simp at hlen
          obtain ⟨hfields, hrow⟩ := List.append_inj h
            (by rw [length_digestFields, length_digestFields, hlen])
          refine ⟨hfields, congrArg some ?_⟩
          exact TyVar.digest_inj hms (hr v rfl) (hr' w rfl) (by simpa using hsub)
            (by simpa using hsub') (List.cons.inj hrow).1

/-- It is enough to compare types of one tag whose parts have equal digests. -/
theorem decides_of_parts (hms : Faithful ms) (h : ∀ {b : Ty}, b.Reduced → a.messages ⊆ ms →
    b.messages ⊆ ms → a.tag = b.tag → a.digestParts = b.digestParts → equiv a b = true) :
    Decides ms a := by
  intro b hb hsub hsub' heq
  obtain ⟨htag, hparts⟩ := parts_eq_of_digest_eq hms hsub hsub' heq
  exact h hb hsub hsub' htag hparts

/-- As long as no two messages that come up have one digest, equal digests are digests of
equivalent types. -/
theorem Reduced.decides (hms : Faithful ms) (ha : a.Reduced) : Decides ms a := by
  induction ha with
  | var hv =>
      refine decides_of_parts hms fun hb hsub hsub' htag hparts => ?_
      cases hb with
      | var hw => exact equiv_var.2 (Digest.ofInt_inj hv hw (List.cons.inj hparts).1)
      | _ => simp [tag] at htag
  | prim name =>
      refine decides_of_parts hms fun hb hsub hsub' htag hparts => ?_
      cases hb with
      | prim name' =>
          have := hms.text (hsub (by simp [messages])) (hsub' (by simp [messages]))
            (List.cons.inj hparts).1
          simp [equiv, equivUnder, this]
      | _ => simp [tag] at htag
  | lit value =>
      refine decides_of_parts hms fun hb hsub hsub' htag hparts => ?_
      cases hb with
      | lit value' =>
          have := hms.text (hsub (by simp [messages])) (hsub' (by simp [messages]))
            (List.cons.inj hparts).1
          simp [equiv, equivUnder, this]
      | _ => simp [tag] at htag
  | fn _ _ ihp ihr =>
      refine decides_of_parts hms fun hb hsub hsub' htag hparts => ?_
      cases hb with
      | fn hp hr =>
          obtain ⟨hsp, hsr⟩ := List.append_subset.1 (List.cons_subset.1 hsub).2
          obtain ⟨hsp', hsr'⟩ := List.append_subset.1 (List.cons_subset.1 hsub').2
          simp only [digestParts, List.cons.injEq, and_true] at hparts
          exact equiv_fn.2 ⟨ihp hp hsp hsp' hparts.1, ihr hr hsr hsr' hparts.2⟩
      | _ => simp [tag] at htag
  | record hasc _ hrow ih =>
      refine decides_of_parts hms fun hb hsub hsub' htag hparts => ?_
      cases hb with
      | record hasc' hgs hrow' =>
          obtain ⟨hsf, hsr⟩ := List.append_subset.1 (List.cons_subset.1 hsub).2
          obtain ⟨hsf', hsr'⟩ := List.append_subset.1 (List.cons_subset.1 hsub').2
          obtain ⟨hfields, hid⟩ := record_of_parts_eq hms hrow hrow' hsr hsr' hparts
          exact (equiv_record hasc hasc').2
            ⟨hid, (fields_of_digestFields_eq hms ih hgs hsf hsf' hfields).get?⟩
      | _ => simp [tag] at htag
  | tuple _ ih =>
      refine decides_of_parts hms fun hb hsub hsub' htag hparts => ?_
      cases hb with
      | tuple hbs =>
          exact equiv_tuple.2 (forall₂_of_digestAll_eq ih hbs (List.cons_subset.1 hsub).2
            (List.cons_subset.1 hsub').2 hparts)
      | _ => simp [tag] at htag
  | union _ _ ih =>
      refine decides_of_parts hms fun hb hsub hsub' htag hparts => ?_
      cases hb with
      | union hbs _ =>
          exact equiv_union.2 (sameMembers_of_sorted_eq ih hbs (List.cons_subset.1 hsub).2
            (List.cons_subset.1 hsub').2 hparts)
      | _ => simp [tag] at htag
  | inter _ _ ih =>
      refine decides_of_parts hms fun hb hsub hsub' htag hparts => ?_
      cases hb with
      | inter hbs _ =>
          exact equiv_inter.2 (sameMembers_of_sorted_eq ih hbs (List.cons_subset.1 hsub).2
            (List.cons_subset.1 hsub').2 hparts)
      | _ => simp [tag] at htag
  | named name _ ih =>
      refine decides_of_parts hms fun hb hsub hsub' htag hparts => ?_
      cases hb with
      | named name' hbs =>
          obtain ⟨hname, hargs⟩ := List.cons_subset.1 (List.cons_subset.1 hsub).2
          obtain ⟨hname', hargs'⟩ := List.cons_subset.1 (List.cons_subset.1 hsub').2
          obtain ⟨htext, hrest⟩ := List.cons.inj hparts
          exact equiv_named.2 ⟨hms.text hname hname' htext,
            forall₂_of_digestAll_eq ih hbs hargs hargs' hrest⟩
      | _ => simp [tag] at htag

/-! ## Equivalent types -/

/-- Equivalent types have one digest. -/
def Determines (a : Ty) : Prop :=
  ∀ {b : Ty}, b.Irredundant → equiv a b = true → a.digest = b.digest

theorem digestAll_eq_of_forall₂ (ih : ∀ a ∈ as, a.Determines) (hbs : ∀ b ∈ bs, b.Irredundant)
    (h : List.Forall₂ (fun a b => equiv a b = true) as bs) : digestAll as = digestAll bs := by
  induction h with
  | nil => rfl
  | cons hab _ ihl =>
      obtain ⟨ha, has⟩ := List.forall_mem_cons.1 ih
      obtain ⟨hb, hbs⟩ := List.forall_mem_cons.1 hbs
      rw [digestAll, digestAll, ha hb hab, ihl has hbs]

/-- Members without repetitions that match each other are the same up to their order. -/
theorem exists_perm_forall₂ (has : ∀ a ∈ as, a.Tame) (hbs : ∀ b ∈ bs, b.Tame)
    (has' : as.Pairwise fun a b => equiv a b = false)
    (hbs' : bs.Pairwise fun a b => equiv a b = false) (h : SameMembers as bs) :
    ∃ cs, cs.Perm bs ∧ List.Forall₂ (fun a b => equiv a b = true) as cs := by
  have hforms : (as.map form).Perm (bs.map form) := by
    refine (List.perm_ext_iff_of_nodup (nodup_forms has has') (nodup_forms hbs hbs')).2 fun f => ?_
    rw [List.mem_map, List.mem_map]
    constructor
    · rintro ⟨a, ha, rfl⟩
      obtain ⟨b, hb, hab⟩ := h.2.1 a ha
      exact ⟨b, hb, (form_congr (has a ha) (hbs b hb) hab).symm⟩
    · rintro ⟨b, hb, rfl⟩
      obtain ⟨a, ha, hab⟩ := h.2.2 b hb
      exact ⟨a, ha, form_congr (has a ha) (hbs b hb) hab⟩
  have hcomp : Relation.Comp List.Perm (List.Forall₂ fun f b => f = form b) (as.map form) bs :=
    ⟨bs.map form, hforms, List.forall₂_map_left_iff.2 (List.forall₂_same.2 fun _ _ => rfl)⟩
  rw [← List.forall₂_comp_perm_eq_perm_comp_forall₂] at hcomp
  obtain ⟨cs, hcs, hperm⟩ := hcomp
  refine ⟨cs, hperm, (forall₂_equiv_iff has fun c hc => hbs c (hperm.subset hc)).2 ?_⟩
  rwa [← List.forall₂_eq_eq_eq, List.forall₂_map_right_iff]

/-- Members without repetitions that match each other have the same digests up to their order. -/
theorem sorted_digestAll_eq (ih : ∀ a ∈ as, a.Determines) (has : ∀ a ∈ as, a.Irredundant)
    (hbs : ∀ b ∈ bs, b.Irredundant) (has' : as.Pairwise fun a b => equiv a b = false)
    (hbs' : bs.Pairwise fun a b => equiv a b = false) (h : SameMembers as bs) :
    Digest.sorted (digestAll as) = Digest.sorted (digestAll bs) := by
  obtain ⟨cs, hperm, hcs⟩ := exists_perm_forall₂ (fun a ha => (has a ha).tame)
    (fun b hb => (hbs b hb).tame) has' hbs' h
  rw [digestAll_eq_of_forall₂ ih (fun c hc => hbs c (hperm.subset hc)) hcs, digestAll_eq_map,
    digestAll_eq_map, Digest.sorted_eq_iff.2 (hperm.map digest)]

/-- The digests of two records' fields are the same if the fields are equivalent name by name. -/
theorem digestFields_eq_of_rel (ih : ∀ f ∈ fs, f.2.Determines) (hgs : ∀ g ∈ gs, g.2.Irredundant)
    (hfs : Table.Ascending fs) (hgs' : Table.Ascending gs)
    (h : ∀ name, Option.Rel (fun a b => equiv a b = true) (Table.get? name fs)
      (Table.get? name gs)) : digestFields fs = digestFields gs := by
  have heq : fs.map (fun f => (f.1, f.2.digest)) = gs.map fun g => (g.1, g.2.digest) := by
    refine (hfs.map digest).ext (hgs'.map digest) fun name => ?_
    rw [Table.get?_map, Table.get?_map]
    exact map_eq_map_of_rel (h name) fun a b ha hb =>
      ih _ (Table.mem_of_get? ha) (hgs _ (Table.mem_of_get? hb))
  have := congrArg (List.flatMap fun e => [Digest.ofText e.1, e.2]) heq
  rwa [List.flatMap_map, List.flatMap_map, ← digestFields_eq_flatMap,
    ← digestFields_eq_flatMap] at this

theorem Irredundant.determines (ha : a.Irredundant) : Determines a := by
  induction ha with
  | var v =>
      intro b _ h
      obtain ⟨w, rfl, hid⟩ := exists_var_of_equiv h
      rw [digest, digest, TyVar.digest, TyVar.digest, hid]
  | prim name =>
      intro b _ h
      rw [eq_prim_of_equiv h]
  | lit value =>
      intro b _ h
      rw [eq_lit_of_equiv h]
  | fn _ _ ihp ihr =>
      intro b hb h
      obtain ⟨p', r', rfl, hpp, hrr⟩ := exists_fn_of_equiv h
      cases hb with
      | fn hp hr => rw [digest, digest, ihp hp hpp, ihr hr hrr]
  | record _ hasc _ ih =>
      intro b hb h
      obtain ⟨gs, row', rfl⟩ := exists_record_of_equiv h
      cases hb with
      | record _ hasc' hgs =>
          obtain ⟨hrow, hfields⟩ := (equiv_record hasc hasc').1 h
          rw [digest, digest, digestFields_eq_of_rel ih hgs hasc hasc' hfields,
            TyVar.map_digest_eq hrow]
  | tuple _ ih =>
      intro b hb h
      obtain ⟨bs, rfl, helems⟩ := exists_tuple_of_equiv h
      cases hb with
      | tuple hbs => rw [digest, digest, digestAll_eq_of_forall₂ ih hbs helems]
  | union has hdistinct ih =>
      intro b hb h
      obtain ⟨bs, rfl, hsame⟩ := exists_union_of_equiv h
      cases hb with
      | union hbs hdistinct' =>
          rw [digest, digest, sorted_digestAll_eq ih has hbs hdistinct hdistinct' hsame]
  | inter has hdistinct ih =>
      intro b hb h
      obtain ⟨bs, rfl, hsame⟩ := exists_inter_of_equiv h
      cases hb with
      | inter hbs hdistinct' =>
          rw [digest, digest, sorted_digestAll_eq ih has hbs hdistinct hdistinct' hsame]
  | named name _ ih =>
      intro b hb h
      obtain ⟨bs, rfl, hargs⟩ := exists_named_of_equiv h
      cases hb with
      | named _ hbs => rw [digest, digest, digestAll_eq_of_forall₂ ih hbs hargs]

theorem Reduced.determines (ha : a.Reduced) (hb : b.Reduced) (h : equiv a b = true) :
    a.digest = b.digest := ha.irredundant.determines hb.irredundant h

end Ty

/-! ## Duplicates in sets of constraints -/

open Digest (IsWord Faithful)

/-- Two demands of one kind say the same: their types are equivalent, place by place, where the
sides of an equality may be swapped.  Patterns are the same, wherever they stand. -/
def Demand.Repeats : Demand → Demand → Prop
  | .equal a b, .equal a' b' =>
    a.equiv a' = true ∧ b.equiv b' = true ∨ a.equiv b' = true ∧ b.equiv a' = true
  | .ofClass t cls, .ofClass t' cls' => t.equiv t' = true ∧ cls = cls'
  | .exhaustive t ps, .exhaustive t' ps' =>
    t.equiv t' = true ∧ ps.map Pattern.unplaced = ps'.map Pattern.unplaced
  | d, e => List.Forall₂ (fun a b => Ty.equiv a b = true) d.types e.types

/-- The names that are digested for a demand, besides those in its types. -/
def Demand.texts : Demand → List String
  | .ofClass _ cls => [cls]
  | _ => []

/-- The patterns that a demand is about. -/
def Demand.patterns : Demand → List Pattern
  | .exhaustive _ ps => ps
  | _ => []

/-- What the digest of a span is taken over. -/
def Span.message (s : Span) : List UInt8 :=
  [Digest.ofInt s.start.line, .ofInt s.start.column, .ofInt s.stop.line,
    .ofInt s.stop.column].flatMap Digest.wordBytes

theorem Span.digest_eq (s : Span) : s.digest = Digest.ofBytes s.message := rfl

/-- Lines and columns fit into machine words. -/
def Span.IsWords (s : Span) : Prop :=
  IsWord s.start.line ∧ IsWord s.start.column ∧ IsWord s.stop.line ∧ IsWord s.stop.column
  deriving Decidable

theorem Span.message_inj {s s' : Span} (hs : s.IsWords) (hs' : s'.IsWords)
    (h : s.message = s'.message) : s = s' := by
  have hwords := Digest.words_inj h
  simp only [List.cons.injEq, and_true] at hwords
  obtain ⟨h1, h2, h3, h4⟩ := hwords
  obtain ⟨⟨l, c⟩, ⟨l', c'⟩⟩ := s
  obtain ⟨⟨m, d⟩, ⟨m', d'⟩⟩ := s'
  obtain rfl := Digest.ofInt_inj hs.1 hs'.1 h1
  obtain rfl := Digest.ofInt_inj hs.2.1 hs'.2.1 h2
  obtain rfl := Digest.ofInt_inj hs.2.2.1 hs'.2.2.1 h3
  obtain rfl := Digest.ofInt_inj hs.2.2.2 hs'.2.2.2 h4
  rfl

theorem DemandKind.ofInt_number_inj {k k' : DemandKind}
    (h : Digest.ofInt k.number = Digest.ofInt k'.number) : k = k' := by
  have hword : ∀ k : DemandKind, IsWord k.number := by
    intro k
    cases k <;> exact ⟨by decide, by decide⟩
  have hnumber : k.number = k'.number := by
    exact_mod_cast Digest.ofInt_inj (hword k) (hword k') h
  have := DemandKind.ofNumber?_number k
  rw [hnumber, DemandKind.ofNumber?_number] at this
  exact (Option.some.inj this).symm

namespace Constraint

variable {ms : List (List UInt8)} {c d : Constraint}

/-- The types of the constraint are in normal form, nothing is missing from its patterns, and its
place can be written down. -/
structure Reduced (c : Constraint) : Prop where
  types : ∀ t ∈ c.types, t.Reduced
  patterns : ∀ p ∈ c.demand.patterns, p.Complete
  span : c.span.IsWords

/-- The constraints demand the same, and at the same place if the place belongs to the demand. -/
def Repeats (d c : Constraint) : Prop :=
  d.kind = c.kind ∧ d.demand.Repeats c.demand ∧ (d.demand.isPlaced = true → d.span = c.span)

/-- The words that the digest of a constraint is taken over. -/
def words (c : Constraint) : List Digest :=
  .ofInt c.kind.number :: c.demand.digestParts ++ if c.demand.isPlaced then [c.span.digest] else []

def message (c : Constraint) : List UInt8 := c.words.flatMap Digest.wordBytes

theorem digest_eq (c : Constraint) : c.digest = Digest.ofBytes c.message := rfl

/-- Everything that is digested on the way to the digest of a constraint. -/
def messages (c : Constraint) : List (List UInt8) :=
  c.message :: c.span.message :: (c.demand.texts.map Digest.textBytes ++
    (Pattern.messagesAll c.demand.patterns ++ Ty.messagesAll c.types))

theorem isPlaced_eq_of_kind {d e : Demand} (h : d.kind = e.kind) : d.isPlaced = e.isPlaced := by
  cases d <;> cases e <;> first | rfl | cases h

theorem digestParts_eq_of_repeats {d e : Demand} (hkind : d.kind = e.kind)
    (hd : ∀ t ∈ d.types, t.Reduced) (he : ∀ t ∈ e.types, t.Reduced) (h : d.Repeats e) :
    d.digestParts = e.digestParts := by
  have heq : ∀ t ∈ d.types, ∀ u ∈ e.types, t.equiv u = true → t.digest = u.digest :=
    fun t ht u hu => (hd t ht).determines (he u hu)
  have hall : List.Forall₂ (fun a b => Ty.equiv a b = true) d.types e.types →
      Ty.digestAll d.types = Ty.digestAll e.types :=
    Ty.digestAll_eq_of_forall₂ (fun t ht => (hd t ht).irredundant.determines)
      fun t ht => (he t ht).irredundant
  cases d with
  | equal a b =>
      cases e with
      | equal a' b' =>
          refine Digest.sorted_eq_iff.2 ?_
          obtain ⟨h₁, h₂⟩ | ⟨h₁, h₂⟩ := h
          · rw [heq a (.head _) a' (.head _) h₁,
              heq b (.tail _ (.head _)) b' (.tail _ (.head _)) h₂]
          · rw [heq a (.head _) b' (.tail _ (.head _)) h₁,
              heq b (.tail _ (.head _)) a' (.head _) h₂]
            exact .swap _ _ _
      | _ => cases hkind
  | ofClass t cls =>
      cases e with
      | ofClass t' cls' =>
          obtain ⟨ht, rfl⟩ := h
          show [t.digest, _] = [t'.digest, _]
          rw [heq t List.mem_cons_self t' List.mem_cons_self ht]
      | _ => cases hkind
  | exhaustive t ps =>
      cases e with
      | exhaustive t' ps' =>
          show t.digest :: _ = t'.digest :: _
          rw [heq t List.mem_cons_self t' List.mem_cons_self h.1,
            Pattern.digestAll_eq_of_unplaced h.2]
      | _ => cases hkind
  | subtype a b => cases e with | subtype a' b' => exact hall h | _ => cases hkind
  | recordShape t => cases e with | recordShape t' => exact hall h | _ => cases hkind
  | merge t ts r => cases e with | merge t' ts' r' => exact hall h | _ => cases hkind
  | holds t ts => cases e with | holds t' ts' => exact hall h | _ => cases hkind
  | branch t ts => cases e with | branch t' ts' => exact hall h | _ => cases hkind

theorem repeats_of_digestParts_eq (hms : Faithful ms) {d e : Demand} (hkind : d.kind = e.kind)
    (hd : ∀ t ∈ d.types, t.Reduced) (he : ∀ t ∈ e.types, t.Reduced)
    (hdp : ∀ p ∈ d.patterns, p.Complete) (hep : ∀ p ∈ e.patterns, p.Complete)
    (hdm : d.texts.map Digest.textBytes ++
      (Pattern.messagesAll d.patterns ++ Ty.messagesAll d.types) ⊆ ms)
    (hem : e.texts.map Digest.textBytes ++
      (Pattern.messagesAll e.patterns ++ Ty.messagesAll e.types) ⊆ ms)
    (h : d.digestParts = e.digestParts) : d.Repeats e := by
  obtain ⟨hdt, hdm⟩ := List.append_subset.1 hdm
  obtain ⟨het, hem⟩ := List.append_subset.1 hem
  obtain ⟨hdpm, hdm⟩ := List.append_subset.1 hdm
  obtain ⟨hepm, hem⟩ := List.append_subset.1 hem
  have heq : ∀ t ∈ d.types, ∀ u ∈ e.types, t.digest = u.digest → t.equiv u = true :=
    fun t ht u hu => (hd t ht).decides hms (he u hu) (Ty.messagesAll_subset_iff.1 hdm t ht)
      (Ty.messagesAll_subset_iff.1 hem u hu)
  have hall : Ty.digestAll d.types = Ty.digestAll e.types →
      List.Forall₂ (fun a b => Ty.equiv a b = true) d.types e.types :=
    Ty.forall₂_of_digestAll_eq (fun t ht => (hd t ht).decides hms) he hdm hem
  cases d with
  | equal a b =>
      cases e with
      | equal a' b' =>
          have hperm : [a.digest, b.digest].Perm [a'.digest, b'.digest] :=
            Digest.sorted_eq_iff.1 h
          obtain ha | ha := List.mem_pair.1 (hperm.subset List.mem_cons_self)
          · rw [ha, List.perm_cons, List.singleton_perm_singleton] at hperm
            exact .inl ⟨heq a (.head _) a' (.head _) ha,
              heq b (.tail _ (.head _)) b' (.tail _ (.head _)) hperm⟩
          · have hswap := hperm.trans (.swap _ _ _)
            rw [ha, List.perm_cons, List.singleton_perm_singleton] at hswap
            exact .inr ⟨heq a (.head _) b' (.tail _ (.head _)) ha,
              heq b (.tail _ (.head _)) a' (.head _) hswap⟩
      | _ => cases hkind
  | ofClass t cls =>
      cases e with
      | ofClass t' cls' =>
          obtain ⟨ht, hrest⟩ := List.cons.inj h
          exact ⟨heq t List.mem_cons_self t' List.mem_cons_self ht,
            hms.text (hdt List.mem_cons_self) (het List.mem_cons_self) (List.cons.inj hrest).1⟩
      | _ => cases hkind
  | exhaustive t ps =>
      cases e with
      | exhaustive t' ps' =>
          obtain ⟨ht, hps⟩ := List.cons.inj h
          rw [← Pattern.digestAll_eq_map, ← Pattern.digestAll_eq_map] at hps
          refine ⟨heq t List.mem_cons_self t' List.mem_cons_self ht, ?_⟩
          rw [← Pattern.unplacedAll_eq_map, ← Pattern.unplacedAll_eq_map]
          exact Pattern.unplacedAll_eq_of_digestAll_eq (fun p hp => (hdp p hp).decides hms) hep
            hdpm hepm hps
      | _ => cases hkind
  | subtype a b => cases e with | subtype a' b' => exact hall h | _ => cases hkind
  | recordShape t => cases e with | recordShape t' => exact hall h | _ => cases hkind
  | merge t ts r => cases e with | merge t' ts' r' => exact hall h | _ => cases hkind
  | holds t ts => cases e with | holds t' ts' => exact hall h | _ => cases hkind
  | branch t ts => cases e with | branch t' ts' => exact hall h | _ => cases hkind

theorem digest_eq_of_repeats (hd : d.Reduced) (hc : c.Reduced) (h : d.Repeats c) :
    d.digest = c.digest := by
  obtain ⟨hkind, hdemand, hplace⟩ := h
  have hparts := digestParts_eq_of_repeats hkind hd.types hc.types hdemand
  have hwords : d.words = c.words := by
    unfold words
    rw [hkind, hparts, ← isPlaced_eq_of_kind hkind]
    split
    · next h => rw [hplace h]
    · rfl
  exact congrArg Digest.ofWords hwords

theorem repeats_of_digest_eq (hms : Faithful ms) (hd : d.Reduced) (hc : c.Reduced)
    (hdm : d.messages ⊆ ms) (hcm : c.messages ⊆ ms) (h : d.digest = c.digest) : d.Repeats c := by
  rw [digest_eq, digest_eq] at h
  obtain ⟨hdmsg, hdm⟩ := List.cons_subset.1 hdm
  obtain ⟨hcmsg, hcm⟩ := List.cons_subset.1 hcm
  obtain ⟨hds, hdm⟩ := List.cons_subset.1 hdm
  obtain ⟨hcs, hcm⟩ := List.cons_subset.1 hcm
  have hwords : d.words = c.words := Digest.words_inj (hms _ hdmsg _ hcmsg h)
  obtain ⟨hnumber, hrest⟩ := List.cons.inj hwords
  have hkind : d.kind = c.kind := DemandKind.ofInt_number_inj hnumber
  rw [← isPlaced_eq_of_kind hkind] at hrest
  obtain ⟨hparts, hplace⟩ := List.append_inj' hrest (by split <;> simp only [List.length_singleton])
  refine ⟨hkind, repeats_of_digestParts_eq hms hkind hd.types hc.types hd.patterns hc.patterns
    hdm hcm hparts, fun hp => ?_⟩
  rw [if_pos hp, if_pos hp, Span.digest_eq, Span.digest_eq] at hplace
  exact Span.message_inj hd.span hc.span (hms _ hds _ hcs (List.cons.inj hplace).1)

end Constraint

theorem ConstraintSet.contains_iff {s : ConstraintSet} {c : Constraint} :
    s.contains c = true ↔ ∃ d ∈ s.items, d.digest = c.digest := by
  rw [ConstraintSet.contains, List.contains_iff_mem, s.seen_eq, List.mem_map]

/-- Equivalent types have one digest, and only they do as long as no two of the messages that come
up have one.  So a set of constraints takes a constraint for a duplicate just in case it repeats
one of the set, and what is remembered for a reference is found for the references that are
equivalent to it, and for no other. -/
theorem digests_decide :
    (∀ {a b : Ty}, a.Reduced → b.Reduced →
      (a.equiv b = true → a.digest = b.digest) ∧
      (Faithful (a.messages ++ b.messages) → a.digest = b.digest → a.equiv b = true)) ∧
    (∀ {s : ConstraintSet} {c : Constraint}, c.Reduced → (∀ d ∈ s.items, d.Reduced) →
      ((∃ d ∈ s.items, d.Repeats c) → s.contains c = true) ∧
      (Faithful (c.messages ++ s.items.flatMap Constraint.messages) → s.contains c = true →
        ∃ d ∈ s.items, d.Repeats c)) ∧
    (∀ {m n : String} {as bs : List Ty} (u : Ty) (σ : Session), (Ty.named m as).Reduced →
      (Ty.named n bs).Reduced →
      let memo := ((Registry.remember (Ty.named m as).digest u).run σ).2.registry.memo
      ((Ty.named m as).equiv (.named n bs) = true →
        Table.get? (Ty.named n bs).digest memo = some u) ∧
      (Faithful ((Ty.named m as).messages ++ (Ty.named n bs).messages) →
        (Ty.named m as).equiv (.named n bs) = false →
        Table.get? (Ty.named n bs).digest memo =
          Table.get? (Ty.named n bs).digest σ.registry.memo)) := by
  have hdecides {a b : Ty} (ha : a.Reduced) (hb : b.Reduced)
      (hms : Faithful (a.messages ++ b.messages)) (h : a.digest = b.digest) : a.equiv b = true :=
    ha.decides hms hb (List.subset_append_left _ _) (List.subset_append_right _ _) h
  refine ⟨fun ha hb => ⟨ha.determines hb, hdecides ha hb⟩, fun {s c} hc hs => ⟨?_, ?_⟩, ?_⟩
  · rintro ⟨d, hd, hrep⟩
    exact ConstraintSet.contains_iff.2 ⟨d, hd, Constraint.digest_eq_of_repeats (hs d hd) hc hrep⟩
  · intro hms h
    obtain ⟨d, hd, heq⟩ := ConstraintSet.contains_iff.1 h
    refine ⟨d, hd, Constraint.repeats_of_digest_eq hms (hs d hd) hc ?_ ?_ heq⟩
    · exact fun m hm => List.mem_append_right _ (List.mem_flatMap.2 ⟨d, hd, hm⟩)
    · exact List.subset_append_left _ _
  · intro m n as bs u σ hm hn memo
    have hmemo : memo = Table.insert (Ty.named m as).digest u σ.registry.memo := rfl
    rw [hmemo]
    refine ⟨fun h => ?_, fun hms h => Table.get?_insert_of_ne (fun heq => ?_) _ _⟩
    · rw [hm.determines hn h, Table.get?_insert_self]
    · exact absurd (hdecides hm hn hms heq.symm) (Bool.eq_false_iff.1 h)

/-- The alternatives of a union may be written in any order and the sides of an equality swapped,
while an open record is told from a closed one, and a match on one string from that on another. -/
theorem digests_decide_choice :
    let choice := Ty.union [.int, .string]
    let choice' := Ty.union [.string, .int]
    let v : TyVar := ⟨1, 0⟩
    let covered (value : String) : Constraint :=
      ⟨.exhaustive .string [.tuple {} [.literal {} .string value]], .inference, {}⟩
    choice.digest = choice'.digest ∧
      (ConstraintSet.ofList [.equal (.var v) choice .inference {}]).contains
        (.equal choice' (.var v) .unification {}) = true ∧
      (Ty.record [("x", .int)] none).digest ≠ (Ty.record [("x", .int)] (some v)).digest ∧
      (ConstraintSet.ofList [covered "on"]).contains (covered "off") = false := by
  intro choice choice' v covered
  have hv : (Ty.var v).Reduced := .var (by decide)
  have hall : ∀ t ∈ [Ty.int, .string], t.Reduced := by simp [Ty.int, Ty.string, Ty.Reduced.prim]
  have hchoice : choice.Reduced := .union hall (by decide +kernel)
  have hchoice' : choice'.Reduced :=
    .union (fun t ht => hall t (List.mem_pair.2 (List.mem_pair.1 ht).symm)) (by decide +kernel)
  have hspan : ({} : Span).IsWords := by decide
  have hequal : ∀ {a b : Ty} (origin : Origin), a.Reduced → b.Reduced →
      (Constraint.equal a b origin {}).Reduced := fun origin ha hb =>
    ⟨List.forall_mem_cons.2 ⟨ha, List.forall_mem_singleton.2 hb⟩, List.forall_mem_nil _, hspan⟩
  have hx : ∀ row : Option TyVar, (∀ w, row = some w → Digest.IsWord w.id) →
      (Ty.record [("x", .int)] row).Reduced := fun row hrow =>
    .record (List.pairwise_singleton _ _) (List.forall_mem_singleton.2 (.prim _)) hrow
  have hcovered : ∀ value, (covered value).Reduced := fun value =>
    ⟨List.forall_mem_singleton.2 (.prim _), List.forall_mem_singleton.2 (.tuple _
      (List.forall_mem_singleton.2 (@Pattern.Complete.literal {} 1 value (by decide)))), hspan⟩
  refine ⟨(digests_decide.1 hchoice hchoice').1 (by decide +kernel), ?_, fun h => ?_, ?_⟩
  · refine (digests_decide.2.1 (hequal .unification hchoice' hv)
      (List.forall_mem_singleton.2 (hequal .inference hv hchoice))).1 ?_
    exact ⟨_, List.mem_singleton.2 rfl, rfl, .inr ⟨by decide +kernel, by decide +kernel⟩, nofun⟩
  · have := (digests_decide.1 (hx none nofun) (hx (some v) (by rintro w ⟨⟩; decide))).2
      (by decide +kernel) h
    revert this
    decide +kernel
  · refine Bool.eq_false_iff.2 fun h => ?_
    obtain ⟨d, hd, -, hrepeats, -⟩ := (digests_decide.2.1 (s := .ofList [covered "on"])
      (hcovered "off") (List.forall_mem_singleton.2 (hcovered "on"))).2 (by decide +kernel) h
    rw [List.mem_singleton.1 hd] at hrepeats
    have hpatterns := hrepeats.2
    simp [Pattern.unplaced, Pattern.unplacedAll] at hpatterns

end RowTypes
