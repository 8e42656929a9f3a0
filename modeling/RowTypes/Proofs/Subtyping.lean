import Mathlib.Data.List.Zip
import Mathlib.Logic.Relation
import RowTypes.Proofs.Inhabitants
import RowTypes.Proofs.RecordUnification
import RowTypes.Solver.Solve

/-!
# Subtyping and values

When a type is accepted as a subtype of another, are its values among the other's?  For the types
of data, those without unknowns, functions and names, the question has an answer, because nothing is
ever bound: every step of a successful run shows something about the two types it was given.

Subtyping itself is directed.  What it hands over to unification is not: unification relates the
type of strings with a literal from either side, and a union with a type that goes with one of its
alternatives.  The first is reached wherever strings meet a literal.  The second is reached only in
the fields of records, which are unified.  So the values are kept if, along the comparison, the
strings never meet a literal of the wider type, and in a field a union of the smaller type meets
unions only.  Pairs that are equivalent are compared no further.

Unification asks whether the type goes with the members of an intersection, and never the other way
round, so below an intersection of the smaller type the two sides are swapped.  Every lemma about it
is therefore for both orders.
-/

namespace RowTypes

/-- The types of data: without unknowns, functions, names and recursion. -/
inductive Ty.Data : Ty → Prop where
  | prim (name : String) : Data (.prim name)
  | lit (value : String) : Data (.lit value)
  | tuple {ts : List Ty} : (∀ t ∈ ts, Data t) → Data (.tuple ts)
  | record {fs : List (String × Ty)} : Table.Ascending fs → (∀ f ∈ fs, Data f.2) →
      Data (.record fs none)
  | union {ts : List Ty} : (∀ t ∈ ts, Data t) → Data (.union ts)
  | inter {ts : List Ty} : ts ≠ [] → (∀ t ∈ ts, Data t) → Data (.inter ts)

/-- Whether a type is neither a union nor an intersection. -/
def Ty.isPlain : Ty → Bool
  | .union _ | .inter _ => false
  | _ => true

theorem Ty.Data.tame {t : Ty} (h : t.Data) : t.Tame := by
  induction h with
  | prim name => exact .prim name
  | lit value => exact .lit value
  | tuple _ ih => exact .tuple ih
  | record hasc _ ih => exact .record none hasc ih
  | union _ ih => exact .union ih
  | inter _ _ ih => exact .inter ih

/-- Every value of one type is a value of another, where records may have more fields than their
types name. -/
def Ty.Below (a b : Ty) : Prop := ∀ v, a.Admits false v → b.Admits false v

namespace Ty

variable {a b t : Ty} {ts : List Ty}

theorem below_of_equiv (ha : a.Data) (hb : b.Data) (h : equiv a b = true) : Below a b :=
  fun _ hv => hv.of_equiv ha.tame hb.tame h

theorem below_union_left (h : ∀ t ∈ ts, Below t b) : Below (.union ts) b := by
  intro v hv
  obtain ⟨t, ht, hv⟩ := admits_union.1 hv
  exact h t ht v hv

theorem below_union_right (ht : t ∈ ts) (h : Below a t) : Below a (.union ts) :=
  fun v hv => .union ht (h v hv)

theorem below_inter_left (ht : t ∈ ts) (h : Below t b) : Below (.inter ts) b :=
  fun v hv => h v (admits_inter.1 hv t ht)

theorem below_inter_right (h : ∀ t ∈ ts, Below a t) : Below a (.inter ts) :=
  fun v hv => .inter fun t ht => h t ht v hv

theorem below_tuple {as bs : List Ty} (hlen : as.length = bs.length)
    (h : ∀ e ∈ as.zip bs, Below e.1 e.2) : Below (.tuple as) (.tuple bs) := by
  intro v hv
  obtain ⟨vs, rfl, hvs⟩ := admits_tuple.1 hv
  refine admits_tuple.2 ⟨vs, rfl, ?_⟩
  have hab : List.Forall₂ Below as bs := List.forall₂_iff_zip.2 ⟨hlen, fun hab => h _ hab⟩
  clear hv h hlen
  induction hab generalizing vs with
  | nil => exact hvs
  | cons hab _ ih =>
      cases hvs with
      | cons hv hvs => exact .cons (hab _ hv) (ih _ hvs)

theorem below_record {fs gs : List (String × Ty)}
    (h : ∀ g ∈ gs, ∃ a, Table.get? g.1 fs = some a ∧ Below a g.2) :
    Below (.record fs none) (.record gs none) := by
  intro v hv
  obtain ⟨vs, rfl, hvs, -⟩ := admits_record.1 hv
  refine admits_record.2 ⟨vs, rfl, fun g hg => ?_, fun hstrict => nomatch hstrict⟩
  obtain ⟨a, ha, hag⟩ := h g hg
  obtain ⟨w, hw, haw⟩ := hvs _ (Table.mem_of_get? ha)
  exact ⟨w, hw, hag w haw⟩

end Ty

/-! ## What is compared -/

/-- Two types that are compared: the smaller and the wider, and whether they are unified. -/
structure Comparison where
  unified : Bool
  sub : Ty
  super : Ty

namespace Comparison

/-- A comparison that another one leads to. The alternatives of two unions are unified with one
another, and fields are unified. -/
inductive Next : Comparison → Comparison → Prop where
  | alternative {ts : List Ty} {t b : Ty} : t ∈ ts → Next ⟨false, .union ts, b⟩ ⟨false, t, b⟩
  | alternatives {as bs : List Ty} {a b : Ty} : a ∈ as → b ∈ bs →
      Next ⟨true, .union as, .union bs⟩ ⟨true, a, b⟩
  | intoAlternative {k : Bool} {ts : List Ty} {a t : Ty} : (∀ us, a ≠ .union us) → t ∈ ts →
      Next ⟨k, a, .union ts⟩ ⟨k, a, t⟩
  | member {k : Bool} {ts : List Ty} {t b : Ty} : t ∈ ts → Next ⟨k, .inter ts, b⟩ ⟨k, t, b⟩
  | intoMember {k : Bool} {ts : List Ty} {a t : Ty} : t ∈ ts → Next ⟨k, a, .inter ts⟩ ⟨k, a, t⟩
  | elem {k : Bool} {as bs : List Ty} {a b : Ty} : (a, b) ∈ as.zip bs →
      Next ⟨k, .tuple as, .tuple bs⟩ ⟨k, a, b⟩
  | field {k : Bool} {fs gs : List (String × Ty)} {row row' : Option TyVar} {name : String}
      {a b : Ty} : Table.get? name fs = some a → Table.get? name gs = some b →
      Next ⟨k, .record fs row, .record gs row'⟩ ⟨true, a, b⟩

/-- The strings meet a literal, or in unification a union meets a type that is none. -/
inductive Loose : Comparison → Prop where
  | string (k : Bool) (s : String) : Loose ⟨k, .string, .lit s⟩
  | union (ts : List Ty) {b : Ty} : (∀ us, b ≠ .union us) → Loose ⟨true, .union ts, b⟩

theorem loose_iff {k : Bool} {a b : Ty} : Loose ⟨k, a, b⟩ ↔
    (a = .string ∧ ∃ s, b = .lit s) ∨
      (k = true ∧ (∃ ts, a = .union ts) ∧ ∀ us, b ≠ .union us) := by
  constructor
  · intro h
    cases h with
    | string _ s => exact .inl ⟨rfl, s, rfl⟩
    | union ts hb => exact .inr ⟨rfl, ⟨ts, rfl⟩, hb⟩
  · rintro (⟨rfl, s, rfl⟩ | ⟨rfl, ⟨ts, rfl⟩, hb⟩)
    · exact .string k s
    · exact .union ts hb

/-- Nothing loose is met on the way from a comparison, where equivalent types are compared no
further. -/
def Directed (c : Comparison) : Prop :=
  ∀ d, Relation.ReflTransGen (fun c d => c.sub.equiv c.super = false ∧ Next c d) c d → ¬ d.Loose

theorem Directed.not_loose {c : Comparison} (h : c.Directed) : ¬ c.Loose := h c .refl

theorem Directed.next {c d : Comparison} (h : c.Directed) (hne : c.sub.equiv c.super = false)
    (hnext : Next c d) : d.Directed := fun e he => h e (.head ⟨hne, hnext⟩ he)

end Comparison

namespace Relate

/-! ## What a successful run shows -/

/-- What a successful run leaves behind: it drops no assumption. -/
structure Gains (p q : Progress) : Prop extends Advances p q where
  assumed : p.assumed ⊆ q.assumed

theorem Gains.refl (p : Progress) : Gains p p := ⟨.refl p, List.Subset.refl _⟩

theorem Gains.trans {p q r : Progress} (h : Gains p q) (h' : Gains q r) : Gains p r :=
  ⟨h.toAdvances.trans h'.toAdvances, List.Subset.trans h.assumed h'.assumed⟩

/-- An attempt puts back what it has assumed. -/
theorem gains_attempt {p q : Progress} (h : Advances p q) :
    Gains p { q with assumed := p.assumed } := ⟨⟨h.count, h.exceeded⟩, List.Subset.refl _⟩

/-- A run that succeeds binds nothing, and shows something. -/
def Shows (m : Relate Subst) (Q : Prop) : Prop :=
  ∀ p, Ends m p (fun s q => Gains p q ∧ s = .empty ∧ Q) fun _ q => Advances p q

section Shows

variable {ctx : Context} {rel unify : Relation} {m : Relate Subst} {Q Q' : Prop}

theorem shows_pure (h : Q) : Shows (pure .empty) Q := fun p => ends_pure ⟨.refl p, rfl, h⟩

theorem shows_throw (e : Diagnostic) : Shows (throw e) Q := fun p => ends_throw (.refl p)

theorem shows_exceed (a b : Ty) : Shows (exceed ctx a b) Q := fun _ =>
  ends_exceed ⟨Nat.le_refl _, fun _ => rfl⟩

theorem Shows.mono (h : Shows m Q) (hQ : Q → Q') : Shows m Q' := fun p =>
  (h p).imp (fun _ _ hs => ⟨hs.1, hs.2.1, hQ hs.2.2⟩) fun _ _ h => h

theorem Shows.bind {f : Subst → Relate Subst} (h : Shows m Q) (hf : Q → Shows (f .empty) Q') :
    Shows (m >>= f) Q' := by
  refine fun p => Ends.bind ((h p).imp ?_ fun _ _ h => h)
  rintro s q ⟨hadv, rfl, hQ⟩
  exact (hf hQ q).imp (fun _ _ h => ⟨hadv.trans h.1, h.2⟩) fun _ _ h => hadv.toAdvances.trans h

theorem shows_orElseThrow {d : Diagnostic → Diagnostic} (h : Shows m Q) :
    Shows (orElseThrow m d) Q := fun p => ends_orElseThrow (h p)

theorem shows_thread {R : Ty → Ty → Prop} : ∀ {pairs : List (Ty × Ty)},
    (∀ e ∈ pairs, Shows (rel e.1 e.2) (R e.1 e.2)) →
      Shows (thread rel pairs .empty) (∀ e ∈ pairs, R e.1 e.2)
  | [], _ => shows_pure (by simp)
  | (a, b) :: pairs, h => by
      obtain ⟨hhead, htail⟩ := List.forall_mem_cons.1 h
      rw [thread, Subst.apply_empty, Subst.apply_empty]
      refine Shows.bind hhead fun hab => ?_
      exact (shows_thread htail).mono fun hrest => List.forall_mem_cons.2 ⟨hab, hrest⟩

theorem shows_firstOf {f : Ty → Relate Subst} {R : Ty → Prop} : ∀ {ts : List Ty},
    (∀ t ∈ ts, Shows (f t) (R t)) → ∀ p : Progress, Gains p ((firstOf f ts).run p).2 ∧
      ∀ s, ((firstOf f ts).run p).1 = some s → s = .empty ∧ ∃ t ∈ ts, R t
  | [], _, p => ⟨.refl p, nofun⟩
  | t :: ts, h, p => by
      obtain ⟨hhead, htail⟩ := List.forall_mem_cons.1 h
      have hends := hhead p
      unfold Ends at hends
      rw [firstOf, StateM.run_bind, show (attempt (f t)).run p = attempt (f t) p from rfl, attempt]
      generalize (f t).run p = out at hends
      obtain ⟨o, q⟩ := out
      cases o with
      | ok s =>
          obtain ⟨hgain, hs, hR⟩ := hends
          refine ⟨gains_attempt hgain.toAdvances, ?_⟩
          rintro s' ⟨⟩
          exact ⟨hs, t, List.mem_cons_self, hR⟩
      | error e =>
          have hadv : Advances p q := hends
          obtain ⟨hgain, hsome⟩ := shows_firstOf htail { q with assumed := p.assumed }
          refine ⟨(gains_attempt hadv).trans hgain, fun s hs => ?_⟩
          obtain ⟨hs, u, hu, hR⟩ := hsome s hs
          exact ⟨hs, u, List.mem_cons_of_mem _ hu, hR⟩

/-- The first attempt that succeeds, or else a failure. -/
theorem shows_firstOrThrow {f : Ty → Relate Subst} {R : Ty → Prop} {ts : List Ty}
    (h : ∀ t ∈ ts, Shows (f t) (R t)) (e : Diagnostic) :
    Shows (do match ← firstOf f ts with
      | some s => pure s
      | none => throw e) (∃ t ∈ ts, R t) := by
  intro p
  refine Ends.bind (ends_lift ?_)
  have hfirst := shows_firstOf h p
  generalize (firstOf f ts).run p = out at hfirst
  obtain ⟨o, q⟩ := out
  obtain ⟨hgain, hsome⟩ := hfirst
  cases o with
  | none => exact ends_throw hgain.toAdvances
  | some s => exact ends_pure ⟨hgain, hsome s rfl⟩

theorem shows_absorb {t : Ty} {alts : List Ty} {R : Ty → Prop}
    (h : ∀ alt ∈ alts, Shows (unify t alt) (R alt)) :
    Shows (absorb ctx unify t alts) (∃ alt ∈ alts, R alt) := shows_firstOrThrow h _

theorem shows_subtypeSome {f : Ty → Relate Subst} {R : Ty → Prop} {ts : List Ty} {sub super : Ty}
    {reason : String} (h : ∀ t ∈ ts, Shows (f t) (R t)) :
    Shows (subtypeSome ctx sub super reason (firstOf f ts)) (∃ t ∈ ts, R t) :=
  shows_firstOrThrow h _

theorem shows_absorbAll {bs : List Ty} {R : Ty → Ty → Prop} : ∀ {as : List Ty},
    (∀ a ∈ as, ∀ b ∈ bs, Shows (unify a b) (R a b)) →
      Shows (absorbAll ctx unify (.union bs) as .empty) (∀ a ∈ as, ∃ b ∈ bs, R a b)
  | [], _ => shows_pure (by simp)
  | a :: as, h => by
      obtain ⟨hhead, htail⟩ := List.forall_mem_cons.1 h
      simp only [absorbAll, Subst.apply_empty]
      refine Shows.bind (shows_absorb hhead) fun ha => ?_
      exact (shows_absorbAll htail).mono fun has => List.forall_mem_cons.2 ⟨ha, has⟩

theorem shows_unifyUnions {as bs : List Ty} {R R' : Ty → Ty → Prop}
    (h : ∀ a ∈ as, ∀ b ∈ bs, Shows (unify a b) (R a b))
    (h' : ∀ b ∈ bs, ∀ a ∈ as, Shows (unify b a) (R' b a)) :
    Shows (unifyUnions ctx unify as bs)
      ((∀ a ∈ as, ∃ b ∈ bs, R a b) ∧ ∀ b ∈ bs, ∃ a ∈ as, R' b a) := by
  refine shows_orElseThrow (Shows.bind (shows_absorbAll h) fun has => ?_)
  exact (shows_absorbAll h').mono fun hbs => ⟨has, hbs⟩

theorem shows_unifyWithMembers {t : Ty} {members : List Ty} {R : Ty → Prop}
    (h : ∀ m ∈ members, Shows (unify t m) (R m)) :
    Shows (unifyWithMembers ctx unify t members) (∀ m ∈ members, R m) := by
  refine shows_orElseThrow ((shows_thread (R := fun _ m => R m) ?_).mono fun hall m hm => ?_)
  · exact List.forall_mem_map.2 h
  · exact hall (t, m) (List.mem_map.2 ⟨m, hm, rfl⟩)

/-- Closed records are unified if they have the same names, field by field. -/
theorem shows_unifyRecords {fs gs : List (String × Ty)} {R : Ty → Ty → Prop}
    (h : ∀ name a b, Table.get? name fs = some a → Table.get? name gs = some b →
      Shows (unify a b) (R a b)) :
    Shows (unifyRecords ctx unify ⟨fs, none⟩ ⟨gs, none⟩)
      (∀ name, Option.Rel R (Table.get? name fs) (Table.get? name gs)) := by
  have hshared : ∀ e ∈ RecordTy.sharedFields ⟨fs, none⟩ ⟨gs, none⟩,
      Shows (unify e.1 e.2) (R e.1 e.2) := by
    intro e he
    obtain ⟨name, ha, hb⟩ := RecordTy.mem_sharedFields.1 he
    exact h name e.1 e.2 ha hb
  refine Shows.bind (shows_thread hshared) fun hall => ?_
  show Shows (if _ then pure .empty else throw _) _
  split
  · next honly =>
      rw [Bool.and_eq_true, List.isEmpty_iff, List.isEmpty_iff] at honly
      refine shows_pure fun name => ?_
      have hnotA : name ∉ Text.Names.diff _ _ := honly.1 ▸ List.not_mem_nil
      have hnotB : name ∉ Text.Names.diff _ _ := honly.2 ▸ List.not_mem_nil
      rw [RecordTy.mem_diff] at hnotA hnotB
      simp only [RecordTy.field?] at hnotA hnotB
      cases ha : Table.get? name fs with
      | none =>
          cases hb : Table.get? name gs with
          | none => exact .none
          | some b => simp [ha, hb] at hnotB
      | some a =>
          cases hb : Table.get? name gs with
          | none => simp [ha, hb] at hnotA
          | some b => exact .some (hall (a, b) (RecordTy.mem_sharedFields.2 ⟨name, ha, hb⟩))
  · exact shows_throw _

theorem shows_unifyWidth {sub super : RecordTy} {R : Ty → Ty → Prop} :
    ∀ {gs : List (String × Ty)}, (∀ g ∈ gs, ∀ a, sub.field? g.1 = some a →
      Shows (unify a g.2) (R a g.2)) →
    Shows (unifyWidth ctx unify sub super gs .empty)
      (∀ g ∈ gs, ∀ a, sub.field? g.1 = some a → R a g.2)
  | [], _ => shows_pure (by simp)
  | (name, t) :: gs, h => by
      obtain ⟨hhead, htail⟩ := List.forall_mem_cons.1 h
      rw [unifyWidth]
      split
      · next hnone =>
          refine (shows_unifyWidth htail).mono fun hgs => List.forall_mem_cons.2 ⟨?_, hgs⟩
          intro a ha
          rw [hnone] at ha
          cases ha
      · next u hu =>
          rw [Subst.apply_empty, Subst.apply_empty]
          refine Shows.bind (shows_orElseThrow (hhead u hu)) fun hut => ?_
          refine (shows_unifyWidth htail).mono fun hgs => List.forall_mem_cons.2 ⟨?_, hgs⟩
          intro a ha
          rw [hu] at ha
          cases ha
          exact hut

/-- A closed record is below another if it has all of its fields, with types that unify. -/
theorem shows_subtypeRecords {fs gs : List (String × Ty)} {R : Ty → Ty → Prop}
    (h : ∀ g ∈ gs, ∀ a, Table.get? g.1 fs = some a → Shows (unify a g.2) (R a g.2)) :
    Shows (subtypeRecords ctx unify ⟨fs, none⟩ ⟨gs, none⟩)
      (∀ g ∈ gs, ∃ a, Table.get? g.1 fs = some a ∧ R a g.2) := by
  refine Shows.bind (shows_unifyWidth h) fun hall => ?_
  show Shows (if _ then pure .empty else throw _) _
  split
  · next hmissing =>
      rw [List.isEmpty_iff, List.filter_eq_nil_iff] at hmissing
      refine shows_pure fun g hg => ?_
      have hthere := hmissing g.1 (List.mem_map.2 ⟨g, hg, rfl⟩)
      cases ha : Table.get? g.1 fs with
      | none => simp [RecordTy.field?, ha] at hthere
      | some a => exact ⟨a, rfl, hall g hg a ha⟩
  · exact shows_throw _

end Shows

/-! ## Unification -/

/-- Unifying two types, in either order, shows that the first has no values but the second's. -/
def ShowsBelow (unify : Relation) (a b : Ty) : Prop :=
  Shows (unify a b) (a.Below b) ∧ Shows (unify b a) (a.Below b)

section Unification

variable {ctx : Context} {unify : Relation} {a b : Ty}

/-- Types of data that are not equivalent are compared by their constructors. -/
theorem unify_data {n : Nat} (ha : a.Data) (hb : b.Data) (hne : a.equiv b = false) :
    Relate.unify ctx (n + 1) a b = unifyShapes ctx (Relate.unify ctx n) a b := by
  show unifyStep ctx (Relate.unify ctx n) a b = _
  unfold unifyStep
  rw [if_neg (by simp [hne])]
  cases ha <;> cases hb <;> rfl

theorem shows_into_union {bs : List Ty} (h : ∀ b ∈ bs, ShowsBelow unify a b) :
    Shows (absorb ctx unify a bs) (a.Below (.union bs)) := by
  refine (shows_absorb fun b hb => (h b hb).1).mono ?_
  rintro ⟨b, hb, hab⟩
  exact Ty.below_union_right hb hab

theorem shows_into_inter {ms : List Ty} (h : ∀ m ∈ ms, ShowsBelow unify a m) :
    Shows (unifyWithMembers ctx unify a ms) (a.Below (.inter ms)) :=
  (shows_unifyWithMembers fun m hm => (h m hm).1).mono Ty.below_inter_right

theorem shows_from_inter {ms : List Ty} (hne : ms ≠ []) (h : ∀ m ∈ ms, ShowsBelow unify m b) :
    Shows (unifyWithMembers ctx unify b ms) ((Ty.inter ms).Below b) := by
  refine (shows_unifyWithMembers fun m hm => (h m hm).2).mono fun hall => ?_
  obtain ⟨m, hm⟩ := List.exists_mem_of_ne_nil ms hne
  exact Ty.below_inter_left hm (hall m hm)

theorem showsBelow_unifyUnions {as bs : List Ty}
    (h : ∀ a ∈ as, ∀ b ∈ bs, ShowsBelow unify a b) :
    Shows (unifyUnions ctx unify as bs) ((Ty.union as).Below (.union bs)) ∧
      Shows (unifyUnions ctx unify bs as) ((Ty.union as).Below (.union bs)) := by
  have hbelow : (∀ a ∈ as, ∃ b ∈ bs, a.Below b) → (Ty.union as).Below (.union bs) := by
    refine fun hall => Ty.below_union_left fun a ha => ?_
    obtain ⟨b, hb, hab⟩ := hall a ha
    exact Ty.below_union_right hb hab
  constructor
  · refine (shows_unifyUnions (fun a ha b hb => (h a ha b hb).1)
      fun b hb a ha => (h a ha b hb).2).mono fun hall => hbelow hall.1
  · refine (shows_unifyUnions (fun b hb a ha => (h a ha b hb).2)
      fun a ha b hb => (h a ha b hb).1).mono fun hall => hbelow hall.2

theorem mem_zip_swap {α β : Type} {e : α × β} {as : List α} {bs : List β} (h : e ∈ as.zip bs) :
    e.swap ∈ bs.zip as := by
  rw [← List.zip_swap]
  exact List.mem_map_of_mem h

theorem showsBelow_tuples {as bs : List Ty} (h : ∀ e ∈ as.zip bs, ShowsBelow unify e.1 e.2) :
    ShowsBelow (unifyShapes ctx unify) (.tuple as) (.tuple bs) := by
  have hswap : ∀ e ∈ bs.zip as, Shows (unify e.1 e.2) (e.2.Below e.1) := fun e he =>
    (h e.swap (mem_zip_swap he)).2
  constructor
  · show Shows (if _ then _ else throw _) _
    split
    · next hlen => exact (shows_thread fun e he => (h e he).1).mono (Ty.below_tuple hlen)
    · exact shows_throw _
  · show Shows (if _ then _ else throw _) _
    split
    · next hlen =>
        refine (shows_thread (R := fun b a => a.Below b) hswap).mono fun hall => ?_
        exact Ty.below_tuple hlen.symm fun e he => hall e.swap (mem_zip_swap he)
    · exact shows_throw _

theorem showsBelow_records {fs gs : List (String × Ty)} (hasc : Table.Ascending gs)
    (h : ∀ name a b, Table.get? name fs = some a → Table.get? name gs = some b →
      ShowsBelow unify a b) :
    ShowsBelow (unifyShapes ctx unify) (.record fs none) (.record gs none) := by
  -- Each field of the wider record is one of the smaller.
  have hbelow : (∀ name, Option.Rel Ty.Below (Table.get? name fs) (Table.get? name gs)) →
      (Ty.record fs none).Below (.record gs none) := by
    refine fun hall => Ty.below_record fun g hg => ?_
    have hg := hall g.1
    rw [Table.get?_of_mem hasc ‹g ∈ gs›] at hg
    generalize Table.get? g.1 fs = x at hg
    cases hg with
    | some hag => exact ⟨_, rfl, hag⟩
  constructor
  · exact (shows_unifyRecords fun name a b ha hb => (h name a b ha hb).1).mono hbelow
  · refine (shows_unifyRecords (R := fun b a => a.Below b)
      fun name b a hb ha => (h name a b ha hb).2).mono fun hall => hbelow fun name => ?_
    have := hall name
    generalize Table.get? name fs = x, Table.get? name gs = y at this
    cases this with
    | none => exact .none
    | some hab => exact .some hab

/-- Of a primitive type and a literal, only the strings go with it. -/
theorem shows_prim_lit {name value : String} {Q : Prop} (h : name = "String" → Q) :
    Shows (unifyShapes ctx unify (.prim name) (.lit value)) Q ∧
      Shows (unifyShapes ctx unify (.lit value) (.prim name)) Q := by
  by_cases hname : name = "String"
  · subst hname
    exact ⟨shows_pure (h rfl), shows_pure (h rfl)⟩
  · constructor
    all_goals
      unfold unifyShapes
      split <;> first | exact shows_throw _ | simp_all

/-- Unifying two types of which neither is a union or an intersection. -/
theorem showsBelow_plain (ha : a.Data) (hb : b.Data) (hplain : a.isPlain = true)
    (hplain' : b.isPlain = true) (hdir : Comparison.Directed ⟨true, a, b⟩)
    (step : ∀ {c d : Ty}, Comparison.Next ⟨true, a, b⟩ ⟨true, c, d⟩ → c.Data → d.Data →
      ShowsBelow unify c d) : ShowsBelow (unifyShapes ctx unify) a b := by
  cases ha with
  | prim name =>
      cases hb with
      | lit value =>
          refine shows_prim_lit fun hname => ?_
          subst hname
          exact absurd (.string true value) hdir.not_loose
      | union _ | inter _ _ => cases hplain'
      | _ => exact ⟨shows_throw _, shows_throw _⟩
  | lit value =>
      cases hb with
      | prim name =>
          refine (shows_prim_lit fun hname v hv => ?_).symm
          subst hname
          cases hv with
          | lit => exact .string value
      | union _ | inter _ _ => cases hplain'
      | _ => exact ⟨shows_throw _, shows_throw _⟩
  | tuple has =>
      cases hb with
      | tuple hbs =>
          refine showsBelow_tuples fun e he => step (.elem he) ?_ ?_
          · exact has e.1 (List.of_mem_zip he).1
          · exact hbs e.2 (List.of_mem_zip he).2
      | union _ | inter _ _ => cases hplain'
      | _ => exact ⟨shows_throw _, shows_throw _⟩
  | record _ hfs =>
      cases hb with
      | record hasc hgs =>
          refine showsBelow_records hasc fun name c d hc hd => step (.field hc hd) ?_ ?_
          · exact hfs _ (Table.mem_of_get? hc)
          · exact hgs _ (Table.mem_of_get? hd)
      | union _ | inter _ _ => cases hplain'
      | _ => exact ⟨shows_throw _, shows_throw _⟩
  | union _ | inter _ _ => cases hplain

/-- Unifying two types whose constructors show, given the same for the types they lead to. -/
theorem showsBelow_unifyShapes
    (ih : ∀ {a b : Ty}, a.Data → b.Data → Comparison.Directed ⟨true, a, b⟩ → ShowsBelow unify a b)
    (ha : a.Data) (hb : b.Data) (hdir : Comparison.Directed ⟨true, a, b⟩)
    (hne : a.equiv b = false) : ShowsBelow (unifyShapes ctx unify) a b := by
  have step : ∀ {c d : Ty}, Comparison.Next ⟨true, a, b⟩ ⟨true, c, d⟩ → c.Data → d.Data →
      ShowsBelow unify c d := fun hnext hc hd => ih hc hd (hdir.next hne hnext)
  have hdata := ha
  have hdata' := hb
  cases ha with
  | @union as has =>
      cases hb with
      | @union bs hbs =>
          exact showsBelow_unifyUnions fun a ha b hb =>
            step (.alternatives ha hb) (has a ha) (hbs b hb)
      | _ => exact absurd (.union _ fun us h => nomatch h) hdir.not_loose
  | @inter as hnil has =>
      have hfrom : ∀ a ∈ as, ShowsBelow unify a b := fun a ha => step (.member ha) (has a ha) hb
      cases hb with
      | @union bs hbs =>
          have hinto : ∀ b ∈ bs, ShowsBelow unify (.inter as) b := fun b hb =>
            step (.intoAlternative (fun us h => nomatch h) hb) hdata (hbs b hb)
          exact ⟨shows_into_union hinto, shows_from_inter hnil hfrom⟩
      | @inter bs _ hbs =>
          have hinto : ∀ b ∈ bs, ShowsBelow unify (.inter as) b := fun b hb =>
            step (.intoMember hb) hdata (hbs b hb)
          exact ⟨shows_into_inter hinto, shows_from_inter hnil hfrom⟩
      | _ => exact ⟨shows_from_inter hnil hfrom, shows_from_inter hnil hfrom⟩
  | _ =>
      cases hb with
      | @union bs hbs =>
          have hinto : ∀ b ∈ bs, ShowsBelow unify _ b := fun b hb =>
            step (.intoAlternative (fun us h => nomatch h) hb) hdata (hbs b hb)
          exact ⟨shows_into_union hinto, shows_into_union hinto⟩
      | @inter bs _ hbs =>
          have hinto : ∀ b ∈ bs, ShowsBelow unify _ b := fun b hb =>
            step (.intoMember hb) hdata (hbs b hb)
          exact ⟨shows_into_inter hinto, shows_into_inter hinto⟩
      | _ => exact showsBelow_plain hdata hdata' rfl rfl hdir step

/-- Unification, in either order. -/
theorem showsBelow_unify : ∀ (n : Nat) {a b : Ty}, a.Data → b.Data →
    Comparison.Directed ⟨true, a, b⟩ → ShowsBelow (Relate.unify ctx n) a b
  | 0, _, _, _, _, _ => ⟨shows_exceed _ _, shows_exceed _ _⟩
  | n + 1, a, b, ha, hb, hdir => by
      by_cases heq : a.equiv b = true
      · have heq' := Ty.equiv_symm ha.tame hb.tame heq
        have hbelow := Ty.below_of_equiv ha hb heq
        constructor
        · show Shows (if a.equiv b then _ else _) _
          rw [if_pos heq]
          exact shows_pure hbelow
        · show Shows (if b.equiv a then _ else _) _
          rw [if_pos heq']
          exact shows_pure hbelow
      · have hne : a.equiv b = false := by simpa using heq
        have hne' : b.equiv a = false := by
          rw [Bool.eq_false_iff]
          exact fun h => heq (Ty.equiv_symm hb.tame ha.tame h)
        rw [ShowsBelow, unify_data ha hb hne, unify_data hb ha hne']
        exact showsBelow_unifyShapes (showsBelow_unify n) ha hb hdir hne

end Unification

/-! ## Subtyping -/

section Subtyping

variable {ctx : Context} {n : Nat} {subtype : Relation} {a b : Ty}

theorem shows_subtypeUnified {unify : Relation} {Q : Prop} (h : Shows (unify a b) Q) :
    Shows (subtypeUnified ctx unify a b) Q := shows_orElseThrow h

/-- Types that lead to no other comparison are unified. -/
theorem shows_unify_of_not_next (ha : a.Data) (hb : b.Data) (hplain : a.isPlain = true)
    (hdir : Comparison.Directed ⟨false, a, b⟩) (hnext : ∀ d, ¬ Comparison.Next ⟨true, a, b⟩ d) :
    Shows (Relate.unify ctx n a b) (a.Below b) := by
  refine (showsBelow_unify n ha hb fun d hd => ?_).1
  rcases Relation.ReflTransGen.cases_head hd with rfl | ⟨c, ⟨-, hc⟩, -⟩
  · intro hloose
    cases hloose with
    | string k s => exact hdir.not_loose (.string false s)
    | union ts => cases hplain
  · exact absurd hc (hnext c)

theorem shows_subtype_tuples {as bs : List Ty} (ha : (Ty.tuple as).Data) (hb : (Ty.tuple bs).Data)
    (h : ∀ e ∈ as.zip bs, Shows (subtype e.1 e.2) (e.1.Below e.2)) :
    Shows (subtypeShapes ctx (Relate.unify ctx n) subtype (.tuple as) (.tuple bs))
      ((Ty.tuple as).Below (.tuple bs)) := by
  show Shows (if _ then _ else _) _
  split
  · next hlen => exact (shows_thread h).mono (Ty.below_tuple hlen)
  · next hlen =>
      refine shows_subtypeUnified ?_
      cases n with
      | zero => exact shows_exceed _ _
      | succ n =>
          have hne : (Ty.tuple as).equiv (.tuple bs) = false := by
            rw [Bool.eq_false_iff]
            exact fun h => hlen (Ty.equiv_tuple.1 h).length_eq
          rw [unify_data ha hb hne]
          show Shows (if _ then _ else throw _) _
          rw [if_neg hlen]
          exact shows_throw _

/-- A literal is below the strings, and unified with other primitive types. -/
theorem shows_subtype_lit_prim {name value : String}
    (h : Shows (Relate.unify ctx n (.lit value) (.prim name)) ((Ty.lit value).Below (.prim name))) :
    Shows (subtypeShapes ctx (Relate.unify ctx n) subtype (.lit value) (.prim name))
      ((Ty.lit value).Below (.prim name)) := by
  by_cases hname : name = "String"
  · subst hname
    refine shows_pure fun v hv => ?_
    cases hv with
    | lit => exact .string value
  · unfold subtypeShapes
    split <;> first | exact shows_subtypeUnified h | simp_all

/-- Subtyping two types of which neither is a union or an intersection. -/
theorem shows_subtype_plain
    (ih : ∀ {c d : Ty}, c.Data → d.Data → Comparison.Directed ⟨false, c, d⟩ →
      Shows (subtype c d) (c.Below d))
    (ha : a.Data) (hb : b.Data) (hplain : a.isPlain = true) (hplain' : b.isPlain = true)
    (hdir : Comparison.Directed ⟨false, a, b⟩) (hne : a.equiv b = false) :
    Shows (subtypeShapes ctx (Relate.unify ctx n) subtype a b) (a.Below b) := by
  have hunify : (∀ d, ¬ Comparison.Next ⟨true, a, b⟩ d) →
      Shows (Relate.unify ctx n a b) (a.Below b) := shows_unify_of_not_next ha hb hplain hdir
  have hdata := ha
  have hdata' := hb
  cases ha with
  | prim name =>
      cases hb with
      | union _ | inter _ _ => cases hplain'
      | _ => exact shows_subtypeUnified (hunify fun d hd => by cases hd)
  | lit value =>
      cases hb with
      | prim name => exact shows_subtype_lit_prim (hunify fun d hd => by cases hd)
      | union _ | inter _ _ => cases hplain'
      | _ => exact shows_subtypeUnified (hunify fun d hd => by cases hd)
  | tuple has =>
      cases hb with
      | tuple hbs =>
          refine shows_subtype_tuples hdata hdata' fun e he => ?_
          exact ih (has e.1 (List.of_mem_zip he).1) (hbs e.2 (List.of_mem_zip he).2)
            (hdir.next hne (.elem he))
      | union _ | inter _ _ => cases hplain'
      | _ => exact shows_subtypeUnified (hunify fun d hd => by cases hd)
  | record _ hfs =>
      cases hb with
      | record hasc hgs =>
          refine (shows_subtypeRecords (R := Ty.Below) fun g hg c hc => ?_).mono Ty.below_record
          exact (showsBelow_unify n (hfs _ (Table.mem_of_get? hc)) (hgs g hg)
            (hdir.next hne (.field hc (Table.get?_of_mem hasc hg)))).1
      | union _ | inter _ _ => cases hplain'
      | _ => exact shows_subtypeUnified (hunify fun d hd => by cases hd)
  | union _ | inter _ _ => cases hplain

/-- Subtyping two types whose constructors show, given the same for the types they lead to. -/
theorem shows_subtypeShapes
    (ih : ∀ {c d : Ty}, c.Data → d.Data → Comparison.Directed ⟨false, c, d⟩ →
      Shows (subtype c d) (c.Below d))
    (ha : a.Data) (hb : b.Data) (hdir : Comparison.Directed ⟨false, a, b⟩)
    (hne : a.equiv b = false) :
    Shows (subtypeShapes ctx (Relate.unify ctx n) subtype a b) (a.Below b) := by
  have step : ∀ {c d : Ty}, Comparison.Next ⟨false, a, b⟩ ⟨false, c, d⟩ → c.Data → d.Data →
      Shows (subtype c d) (c.Below d) := fun hnext hc hd => ih hc hd (hdir.next hne hnext)
  have hdata := ha
  have hdata' := hb
  cases ha with
  | @union as has =>
      refine (shows_thread (R := fun c d => c.Below d) (List.forall_mem_map.2 fun t ht =>
        step (.alternative ht) (has t ht) hb)).mono fun hall => ?_
      exact Ty.below_union_left fun t ht => hall (t, b) (List.mem_map.2 ⟨t, ht, rfl⟩)
  | @inter as hnil has =>
      cases hb with
      | @union bs hbs =>
          refine (shows_subtypeSome fun t ht => step (.intoAlternative (fun us h => nomatch h) ht)
            hdata (hbs t ht)).mono ?_
          rintro ⟨t, ht, h⟩
          exact Ty.below_union_right ht h
      | _ =>
          refine (shows_subtypeSome fun t ht => step (.member ht) (has t ht) hdata').mono ?_
          rintro ⟨t, ht, h⟩
          exact Ty.below_inter_left ht h
  | _ =>
      cases hb with
      | @union bs hbs =>
          refine (shows_subtypeSome fun t ht => step (.intoAlternative (fun us h => nomatch h) ht)
            hdata (hbs t ht)).mono ?_
          rintro ⟨t, ht, h⟩
          exact Ty.below_union_right ht h
      | @inter bs _ hbs =>
          refine (shows_thread (R := fun c d => c.Below d) (List.forall_mem_map.2 fun t ht =>
            step (.intoMember ht) hdata (hbs t ht))).mono fun hall => ?_
          exact Ty.below_inter_right fun t ht => hall (_, t) (List.mem_map.2 ⟨t, ht, rfl⟩)
      | _ => exact shows_subtype_plain ih hdata hdata' rfl rfl hdir hne

theorem shows_subtype : ∀ (n : Nat) {a b : Ty}, a.Data → b.Data →
    Comparison.Directed ⟨false, a, b⟩ → Shows (Relate.subtype ctx n a b) (a.Below b)
  | 0, _, _, _, _, _ => shows_exceed _ _
  | n + 1, a, b, ha, hb, hdir => by
      show Shows (subtypeStep ctx (Relate.unify ctx n) (Relate.subtype ctx n) a b) _
      unfold subtypeStep
      split
      · next heq => exact shows_pure (Ty.below_of_equiv ha hb heq)
      · next hne =>
          have hshapes : Shows (subtypeShapes ctx (Relate.unify ctx n) (Relate.subtype ctx n) a b)
              (a.Below b) := shows_subtypeShapes (shows_subtype n) ha hb hdir (by simpa using hne)
          cases ha <;> cases hb <;> exact hshapes

end Subtyping

end Relate

namespace Session

/-- If a type of data is accepted as a subtype of another, its values are values of the other: as
long as the comparison meets nothing loose. -/
theorem admits_of_subtype {limit : Nat} {span : Span} {sub super : Ty} {σ τ : Session}
    {s : Subst} (hsub : sub.Data) (hsuper : super.Data)
    (hdir : Comparison.Directed ⟨false, sub, super⟩)
    (h : (subtype limit span sub super).run σ = (.ok s, τ)) {v : Value}
    (hv : sub.Admits false v) : super.Admits false v := by
  have hrun : ((Relate.subtype { registry := σ.registry, span } limit sub super).run
      { supply := σ.supply }).1 = .ok s := congrArg Prod.fst h
  have hends : Ends (Relate.subtype { registry := σ.registry, span } limit sub super)
      { supply := σ.supply } _ _ := Relate.shows_subtype limit hsub hsuper hdir _
  unfold Ends at hends
  split at hends
  · exact hends.2.2 v hv
  · next heq =>
      rw [heq] at hrun
      cases hrun

/-- A field that is a tag or a number, and another one. -/
def tagOrNumber : Ty := .record [("a", .union [.lit "x", .int]), ("b", .bool)] none

/-- A field that is a number or a string. -/
def numberOrString : Ty := .record [("a", .union [.int, .string])] none

theorem data_numberOrString : numberOrString.Data := by
  refine .record (List.pairwise_singleton _ _) (List.forall_mem_singleton.2 (.union ?_))
  simpa using ⟨.prim "Int", .prim "String"⟩

/-- The comparison goes from the records to the two unions of their common field, and from there to
the pairs of their alternatives. -/
theorem directed_tagOrNumber : Comparison.Directed ⟨false, tagOrNumber, numberOrString⟩ := by
  intro d hd
  rcases Relation.ReflTransGen.cases_head hd with rfl | ⟨c, ⟨-, hc⟩, hd⟩
  · simp [Comparison.loose_iff, tagOrNumber, Ty.string]
  cases hc with
  | @field _ _ _ _ _ name a b ha hb =>
      obtain ⟨rfl, rfl⟩ : a = .union [.lit "x", .int] ∧ b = .union [.int, .string] := by
        simp only [Table.get?] at ha hb
        split at hb
        · next hname => simp_all
        · cases hb
      rcases Relation.ReflTransGen.cases_head hd with rfl | ⟨c, ⟨-, hc⟩, hd⟩
      · simp [Comparison.loose_iff, Ty.string]
      cases hc with
      | alternatives ha hb =>
          simp only [List.mem_cons, List.not_mem_nil, or_false] at ha hb
          rcases Relation.ReflTransGen.cases_head hd with rfl | ⟨c, ⟨-, hc⟩, hd⟩
          · rcases ha with rfl | rfl <;> rcases hb with rfl | rfl <;>
              simp [Comparison.loose_iff, Ty.string, Ty.int]
          · rcases ha with rfl | rfl <;> rcases hb with rfl | rfl <;> cases hc
      | intoAlternative hnot => exact absurd rfl (hnot _)

theorem admits_tagOrNumber :
    tagOrNumber.Data ∧ numberOrString.Data ∧
    Comparison.Directed ⟨false, tagOrNumber, numberOrString⟩ ∧
    (∃ s τ, (subtype defaultLimit {} tagOrNumber numberOrString).run {} = (.ok s, τ)) ∧
    tagOrNumber.Admits false
      (.record [("a", .const (.string "x")), ("b", .const (.bool true))]) ∧
    numberOrString.Admits false
      (.record [("a", .const (.string "x")), ("b", .const (.bool true))]) := by
  have hsub : tagOrNumber.Data := by
    refine .record (List.pairwise_pair.2 (by decide)) (List.forall_mem_cons.2 ⟨.union ?_, ?_⟩)
    · simpa using ⟨.lit "x", .prim "Int"⟩
    · simpa using .prim "Bool"
  have hrun : (subtype defaultLimit {} tagOrNumber numberOrString).run {} =
      (.ok .empty, { ends := True ∧ True }) := by
    with_unfolding_all rfl
  have hv : tagOrNumber.Admits false
      (.record [("a", .const (.string "x")), ("b", .const (.bool true))]) := by
    refine Ty.admits_record.2 ⟨_, rfl, List.forall_mem_cons.2 ⟨⟨_, rfl, ?_⟩, ?_⟩, nofun⟩
    · exact .union List.mem_cons_self (.lit "x")
    · exact List.forall_mem_singleton.2 ⟨_, rfl, .bool true⟩
  exact ⟨hsub, data_numberOrString, directed_tagOrNumber, ⟨_, _, hrun⟩, hv,
    admits_of_subtype hsub data_numberOrString directed_tagOrNumber hrun hv⟩

/-- A field that is a number or a string is accepted as a number, and strings are accepted as a
literal. -/
theorem subtype_accepts_more :
    (((subtype defaultLimit {} numberOrString (.record [("a", .int)] none)).run {}).1.isOk = true ∧
      numberOrString.Data ∧ (Ty.record [("a", .int)] none).Data ∧
      numberOrString.Admits false (.record [("a", .const (.string "s"))]) ∧
      ¬ (Ty.record [("a", .int)] none).Admits false (.record [("a", .const (.string "s"))])) ∧
    ((subtype defaultLimit {} .string (.lit "a")).run {}).1.isOk = true ∧
      Ty.string.Data ∧ (Ty.lit "a").Data ∧ Ty.string.Admits false (.const (.string "s")) ∧
      ¬ (Ty.lit "a").Admits false (.const (.string "s")) := by
  refine ⟨⟨by decide +kernel, data_numberOrString,
    .record (List.pairwise_singleton _ _) (by simpa using .prim "Int"), ?_, ?_⟩,
    by decide +kernel, .prim _, .lit _, .string _, ?_⟩
  · refine Ty.admits_record.2 ⟨_, rfl, List.forall_mem_singleton.2 ⟨_, rfl, ?_⟩, nofun⟩
    exact .union (by simp) (.string "s")
  · intro h
    cases h with
    | record _ h _ =>
        have h := h ("a", .int) List.mem_cons_self _ rfl
        generalize ht : ("a", Ty.int).2 = t at h
        cases h <;> simp [Ty.int, Ty.string] at ht
  · intro h
    generalize ht : Ty.lit "a" = t, hv : Value.const (.string "s") = v at h
    cases h with
    | lit s =>
        cases ht
        simp at hv
    | _ => cases ht

end Session

end RowTypes
