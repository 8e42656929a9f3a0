import RowTypes.Proofs.HeadCovering
import RowTypes.Proofs.Meanings

/-!
# Normal forms are faithful

A normal form has the approximations of the type that it was made of, whatever was normalised
before: references that were met again while they were being expanded, references that were too
deep to be expanded, and forms that were remembered from earlier types all mean the same.

The invariant is that everything a session remembers means its reference.  It is about references to
genuine types alone.  The types that were normalised before may be of any kind, and what is
remembered of their references may be wrong: recursive types that share their numbers with other
unknowns may count as equivalent although they mean different things.  But a genuine type leads to
none but such references, and finds no other forms than theirs under their digests, if the digests
of the references that are looked up are different.
-/

namespace RowTypes

open Ty

namespace Registry

/-- A reference is looked up when some types are normalised. -/
def Involved (r : Registry) (roots : Ty → Prop) (R : Reference) : Prop :=
  ∃ Rs, r.Path roots R Rs ∧ Rs.length ≤ expansionLimit

/-- The references that are looked up have different digests. -/
def ToldApartByDigest (r : Registry) (roots : Ty → Prop) : Prop :=
  ∀ R S, r.Involved roots R → r.Involved roots S → R.digest = S.digest → R = S

/-- The references on a path are come to on the way. -/
theorem Path.exists_shorter {r : Registry} {roots : Ty → Prop} {R S : Reference}
    {Rs : List Reference} (h : r.Path roots R Rs) (hS : S ∈ Rs) :
    ∃ Ss, r.Path roots S Ss ∧ Ss.length < Rs.length := by
  induction h with
  | start _ _ => cases hS
  | next hpath _ ih =>
      rcases List.mem_cons.1 hS with rfl | hS
      · exact ⟨_, hpath, Nat.lt_succ_self _⟩
      · obtain ⟨Ss, hSs, hlt⟩ := ih hS
        exact ⟨Ss, hSs, Nat.lt_succ_of_lt hlt⟩

namespace Regular

variable {r : Registry} {P : Int → Prop} {w : r.Regular P} {roots : Ty → Prop} {I I' : Naming}
  {stack : Stack} {s : Session} {R : Reference} {v : TyVar} {α β : Type}

/-! ## The invariant -/

/-- Everything that is remembered of genuine references means them, and their binders stand for
them. -/
structure Holds (w : r.Regular P) (roots : Ty → Prop) (I : Naming) (stack : Stack) (s : Session) :
    Prop where
  definitions : s.registry.definitions = r.definitions
  sound : I.Sound P
  given : ∀ id R, I id = some R → id ≤ (s.supply.count : Int)
  pending : ∀ e ∈ stack, e.1.Genuine P → I e.2.id = some e.1
  memo : ∀ R u, r.Involved roots R → R.Genuine P → Table.get? R.digest s.registry.memo = some u →
    w.Means I [] R.ty u

/-- No unknown has a number that is given out on the way from one session to another. -/
def Clean (P : Int → Prop) (s q : Session) : Prop :=
  ∀ id, (s.supply.count : Int) < id → id ≤ (q.supply.count : Int) → ¬ P id

/-- A step keeps the invariant, while more binders get a reference, and its result has a property
under the binders that there are then. -/
def Keeps (w : r.Regular P) (roots : Ty → Prop) (I : Naming) (stack : Stack)
    (Q : Naming → α → Prop) (m : StateM Session α) : Prop :=
  ∀ s, w.Holds roots I stack s → Clean P s (m.run s).2 → ∃ I' : Naming,
    (∀ id R, I id = some R → I' id = some R) ∧ w.Holds roots I' stack (m.run s).2 ∧
      Q I' (m.run s).1

variable {Q : Naming → α → Prop} {Q' : Naming → β → Prop}

theorem Clean.of_le {s p q : Session} (h : Clean P s q) (hsp : s.supply.count ≤ p.supply.count)
    {p' : Session} (hpq : p'.supply.count ≤ q.supply.count) : Clean P p p' := fun id hlo hhi =>
  h id (by omega) (by omega)

/-- While a reference is expanded, no number is given out that is not given out in the end, nor is
its binder one. -/
theorem Clean.inside {onRef : TyVar → String → List Ty → StateM Session (Option Ty)}
    (hquiet : ∀ v name args, Quiet (onRef v name args)) {expanding : Expanding} {key : Digest}
    {e : Ty} (h : Clean P s ((expandWith onRef expanding key e).run s).2) :
    let v : TyVar := ⟨(s.supply.count : Int) + 1, 0⟩
    let s' : Session := { s with supply := ⟨s.supply.count + 1⟩ }
    ¬ P v.id ∧ Clean P s' ((normalizeWith (onRef v) e).run s').2 := by
  intro v s'
  let run := (normalizeWith (onRef v) e).run s'
  have hstart : s.supply.count + 1 ≤ run.2.supply.count := (quiet_normalizeWith (hquiet v) e s').2
  have hend : run.2.supply.count ≤
      ((closeExpansion expanding key v run.1).run run.2).2.supply.count :=
    (quiet_closeExpansion expanding key v run.1 run.2).2
  change Clean P s ((closeExpansion expanding key v run.1).run run.2).2 at h
  refine ⟨h v.id ?_ ?_, h.of_le (Nat.le_succ _) hend⟩
  · show _ < _ + 1
    omega
  · show _ + 1 ≤ _
    omega

theorem keeps_pure {a : α} (h : I.Sound P → Q I a) : w.Keeps roots I stack Q (pure a) :=
  fun _ hs _ => ⟨I, fun _ _ => id, hs, h hs.sound⟩

theorem Keeps.bind {m : StateM Session α} {f : α → StateM Session β} (hm : Quiet m)
    (hf : ∀ a, Quiet (f a)) (h : w.Keeps roots I stack Q m)
    (hnext : ∀ a I', (∀ id R, I id = some R → I' id = some R) → Q I' a →
      w.Keeps roots I' stack Q' (f a)) : w.Keeps roots I stack Q' (m >>= f) := by
  intro s hs hclean
  have hcount := (hf (m.run s).1 (m.run s).2).2
  obtain ⟨I₁, hle₁, hs₁, ha⟩ := h s hs (hclean.of_le (Nat.le_refl _) hcount)
  obtain ⟨I₂, hle₂, hs₂, hb⟩ := hnext _ I₁ hle₁ ha _ hs₁ (hclean.of_le (hm s).2 (Nat.le_refl _))
  exact ⟨I₂, fun id R h => hle₂ id R (hle₁ id R h), hs₂, hb⟩

/-! ## Normalising -/

/-- A reference is come to while others are being expanded. -/
def At (r : Registry) (roots : Ty → Prop) (stack : Stack) (R : Reference) : Prop :=
  r.Path roots R stack.refs ∧ stack.refs.length ≤ expansionLimit

theorem At.involved (h : At r roots stack R) : r.Involved roots R := ⟨_, h⟩

/-- So are the references that are being expanded around it. -/
theorem At.involved_of_mem (h : At r roots stack R) {S : Reference} (hmem : (S, v) ∈ stack) :
    r.Involved roots S := by
  obtain ⟨Ss, hS, hlt⟩ := h.1.exists_shorter (List.mem_map_of_mem (f := (·.1)) hmem)
  exact ⟨Ss, hS, (Nat.le_of_lt hlt).trans h.2⟩

/-- What becomes of a reference means it.  If it is left to itself, its name is not defined. -/
structure Becomes (w : r.Regular P) (I : Naming) (stack : Stack) (R : Reference) (o : Option Ty) :
    Prop where
  kept : o = none → r.lookup? R.1 = none
  means : ∀ u, o = some u → R.Genuine P → w.Means I stack R.ty u

/-- What becomes of references. -/
def KeepsRefs (w : r.Regular P) (roots : Ty → Prop) (stack : Stack)
    (onRef : String → List Ty → StateM Session (Option Ty)) : Prop :=
  ∀ I R, At r roots stack R →
    w.Keeps roots I stack (fun I o => w.Becomes I stack R o) (onRef R.1 R.2)

variable {onRef : String → List Ty → StateM Session (Option Ty)}

/-- Parts of genuine types. -/
theorem genuine_fn {p q : Ty} (h : (Ty.fn p q).Genuine P) : p.Genuine P ∧ q.Genuine P := by
  obtain ⟨hplain, hover⟩ := h
  cases hplain with
  | fn hp hq => exact ⟨⟨hp, (over_fn.1 hover).1⟩, ⟨hq, (over_fn.1 hover).2⟩⟩

theorem genuine_record {fs : List (String × Ty)} {row : Option TyVar}
    (h : (Ty.record fs row).Genuine P) : Table.Ascending fs ∧ (∀ f ∈ fs, f.2.Genuine P) ∧
      ∀ v, row = some v → P v.id := by
  obtain ⟨hplain, hover⟩ := h
  cases hplain with
  | record _ hasc hfs =>
      obtain ⟨hover, hrow⟩ := over_record.1 hover
      exact ⟨hasc, fun f hf => ⟨hfs f hf, hover f hf⟩, hrow⟩

theorem genuine_tuple {ts : List Ty} (h : (Ty.tuple ts).Genuine P) : ∀ t ∈ ts, t.Genuine P := by
  obtain ⟨hplain, hover⟩ := h
  cases hplain with
  | tuple hts => exact fun t ht => ⟨hts t ht, over_tuple.1 hover t ht⟩

theorem genuine_union {ts : List Ty} (h : (Ty.union ts).Genuine P) : ∀ t ∈ ts, t.Genuine P := by
  obtain ⟨hplain, hover⟩ := h
  cases hplain with
  | union _ hts _ _ => exact fun t ht => ⟨hts t ht, over_union.1 hover t ht⟩

theorem genuine_inter {ts : List Ty} (h : (Ty.inter ts).Genuine P) : ∀ t ∈ ts, t.Genuine P := by
  obtain ⟨hplain, hover⟩ := h
  cases hplain with
  | inter _ hts _ _ => exact fun t ht => ⟨hts t ht, over_inter.1 hover t ht⟩

theorem genuine_ref (h : R.ty.Genuine P) : R.Genuine P := by
  obtain ⟨hplain, hover⟩ := h
  cases hplain with
  | named _ hts => exact fun t ht => ⟨hts t ht, over_named.1 hover t ht⟩

theorem not_genuine_mu {t : Ty} : ¬ (Ty.mu v t).Genuine P := fun h => by
  cases h.plain with
  | mu _ h => exact h

mutual

theorem keeps_normalizeWith (hquiet : ∀ name args, Quiet (onRef name args))
    (hrefs : w.KeepsRefs roots stack onRef) : ∀ {t : Ty} {I : Naming},
    (∀ R ∈ r.visible t, At r roots stack R) →
    w.Keeps roots I stack (fun I x => t.Genuine P → w.Means I stack t x) (normalizeWith onRef t)
  | .var v, I, _ => by
      rw [normalizeWith]
      exact keeps_pure fun hI ht => means_var hI (over_var.1 ht.numbers)
  | .prim name, I, _ => by
      rw [normalizeWith]
      exact keeps_pure fun hI ht => means_genuine hI ht (by rintro id ⟨⟩)
  | .lit value, I, _ => by
      rw [normalizeWith]
      exact keeps_pure fun hI ht => means_genuine hI ht (by rintro id ⟨⟩)
  | .fn p q, I, h => by
      simp only [visible, List.forall_mem_append] at h
      rw [normalizeWith]
      refine (keeps_normalizeWith hquiet hrefs h.1).bind (quiet_normalizeWith hquiet p)
        (fun _ => (quiet_normalizeWith hquiet q).bind fun _ => quiet_pure _) fun p' I₁ _ hp => ?_
      refine (keeps_normalizeWith hquiet hrefs h.2).bind (quiet_normalizeWith hquiet q)
        (fun _ => quiet_pure _) fun q' I₂ hle hq => keeps_pure fun hI ht => ?_
      exact means_fn ((hp (genuine_fn ht).1).mono hI hle) (hq (genuine_fn ht).2)
  | .record fs row, I, h => by
      simp only [visible] at h
      rw [normalizeWith]
      refine (keeps_normalizeFields hquiet hrefs h).bind (quiet_normalizeFields hquiet fs)
        (fun _ => quiet_pure _) fun fs' I₁ _ hfs => keeps_pure fun _ ht => ?_
      obtain ⟨hasc, hgenuine, hrow⟩ := genuine_record ht
      exact means_record hasc (hfs hgenuine) hrow
  | .tuple ts, I, h => by
      simp only [visible] at h
      rw [normalizeWith]
      refine (keeps_normalizeAll hquiet hrefs h).bind (quiet_normalizeAll hquiet ts)
        (fun _ => quiet_pure _) fun ts' I₁ _ hts => keeps_pure fun _ ht => ?_
      exact means_tuple (hts (genuine_tuple ht))
  | .union ts, I, h => by
      simp only [visible] at h
      rw [normalizeWith]
      refine (keeps_normalizeAll hquiet hrefs h).bind (quiet_normalizeAll hquiet ts)
        (fun _ => quiet_pure _) fun ts' I₁ _ hts => keeps_pure fun hI ht => ?_
      exact means_build (k := .union) (hts (genuine_union ht)) hI
  | .inter ts, I, h => by
      simp only [visible] at h
      rw [normalizeWith]
      refine (keeps_normalizeAll hquiet hrefs h).bind (quiet_normalizeAll hquiet ts)
        (fun _ => quiet_pure _) fun ts' I₁ _ hts => keeps_pure fun hI ht => ?_
      exact means_build (k := .inter) (hts (genuine_inter ht)) hI
  | .named name args, I, h => by
      simp only [visible, List.forall_mem_cons] at h
      rw [normalizeWith]
      refine (hrefs I (name, args) h.1).bind (hquiet name args) (fun o => ?_) fun o I₁ _ ho => ?_
      · cases o with
        | some _ => exact quiet_pure _
        | none => exact (quiet_normalizeAll hquiet args).bind fun _ => quiet_pure _
      cases o with
      | some u => exact keeps_pure fun _ ht => ho.means u rfl (genuine_ref ht)
      | none =>
          have hname : r.lookup? name = none := ho.kept rfl
          have hargs := h.2
          simp only [hname, Option.isSome_none, Bool.false_eq_true, if_false] at hargs
          refine (keeps_normalizeAll hquiet hrefs hargs).bind (quiet_normalizeAll hquiet args)
            (fun _ => quiet_pure _) fun args' I₂ _ hargs => keeps_pure fun _ ht => ?_
          exact means_kept (hargs (genuine_ref (R := (name, args)) ht)) hname
  | .mu v t, I, h => by
      simp only [visible] at h
      rw [normalizeWith]
      refine (keeps_normalizeWith hquiet hrefs h).bind (quiet_normalizeWith hquiet t)
        (fun _ => quiet_pure _) fun t' I₁ _ _ => keeps_pure fun _ ht => absurd ht not_genuine_mu

theorem keeps_normalizeAll (hquiet : ∀ name args, Quiet (onRef name args))
    (hrefs : w.KeepsRefs roots stack onRef) : ∀ {ts : List Ty} {I : Naming},
    (∀ R ∈ r.visibleAll ts, At r roots stack R) →
    w.Keeps roots I stack (fun I xs => (∀ t ∈ ts, t.Genuine P) →
      List.Forall₂ (w.Means I stack) ts xs) (normalizeAll onRef ts)
  | [], I, _ => by
      rw [normalizeAll]
      exact keeps_pure fun _ _ => .nil
  | t :: ts, I, h => by
      simp only [visibleAll, List.forall_mem_append] at h
      rw [normalizeAll]
      refine (keeps_normalizeWith hquiet hrefs h.1).bind (quiet_normalizeWith hquiet t)
        (fun _ => (quiet_normalizeAll hquiet ts).bind fun _ => quiet_pure _) fun x I₁ _ hx => ?_
      refine (keeps_normalizeAll hquiet hrefs h.2).bind (quiet_normalizeAll hquiet ts)
        (fun _ => quiet_pure _) fun xs I₂ hle hxs => keeps_pure fun hI hts => ?_
      rw [List.forall_mem_cons] at hts
      exact .cons ((hx hts.1).mono hI hle) (hxs hts.2)

theorem keeps_normalizeFields (hquiet : ∀ name args, Quiet (onRef name args))
    (hrefs : w.KeepsRefs roots stack onRef) : ∀ {fs : List (String × Ty)} {I : Naming},
    (∀ R ∈ r.visibleFields fs, At r roots stack R) →
    w.Keeps roots I stack (fun I gs => (∀ f ∈ fs, f.2.Genuine P) →
      Table.Paired (w.Means I stack) fs gs) (normalizeFields onRef fs)
  | [], I, _ => by
      rw [normalizeFields]
      exact keeps_pure fun _ _ => .nil
  | (name, t) :: fs, I, h => by
      simp only [visibleFields, List.forall_mem_append] at h
      rw [normalizeFields]
      refine (keeps_normalizeWith hquiet hrefs h.1).bind (quiet_normalizeWith hquiet t)
        (fun _ => (quiet_normalizeFields hquiet fs).bind fun _ => quiet_pure _) fun x I₁ _ hx => ?_
      refine (keeps_normalizeFields hquiet hrefs h.2).bind (quiet_normalizeFields hquiet fs)
        (fun _ => quiet_pure _) fun gs I₂ hle hgs => keeps_pure fun hI hfs => ?_
      rw [List.forall_mem_cons] at hfs
      exact .cons ⟨rfl, (hx hfs.1).mono hI hle⟩ (hgs hfs.2)

end

/-! ## Expanding a reference -/

/-- An expansion begins: a genuine reference gets a new binder. -/
theorem Holds.begin (h : w.Holds roots I stack s) (hv : v.id = (s.supply.count : Int) + 1)
    (hP : ¬ P v.id) : ∃ I' : Naming, (∀ id R, I id = some R → I' id = some R) ∧
      w.Holds roots I' ((R, v) :: stack) { s with supply := ⟨s.supply.count + 1⟩ } := by
  have hnew : I v.id = none := by
    cases hI : I v.id with
    | none => rfl
    | some S =>
        have := h.given _ _ hI
        omega
  have hcount : ∀ id R, I id = some R → id ≤ ((s.supply.count + 1 : Nat) : Int) := by
    intro id R hid
    have := h.given id R hid
    omega
  by_cases hR : R.Genuine P
  · let I' : Naming := fun id => if id = v.id then some R else I id
    have hle : ∀ id S, I id = some S → I' id = some S := by
      intro id S hid
      show (if id = v.id then some R else I id) = some S
      rw [if_neg, hid]
      rintro rfl
      rw [hnew] at hid
      cases hid
    have hcases : ∀ id S, I' id = some S → (id = v.id ∧ S = R) ∨ I id = some S := by
      intro id S hid
      change (if id = v.id then some R else I id) = some S at hid
      split at hid
      · next heq => exact .inl ⟨heq, (Option.some.inj hid).symm⟩
      · exact .inr hid
    have hsound : I'.Sound P := by
      intro id S hid
      rcases hcases id S hid with ⟨rfl, rfl⟩ | hid
      · exact ⟨hP, hR⟩
      · exact h.sound id S hid
    refine ⟨I', hle, h.definitions, hsound, fun id S hid => ?_, fun e he hgenuine => ?_,
      fun S u hS hgenuine hu => (h.memo S u hS hgenuine hu).mono hsound hle⟩
    · rcases hcases id S hid with ⟨rfl, -⟩ | hid
      · rw [hv]
        exact le_refl _
      · exact hcount id S hid
    · rcases List.mem_cons.1 he with rfl | he
      · exact if_pos rfl
      · exact hle _ _ (h.pending e he hgenuine)
  · refine ⟨I, fun _ _ => id, h.definitions, h.sound, hcount, fun e he hgenuine => ?_, h.memo⟩
    rcases List.mem_cons.1 he with rfl | he
    · exact absurd hgenuine hR
    · exact h.pending e he hgenuine

/-- An expansion ends, and what became of the reference is remembered, unless it mentions the binder
of an expansion around it. -/
theorem Holds.close (h : w.Holds roots I ((R, v) :: stack) s)
    (hdigests : r.ToldApartByDigest roots) (hat : At r roots stack R) {e body : Ty}
    (he : r.expand? R.1 R.2 = some e)
    (hbody : e.Genuine P → w.Means I ((R, v) :: stack) e body) :
    w.Holds roots I stack ((closeExpansion stack.expanding R.digest v body).run s).2 ∧
      (R.Genuine P → w.Means I stack R.ty (body.tied v)) := by
  have hmeans : R.Genuine P → w.Means I stack R.ty (body.tied v) := fun hR =>
    means_tied h.sound (h.pending _ List.mem_cons_self hR) he (hbody (w.genuine_expand? hR he))
  refine ⟨?_, hmeans⟩
  have hpending : ∀ e ∈ stack, e.1.Genuine P → I e.2.id = some e.1 := fun e he =>
    h.pending e (List.mem_cons_of_mem _ he)
  rw [run_closeExpansion]
  dsimp only
  split
  · exact ⟨h.definitions, h.sound, h.given, hpending, h.memo⟩
  · next hnone =>
      refine ⟨h.definitions, h.sound, h.given, hpending, fun S u hS hgenuine hu => ?_⟩
      dsimp only at hu
      by_cases hdigest : S.digest = R.digest
      · obtain rfl := hdigests S R hS hat.involved hdigest
        rw [Table.get?_insert_self] at hu
        cases hu
        -- What mentions no pending binder has its meaning everywhere.
        have hx := hmeans hgenuine
        refine ⟨hx.coherent, hx.rooted.restrict fun id hid => ?_, hx.agree, hx.head⟩
        rcases hx.rooted.of_mentions hid with (hP | ⟨e, he, rfl⟩) | hP
        · exact .inl hP
        · exact absurd hid (not_mentions_of_mentionsBinder (Bool.eq_false_of_not_eq_true hnone)
            (List.mem_map_of_mem he))
        · exact .inl hP
      · rw [Table.get?_insert_of_ne hdigest] at hu
        exact h.memo S u hS hgenuine hu

/-- A reference that is left as it is means itself. -/
theorem becomes_self (hI : I.Sound P) : w.Becomes I stack R (some R.ty) where
  kept := nofun
  means := by
    rintro _ ⟨⟩ hR
    exact means_genuine hI ⟨hR.plain, over_named.2 fun a ha => (hR a ha).numbers⟩ (by rintro id ⟨⟩)

/-- A reference is expanded while others are. -/
theorem Holds.expand (h : w.Holds roots I stack s) (hdigests : r.ToldApartByDigest roots)
    (hat : At r roots stack R) (hroom : stack.refs.length < expansionLimit) {e : Ty}
    (he : r.expand? R.1 R.2 = some e)
    {onRef : TyVar → String → List Ty → StateM Session (Option Ty)}
    (hquiet : ∀ v name args, Quiet (onRef v name args))
    (hrefs : ∀ v, w.KeepsRefs roots ((R, v) :: stack) (onRef v)) :
    let out := (expandWith onRef stack.expanding R.digest e).run s
    Clean P s out.2 → ∃ I' : Naming, (∀ id S, I id = some S → I' id = some S) ∧
      w.Holds roots I' stack out.2 ∧ w.Becomes I' stack R out.1 := by
  intro out hclean
  let v : TyVar := ⟨(s.supply.count : Int) + 1, 0⟩
  obtain ⟨hv, hclean'⟩ := hclean.inside hquiet
  obtain ⟨I₁, hle₁, hs₁⟩ := h.begin (R := R) (v := v) rfl hv
  have hvisible : ∀ S ∈ r.visible e, At r roots ((R, v) :: stack) S := fun S hS =>
    ⟨.next hat.1 ⟨e, he, hS⟩, hroom⟩
  obtain ⟨I₂, hle₂, hs₂, hbody⟩ :=
    keeps_normalizeWith (hquiet v) (hrefs v) hvisible _ hs₁ hclean'
  obtain ⟨hs₃, hmeans⟩ := hs₂.close hdigests hat he hbody
  refine ⟨I₂, fun id S hid => hle₂ id S (hle₁ id S hid), hs₃, ?_⟩
  refine ⟨by rintro ⟨⟩, fun u hu hR => ?_⟩
  obtain rfl := Option.some.inj hu
  show w.Means I₂ stack R.ty ((closeExpansion _ _ v _).run _).1
  rw [run_closeExpansion]
  exact hmeans hR

/-- References are dealt with while others are being expanded. -/
theorem keeps_normalizeRefStep (hdigests : r.ToldApartByDigest roots)
    {below : Option (Expanding → String → List Ty → StateM Session (Option Ty))}
    (hquiet : ∀ b, below = some b → ∀ expanding name args, Quiet (b expanding name args))
    (hbelow : ∀ b, below = some b → stack.refs.length < expansionLimit ∧
      ∀ R v, w.KeepsRefs roots ((R, v) :: stack) (b ((R.digest, v) :: stack.expanding))) :
    w.KeepsRefs roots stack (normalizeRefStep below stack.expanding) := by
  intro I R hat s hs
  generalize hout : (normalizeRefStep below stack.expanding R.1 R.2).run s = out
  have hself : ∀ {o}, w.Becomes I stack R o → Clean P s s → ∃ I' : Naming,
      (∀ id S, I id = some S → I' id = some S) ∧ w.Holds roots I' stack s ∧
      w.Becomes I' stack R o := fun ho _ => ⟨I, fun _ _ => id, hs, ho⟩
  have hdealt : r.Dealt below stack R s out := hout ▸ dealt_normalizeRefStep hs.definitions
  cases hdealt with
  | @again S b hmem hdigest =>
      refine hself ⟨by rintro ⟨⟩, ?_⟩
      rintro u ⟨⟩ hR
      obtain rfl := hdigests R S hat.involved (hat.involved_of_mem hmem) hdigest.symm
      exact means_again hs.sound (hs.pending _ hmem hR) ⟨_, hmem, rfl⟩
  | remembered _ hmemo =>
      refine hself ⟨by rintro ⟨⟩, ?_⟩
      rintro _ ⟨⟩ hR
      exact (hs.memo R _ hat.involved hR hmemo).anywhere stack
  | unknown _ hd => exact hself ⟨fun _ => hd, by rintro _ ⟨⟩⟩
  | deep => exact hself (becomes_self hs.sound)
  | misfit => exact hself (becomes_self hs.sound)
  | expanded _ _ hb he =>
      exact hs.expand hdigests hat (hbelow _ hb).1 he (fun _ => hquiet _ hb _)
        ((hbelow _ hb).2 R)

theorem keeps_normalizeRef (hdigests : r.ToldApartByDigest roots) : ∀ (allowed : Nat)
    (stack : Stack), stack.refs.length + allowed = expansionLimit →
    w.KeepsRefs roots stack (normalizeRef allowed stack.expanding)
  | 0, stack, _ => by
      rw [normalizeRef]
      exact keeps_normalizeRefStep hdigests (by rintro b ⟨⟩) (by rintro b ⟨⟩)
  | allowed + 1, stack, hlength => by
      rw [normalizeRef]
      refine keeps_normalizeRefStep hdigests ?_ ?_
      · rintro b ⟨⟩
        exact quiet_normalizeRef allowed
      · rintro b ⟨⟩
        refine ⟨by omega, fun R v => keeps_normalizeRef hdigests allowed ((R, v) :: stack) ?_⟩
        simp only [Stack.refs, List.map_cons, List.length_cons] at hlength ⊢
        omega

/-- Normalising one of the types keeps the invariant, and a genuine type becomes what it means. -/
theorem keeps_normalize (hdigests : r.ToldApartByDigest roots) {t : Ty} (ht : roots t) :
    w.Keeps roots I [] (fun I x => t.Genuine P → w.Means I [] t x) (normalize t) :=
  keeps_normalizeWith (quiet_normalizeRef expansionLimit [])
    (keeps_normalizeRef hdigests expansionLimit [] (Nat.zero_add _))
    fun _ hR => ⟨.start ht hR, Nat.zero_le _⟩

end Regular

/-! ## Histories -/

/-- What happens to a session: an unknown is made, or a type is normalised. -/
inductive Event where
  | unknown (level : Int)
  | normalize (t : Ty)

/-- The session after an event. -/
def Event.after (s : Session) : Event → Session
  | .unknown level => ((freshVar level).run s).2
  | .normalize t => ((Registry.normalize t).run s).2

/-- The session after a history. -/
def history (s : Session) (events : List Event) : Session := events.foldl Event.after s

/-- The number was given to a binder in the course of a history, when some type was normalised. -/
def GivenToBinder : Session → List Event → Int → Prop
  | _, [], _ => False
  | s, .unknown level :: events, id => GivenToBinder (Event.after s (.unknown level)) events id
  | s, .normalize t :: events, id =>
    (s.supply.count : Int) < id ∧ id ≤ ((Event.after s (.normalize t)).supply.count : Int) ∨
      GivenToBinder (Event.after s (.normalize t)) events id

/-- Binders are given numbers that are new. -/
theorem GivenToBinder.count_lt : ∀ {events : List Event} {s : Session} {id : Int},
    GivenToBinder s events id → (s.supply.count : Int) < id
  | .unknown level :: _, s, id, h => by
      have hlt := count_lt (s := Event.after s (.unknown level)) h
      change ((s.supply.count + 1 : Nat) : Int) < id at hlt
      omega
  | .normalize t :: _, s, id, h => by
      have hle : s.supply.count ≤ (Event.after s (.normalize t)).supply.count :=
        (quiet_normalize t s).2
      rcases h with ⟨h, -⟩ | h
      · exact h
      · have := count_lt h
        omega

namespace Regular

variable {r : Registry} {P : Int → Prop} {w : r.Regular P} {roots : Ty → Prop}

/-- A history keeps the invariant. -/
theorem Holds.history (hdigests : r.ToldApartByDigest roots) : ∀ {events : List Event} {s : Session}
    {I : Naming}, w.Holds roots I [] s → (∀ u, .normalize u ∈ events → roots u) →
    (∀ id, GivenToBinder s events id → ¬ P id) →
    ∃ I', w.Holds roots I' [] (Registry.history s events)
  | [], _, I, h, _, _ => ⟨I, h⟩
  | .unknown level :: events, s, I, h, hroots, hP => by
      have hnext : w.Holds roots I [] (Event.after s (.unknown level)) := by
        refine ⟨h.definitions, h.sound, fun id R hid => ?_, h.pending, h.memo⟩
        have := h.given id R hid
        show id ≤ ((s.supply.count + 1 : Nat) : Int)
        omega
      exact hnext.history hdigests (fun u hu => hroots u (List.mem_cons_of_mem _ hu)) hP
  | .normalize t :: events, s, I, h, hroots, hP => by
      obtain ⟨I', -, hnext, -⟩ := keeps_normalize hdigests (hroots t List.mem_cons_self) s h
        fun id hlo hhi => hP id (.inl ⟨hlo, hhi⟩)
      exact hnext.history hdigests (fun u hu => hroots u (List.mem_cons_of_mem _ hu))
        fun id hid => hP id (.inr hid)

theorem holds_start {s : Session} {w : s.registry.Regular P} (h : s.registry.memo = []) :
    w.Holds roots (fun _ => none) [] s where
  definitions := rfl
  sound := nofun
  given := nofun
  pending := nofun
  memo R u _ _ hu := by
    rw [h] at hu
    cases hu

end Regular

/-- A type without recursion has the same approximations as its normal form, to every depth and
after every history, if definitions are closed, have no recursion and come back to themselves only
below constructors.  The numbers of unknowns that the type is made of are none of those that
binders were given, and the references that are looked up have different digests. -/
theorem agree_normalize {P : Int → Prop} {s : Session} (w : s.registry.Regular P)
    (hmemo : s.registry.memo = []) (events : List Event) {t : Ty} (ht : t.Plain)
    (hover : t.Over P) (hP : ∀ id, P id → ¬ GivenToBinder s (events ++ [.normalize t]) id)
    (hdigests : s.registry.ToldApartByDigest fun u => .normalize u ∈ events ++ [.normalize t])
    (n : Nat) : s.registry.Agree n t ((normalize t).run (history s events)).1 := by
  have hsplit : ∀ {events : List Event} {s : Session} {id : Int},
      GivenToBinder s events id ∨ GivenToBinder (history s events) [.normalize t] id →
      GivenToBinder s (events ++ [.normalize t]) id := by
    intro events
    induction events with
    | nil => exact fun h => h.resolve_left id
    | cons event events ih =>
        intro s id h
        cases event with
        | unknown level => exact ih h
        | normalize u =>
            rcases h with (h | h) | h
            · exact .inl h
            · exact .inr (ih (.inl h))
            · exact .inr (ih (.inr h))
  have hroots : ∀ u, Event.normalize u ∈ events → .normalize u ∈ events ++ [.normalize t] :=
    fun u hu => List.mem_append_left _ hu
  obtain ⟨I, hI⟩ := (Regular.holds_start (w := w) hmemo).history hdigests hroots
    fun id hid h => hP id h (hsplit (.inl hid))
  obtain ⟨I', -, hI', hmeans⟩ := Regular.keeps_normalize hdigests (t := t)
    (List.mem_append_right _ (List.mem_singleton.2 rfl)) _ hI
    fun id hlo hhi h => hP id h (hsplit (.inr (.inl ⟨hlo, hhi⟩)))
  exact (hmeans ⟨ht, hover⟩).agree_self hI'.sound n

/-! ## Sufficient conditions -/

variable {r : Registry} {roots : Ty → Prop}

/-- Constructors stand at the head of a type, below unions and intersections. -/
inductive Headed : Ty → Prop where
  | head {t : Ty} : t.isConstructed = true → Headed t
  | union {ts : List Ty} : (∀ t ∈ ts, Headed t) → Headed (.union ts)
  | inter {ts : List Ty} : (∀ t ∈ ts, Headed t) → Headed (.inter ts)

theorem headed_of {k : Compound} {ts : List Ty} : Headed (k.of ts) ↔ ∀ t ∈ ts, Headed t := by
  cases k with
  | union => exact ⟨fun h => by cases h with | head h => cases h | union h => exact h, .union⟩
  | inter => exact ⟨fun h => by cases h with | head h => cases h | inter h => exact h, .inter⟩

theorem Headed.apply {t : Ty} (h : Headed t) (s : Subst) : Headed (s.apply t) := by
  have hof : ∀ {k : Compound} {ts : List Ty}, (∀ t ∈ ts, Headed t) →
      (∀ t ∈ ts, Headed (s.apply t)) → Headed (s.apply (k.of ts)) := by
    intro k ts hts ih
    cases hs : s.isEmpty with
    | true =>
        rw [Subst.apply_of_isEmpty hs]
        exact headed_of.2 hts
    | false =>
        rw [Subst.apply_of hs]
        exact Compound.build_of (fun _ => headed_of) (List.forall_mem_map.2 ih)
  induction h with
  | head h => exact .head (isConstructed_apply h)
  | union hts ih => exact hof (k := .union) hts ih
  | inter hts ih => exact hof (k := .inter) hts ih

theorem Headed.acc {t : Ty} (h : Headed t) : Acc r.Opens t := by
  induction h with
  | head h => exact .intro _ fun u hu => by cases hu <;> cases h
  | union _ ih => exact .intro _ fun u hu => by cases hu with | union hu => exact ih u hu
  | inter _ ih => exact .intro _ fun u hu => by cases hu with | inter hu => exact ih u hu

/-- A sufficient condition: at the heads of all definitions are constructors. -/
theorem guarded_of_headed (h : ∀ name d, r.lookup? name = some d → Headed d.body) :
    r.Guarded := by
  have hexpand : ∀ name args t, r.expand? name args = some t → Acc r.Opens t := by
    intro name args t ht
    obtain ⟨d, hd, ht⟩ := Option.bind_eq_some_iff.1 ht
    unfold Definition.expand? at ht
    split at ht
    · cases ht
      exact ((h name d hd).apply _).acc
    · cases ht
  have hall : ∀ l, ∀ t : Ty, t.tower ≤ l → Acc r.Opens t := by
    intro l
    induction l with
    | zero =>
        intro t ht
        refine .intro _ fun u hu => ?_
        cases hu with
        | union _ | inter _ => simp [tower] at ht
        | expand he => exact hexpand _ _ _ he
    | succ l ih =>
        intro t ht
        refine .intro _ fun u hu => ?_
        cases hu with
        | union hu => exact ih u (Nat.le_of_lt_succ ((tower_lt_of (k := .union) hu).trans_le ht))
        | inter hu => exact ih u (Nat.le_of_lt_succ ((tower_lt_of (k := .inter) hu).trans_le ht))
        | expand he => exact hexpand _ _ _ he
  exact ⟨fun t => hall _ t (Nat.le_refl _)⟩

/-- A sufficient condition: the types use few references, with different digests. -/
theorem toldApartByDigest_of_mem (refs : List Reference)
    (hroots : ∀ u, roots u → ∀ R ∈ r.visible u, R ∈ refs)
    (hstep : ∀ R ∈ refs, ∀ e, r.expand? R.1 R.2 = some e → ∀ S ∈ r.visible e, S ∈ refs)
    (hdigests : ∀ R ∈ refs, ∀ S ∈ refs, R.digest = S.digest → R = S) :
    r.ToldApartByDigest roots := by
  have hmem : ∀ {R Rs}, r.Path roots R Rs → R ∈ refs := by
    intro R Rs h
    induction h with
    | start hu hR => exact hroots _ hu _ hR
    | next _ hshows ih =>
        obtain ⟨e, he, hS⟩ := hshows
        exact hstep _ ih e he _ hS
  rintro R S ⟨_, hR, -⟩ ⟨_, hS, -⟩
  exact hdigests R (hmem hR) S (hmem hS)

/-- Streams, the rest of which is either forced or at its end. -/
def streamDefinition : Definition :=
  { name := "Stream", params := [⟨9, 0⟩]
    body := .record [("head", .var ⟨9, 0⟩), ("rest", .named "Later" [.var ⟨9, 0⟩])] none }

def laterDefinition : Definition :=
  { name := "Later", params := [⟨9, 0⟩]
    body := .record [("force", .union [.lit "end", .named "Stream" [.var ⟨9, 0⟩]])] none }

def streams : Session :=
  { supply := ⟨1⟩
    registry :=
      { definitions := [("Later", laterDefinition), ("Stream", streamDefinition)] } }

theorem expand?_stream :
    streams.registry.expand? "Stream" [.var ⟨1, 0⟩] =
      some (.record [("head", .var ⟨1, 0⟩), ("rest", .named "Later" [.var ⟨1, 0⟩])] none) := by
  rfl

theorem expand?_later :
    streams.registry.expand? "Later" [.var ⟨1, 0⟩] =
      some (.record [("force", .union [.lit "end", .named "Stream" [.var ⟨1, 0⟩]])] none) := by
  show some ((Subst.single ⟨9, 0⟩ (.var ⟨1, 0⟩)).apply laterDefinition.body) = _
  have hstream : (Subst.single ⟨9, 0⟩ (.var ⟨1, 0⟩)).apply (.named "Stream" [.var ⟨9, 0⟩]) =
      .named "Stream" [.var ⟨1, 0⟩] := rfl
  rw [laterDefinition, Subst.apply_closed, List.map_singleton, Subst.apply_union rfl]
  simp [hstream, Subst.apply_lit, unionOf, unionOf?, alternativesAll, alternatives, distinct,
    addDistinct, equiv, equivUnder]

theorem lookup?_streams {name : String} {d : Definition}
    (h : streams.registry.lookup? name = some d) : d = laterDefinition ∨ d = streamDefinition := by
  simp only [streams, lookup?, Table.get?] at h
  split at h
  · exact .inl (Option.some.inj h).symm
  · split at h
    · exact .inr (Option.some.inj h).symm
    · cases h

theorem regular_streams : streams.registry.Regular (· = 1) where
  plain name d h := by
    have hnamed : ∀ name, (Ty.named name [.var ⟨9, 0⟩]).Plain := fun name =>
      .named name (List.forall_mem_singleton.2 (.var _))
    rcases lookup?_streams h with rfl | rfl
    · refine .record _ (List.pairwise_singleton _ _) (List.forall_mem_singleton.2 ?_)
      refine .union (by decide) ?_ (by simp) (by simp [equiv, equivUnder])
      exact List.forall_mem_cons.2 ⟨.lit _, List.forall_mem_singleton.2 (hnamed _)⟩
    · refine .record _ (List.pairwise_pair.2 (by decide)) ?_
      exact List.forall_mem_cons.2 ⟨.var _, List.forall_mem_singleton.2 (hnamed _)⟩
  guarded := by
    refine guarded_of_headed fun name d h => ?_
    rcases lookup?_streams h with rfl | rfl <;> exact .head rfl
  closed name d h := by
    have hnamed : ∀ name, (Ty.named name [.var ⟨9, 0⟩]).Rooted (· = 1) (· = 9) := fun name =>
      .named (List.forall_mem_singleton.2 (.var rfl))
    have hparams : (fun id => ∃ v ∈ [(⟨9, 0⟩ : TyVar)], v.id = id) = (· = (9 : Int)) := by
      simp [eq_comm]
    rcases lookup?_streams h with rfl | rfl <;>
      simp only [laterDefinition, streamDefinition, hparams]
    · refine .record (List.forall_mem_singleton.2 (.union ?_)) (by rintro v ⟨⟩)
      exact List.forall_mem_cons.2 ⟨.lit _, List.forall_mem_singleton.2 (hnamed _)⟩
    · refine .record ?_ (by rintro v ⟨⟩)
      exact List.forall_mem_cons.2 ⟨.var rfl, List.forall_mem_singleton.2 (hnamed _)⟩

def stream : Ty := .named "Stream" [.var ⟨1, 0⟩]

def later : Ty := .named "Later" [.var ⟨1, 0⟩]

/-- What is left of a stream that was normalised before, in which the rest comes back to it. -/
theorem agree_normalize_later :
    streams.registry.Regular (· = 1) ∧ later.Plain ∧ later.Over (· = 1) ∧
    (∀ id : Int, id = 1 →
      ¬ GivenToBinder streams ([.normalize stream, .unknown 0] ++ [.normalize later]) id) ∧
    (streams.registry.ToldApartByDigest fun u =>
      Event.normalize u ∈ [Event.normalize stream, .unknown 0] ++ [.normalize later]) ∧
    streams.registry.Agree 5 later
      ((normalize later).run (history streams [.normalize stream, .unknown 0])).1 := by
  have hplain : later.Plain := .named _ (List.forall_mem_singleton.2 (.var _))
  have hover : later.Over (· = 1) := by simp [later]
  have hgiven : ∀ id : Int, id = 1 →
      ¬ GivenToBinder streams ([.normalize stream, .unknown 0] ++ [.normalize later]) id :=
    fun id hid h => by
      have : ((1 : Nat) : Int) < id := h.count_lt
      omega
  have hapart : streams.registry.ToldApartByDigest fun u =>
      Event.normalize u ∈ [Event.normalize stream, .unknown 0] ++ [.normalize later] := by
    have hlater : (streams.registry.lookup? "Later").isSome := rfl
    have hstream : (streams.registry.lookup? "Stream").isSome := rfl
    refine toldApartByDigest_of_mem [("Later", [.var ⟨1, 0⟩]), ("Stream", [.var ⟨1, 0⟩])] ?_ ?_ ?_
    · intro u hu
      have hu : u = stream ∨ u = later := by simpa using hu
      rcases hu with rfl | rfl <;> simp [stream, later, visible, hlater, hstream]
    · simp only [List.forall_mem_cons, expand?_stream, expand?_later]
      refine ⟨?_, ?_, List.forall_mem_nil _⟩ <;> rintro _ ⟨⟩ <;>
        simp [visible, visibleAll, visibleFields, hlater, hstream]
    · have : Reference.digest ("Later", [.var ⟨1, 0⟩]) ≠
          Reference.digest ("Stream", [.var ⟨1, 0⟩]) := by decide +kernel
      simp [this, this.symm]
  exact ⟨regular_streams, hplain, hover, hgiven, hapart,
    agree_normalize regular_streams rfl _ hplain hover hgiven hapart 5⟩

end Registry

end RowTypes
