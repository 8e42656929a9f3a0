import RowTypes.Proofs.CoherentTypes
import RowTypes.Proofs.KindedTypes
import RowTypes.Proofs.Remembering

/-!
# What normal forms mean

What becomes of a type when it is normalised means what the type means, if each binder stands for
the reference that it was made for.  `Means` says so of a type and its normal form, while the
references around it are being expanded, and there is one lemma for each constructor and for each
thing that may become of a reference.  They are about genuine types, which lead to no other types
when references are expanded.
-/

namespace RowTypes

open Ty

/-! ## Expansions of genuine types -/

section Expansions

variable {P V : Int → Prop} {s : Subst} {t : Ty}

/-- What comes out of a closed type when its unknowns are replaced is made of what they are
replaced by. -/
theorem Ty.Rooted.over_apply (h : t.Plain) (ht : t.Rooted P V)
    (hV : ∀ id, V id → s.get? id = none → P id) (hs : ∀ id u, s.get? id = some u → u.Over P) :
    (s.apply t).Over P := by
  induction h with
  | var v =>
      rw [Subst.apply_var]
      cases hv : s.get? v.id with
      | none => cases ht with | var hid => exact over_var.2 (hV _ hid hv)
      | some u => exact hs _ u hv
  | prim name => rw [Subst.apply_prim]; exact over_prim
  | lit value => rw [Subst.apply_lit]; exact over_lit
  | fn _ _ ihp ihq =>
      cases ht with
      | fn hp hq => rw [Subst.apply_fn]; exact over_fn.2 ⟨ihp hp, ihq hq⟩
  | @record fs row _ _ ih =>
      obtain ⟨hfs, hrow⟩ := rooted_record.1 ht
      have hfs : ∀ f ∈ fs.map fun f => (f.1, s.apply f.2), f.2.Over P :=
        List.forall_mem_map.2 fun f hf => ih f hf (hfs f hf)
      cases row with
      | none => rw [Subst.apply_closed]; exact over_record.2 ⟨hfs, hrow⟩
      | some v =>
          rw [Subst.apply_open]
          exact RecordTy.over_splice (over_record.2 ⟨hfs, hrow⟩) (hs v.id)
  | tuple _ ih =>
      rw [Subst.apply_tuple]
      exact over_tuple.2 (List.forall_mem_map.2 fun t ht' => ih t ht' (rooted_tuple.1 ht t ht'))
  | @union ts hlen hts hflat hdistinct ih =>
      have happly : s.apply (.union ts) = unionOf (ts.map s.apply) :=
        Built.apply_of (k := .union) (.union hlen hts hflat hdistinct)
      rw [happly]
      exact over_unionOf (List.forall_mem_map.2 fun t ht' => ih t ht' (rooted_union.1 ht t ht'))
  | @inter ts hlen hts hflat hdistinct ih =>
      have happly : s.apply (.inter ts) = interOf (ts.map s.apply) :=
        Built.apply_of (k := .inter) (.inter hlen hts hflat hdistinct)
      rw [happly]
      exact of_interOf (fun _ => over_inter)
        (List.forall_mem_map.2 fun t ht' => ih t ht' (rooted_inter.1 ht t ht'))
  | named name _ ih =>
      cases ht with
      | named hts =>
          rw [Subst.apply_named]
          exact over_named.2 (List.forall_mem_map.2 fun t ht => ih t ht (hts t ht))
  | mu _ h => exact h.elim

theorem Registry.Regular.genuine_expand? {r : Registry} (w : r.Regular P) {R : Reference}
    (hR : R.Genuine P) {e : Ty} (he : r.expand? R.1 R.2 = some e) : e.Genuine P := by
  refine ⟨w.plain.built_expand? (fun a ha => (hR a ha).plain) he, ?_⟩
  obtain ⟨d, hd, he⟩ := Option.bind_eq_some_iff.1 he
  unfold Definition.expand? at he
  split at he
  · next hlen =>
      cases he
      refine (w.closed _ d hd).over_apply (w.plain _ d hd) (fun id hid hnone => ?_) fun id u hu => ?_
      · -- A parameter that is not replaced is among the arguments itself.
        obtain ⟨u, hu, v, rfl, rfl⟩ := Definition.exists_arg_of_get? hlen hid hnone
        exact over_var.1 (hR _ hu).numbers
      · obtain ⟨b, hb, -, rfl⟩ := Subst.mem_of_get?_ofList hu
        exact (hR _ (List.of_mem_zip hb).2).numbers
  · cases he

end Expansions

namespace Registry

/-- The number is that of the binder of an expansion that is going on. -/
def Stack.Pending (stack : Stack) (id : Int) : Prop := ∃ e ∈ stack, e.2.id = id

namespace Regular

variable {r : Registry} {P : Int → Prop} {w : r.Regular P} {I I' : Naming} {stack : Stack}
  {R : Reference} {t u x : Ty} {ts xs : List Ty} {k : Compound} {v : TyVar} {s : Session}
  {roots : Ty → Prop} {α β : Type}

/-! ## What a normal form means -/

/-- A type means what another one means, while some references are being expanded: it is read as
something that agrees with the other type, its free binders are those of the references that are
being expanded, and what stands at its head stands no higher than the other type. -/
structure Means (w : r.Regular P) (I : Naming) (stack : Stack) (t x : Ty) : Prop where
  coherent : w.Coherent I x
  rooted : x.Rooted P fun id => P id ∨ stack.Pending id
  agree : ∀ n, r.Agree n t (I.folded x)
  head : ∀ id S, x.Bare id → I id = some S → w.height S ≤ w.guarded.height t

theorem Means.reads (h : w.Means I stack t x) : w.Reads I t x := ⟨h.coherent, h.agree⟩

theorem Reads.means (h : w.Reads I t x) (hx : x.Rooted P fun id => P id ∨ stack.Pending id)
    (head : ∀ id S, x.Bare id → I id = some S → w.height S ≤ w.guarded.height t) :
    w.Means I stack t x := ⟨h.coherent, hx, h.agree, head⟩

theorem Means.mono (h : w.Means I stack t x) (hI' : I'.Sound P)
    (hle : ∀ id R, I id = some R → I' id = some R) : w.Means I' stack t x := by
  obtain ⟨hcoherent, hfolded⟩ := h.coherent.mono hI' hle
  refine ⟨hcoherent, h.rooted, fun n => hfolded ▸ h.agree n, fun id S hid hS => ?_⟩
  rcases h.coherent.of_bare hid with hP | hsome
  · rw [hI'.eq_none hP] at hS
    cases hS
  · obtain ⟨Q, hQ⟩ := Option.isSome_iff_exists.1 hsome
    obtain rfl := Option.some.inj (hS.symm.trans (hle id Q hQ))
    exact h.head id S hid hQ

/-- What was made while nothing was being expanded has its meaning everywhere. -/
theorem Means.anywhere (h : w.Means I [] t x) (stack : Stack) : w.Means I stack t x :=
  ⟨h.coherent, h.rooted.mono (fun _ hid => .inl (hid.resolve_right fun ⟨_, he, _⟩ => nomatch he))
    fun _ => .inl, h.agree, h.head⟩

/-- A normal form in which no binder is free has the approximations of the type. -/
theorem Means.agree_self (hI : I.Sound P) (h : w.Means I [] t x) (n : Nat) : r.Agree n t x := by
  refine (h.agree n).trans (h.coherent.agree_folded hI ?_ n).symm
  exact h.rooted.mono (fun _ hid => hid.resolve_right fun ⟨_, he, _⟩ => nomatch he) fun _ => id

/-- Genuine types mean themselves. -/
theorem means_genuine (hI : I.Sound P) (h : t.Genuine P) (hbare : ∀ id, ¬ t.Bare id) :
    w.Means I stack t t where
  coherent := coherent_of_genuine h
  rooted := h.numbers.rooted fun _ => .inl
  agree n := by
    rw [hI.folded_eq_self h]
    exact (clear_of_plain h.plain).agree_self w.plain w.guarded n
  head id _ hid := absurd hid (hbare id)

theorem means_var (hI : I.Sound P) (hv : P v.id) : w.Means I stack (.var v) (.var v) where
  coherent := .var (.inl hv)
  rooted := .var (.inl hv)
  agree n := by
    rw [Naming.folded, Naming.refer_of_none (hI.eq_none hv)]
    exact (clear_of_plain (.var v)).agree_self w.plain w.guarded n
  head id S hid hS := by
    cases hid with
    | var hid =>
        rw [← hid, hI.eq_none hv] at hS
        cases hS

/-- The binder of a reference that is being expanded means the reference. -/
theorem means_again (hI : I.Sound P) (hv : I v.id = some R) (hpending : stack.Pending v.id) :
    w.Means I stack R.ty (.var v) := by
  have hreads : w.Reads I R.ty (.var v) := reads_ref (.var (.inr (by rw [hv]; rfl)))
    (hI _ R hv).2 (Naming.refer_of_some hv)
  refine hreads.means (.var (.inr hpending)) fun id S hid hS => ?_
  cases hid with
  | var hid =>
      obtain rfl := Option.some.inj (hv.symm.trans (hid ▸ hS))
      exact le_refl _

theorem means_fn {p q p' q' : Ty} (hp : w.Means I stack p p') (hq : w.Means I stack q q') :
    w.Means I stack (.fn p q) (.fn p' q') :=
  (reads_fn hp.reads hq.reads).means (.fn hp.rooted hq.rooted) (by rintro id S ⟨⟩)

/-! Lists of normal forms -/

section Lists

variable (h : List.Forall₂ (w.Means I stack) ts xs)

include h

theorem reads_of_means : List.Forall₂ (w.Reads I) ts xs := h.imp fun _ _ => Means.reads

theorem rooted_of_means : ∀ x ∈ xs, x.Rooted P fun id => P id ∨ stack.Pending id :=
  forall_of_forall₂ h fun _ _ h => h.rooted

theorem means_tuple : w.Means I stack (.tuple ts) (.tuple xs) :=
  (reads_tuple (reads_of_means h)).means (.tuple (rooted_of_means h)) (by rintro id S ⟨⟩)

theorem means_kept {name : String} (hname : r.lookup? name = none) :
    w.Means I stack (.named name ts) (.named name xs) :=
  (reads_kept (reads_of_means h) (by rw [expand?, hname]; rfl)).means (.named (rooted_of_means h))
    (by rintro id S ⟨⟩)

theorem means_build (hI : I.Sound P) : w.Means I stack (k.of ts) (k.build xs) := by
  refine (reads_build hI (reads_of_means h)).means ?_ fun id S hid hS => ?_
  · refine Compound.build_of (fun ts => ?_) (rooted_of_means h)
    cases k with
    | union => exact rooted_union
    | inter => exact rooted_inter
  · obtain ⟨x, hx, hid⟩ := Compound.bare_build hid
    obtain ⟨t, ht, h⟩ := forall₂_left h.flip x hx
    exact (h.head id S hid hS).trans (le_of_lt (w.guarded.height_lt (opens_of ht)))

end Lists

theorem means_record {fs gs : List (String × Ty)} {row : Option TyVar} (hasc : Table.Ascending fs)
    (h : Table.Paired (w.Means I stack) fs gs) (hrow : ∀ v, row = some v → P v.id) :
    w.Means I stack (.record fs row) (.record gs row) :=
  (reads_record hasc (h.imp fun _ _ => Means.reads) hrow).means
    (.record (fun g hg => have ⟨_, h⟩ := h.exists_left g hg; h.rooted) hrow) (by rintro id S ⟨⟩)

/-- A reference means what its expansion means, once its binder is tied. -/
theorem means_tied (hI : I.Sound P) (hv : I v.id = some R) (he : r.expand? R.1 R.2 = some t)
    (h : w.Means I ((R, v) :: stack) t x) : w.Means I stack R.ty (x.tied v) := by
  have hexpand : ∀ n, r.Agree n R.ty (I.folded x) := agree_of_succ fun n =>
    (agree_expand he (h.agree _).left).trans (h.agree _)
  have hlow : ∀ id S, x.Bare id → I id = some S → w.height S < w.height R := fun id S hid hS =>
    lt_of_le_of_lt (h.head id S hid hS) (w.guarded.height_lt (.expand he))
  have hfree : ∀ id, (x.tied v).Mentions id → P id ∨ stack.Pending id := by
    intro id hid
    obtain ⟨hne, hid⟩ := mentions_tied hid
    rcases h.rooted.of_mentions hid with (hP | ⟨e, he, rfl⟩) | hP
    · exact .inl hP
    · rcases List.mem_cons.1 he with rfl | he
      · exact absurd rfl hne
      · exact .inr ⟨e, he, rfl⟩
    · exact .inl hP
  unfold tied at hfree ⊢
  split at hfree
  · next hocc =>
      rw [if_pos hocc]
      refine ⟨.mu hv h.coherent hlow hexpand, ?_, fun n => ?_, fun id S hid hS => ?_⟩
      · refine Rooted.restrict (V := fun id => P id ∨ Stack.Pending ((R, v) :: stack) id) ?_ hfree
        exact .mu (h.rooted.mono (fun _ => .inr) fun _ hid => .inr (.inl hid))
      · rw [Naming.folded, Naming.refer_of_some hv]
        exact w.agree_ref (hI _ R hv).2 n
      · cases hid with
        | mu _ hid => exact le_of_lt (hlow id S hid hS)
  · next hocc =>
      rw [if_neg hocc]
      exact ⟨h.coherent, h.rooted.restrict hfree, hexpand,
        fun id S hid hS => le_of_lt (hlow id S hid hS)⟩

end Regular

end Registry

end RowTypes
