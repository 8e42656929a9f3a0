import RowTypes.Proofs.Alternatives
import RowTypes.Proofs.Renumbering

/-!
# Substitutions that differ in their numbers

Two substitutions are alike when they send numbers that correspond to types that are alike, and
bind no others.  Applied to types that are alike they give types that are alike: what is looked up
corresponds, unions and intersections are built in the same way, and whether nothing is bound at
all, when a type is left as it is, is seen on both sides or on neither.  So definitions that differ
in their numbers expand in the same way, and recursive types unfold in the same way.
-/

namespace RowTypes

open Ty

variable {F : Int → Int → Prop}

namespace Ty

theorem AlikeFields.underlay {fs fs' more more' : List (String × Ty)} (h : AlikeFields F fs fs')
    (hmore : AlikeFields F more more') :
    AlikeFields F (Table.underlay fs more) (Table.underlay fs' more') := by
  induction more generalizing more' fs fs' with
  | nil => cases hmore; exact h
  | cons f more ih =>
      cases hmore with
      | @cons name t t' _ more' ht hmore =>
          rw [Table.underlay_cons, Table.underlay_cons]
          rw [(alikeFields_iff_paired.1 h).has_eq name]
          split
          · exact ih h hmore
          · exact ih (.insert name ht h) hmore

theorem AlikeAll.unionOf (hF : OneToOne F) {ts ts' : List Ty} (h : AlikeAll F ts ts') :
    Alike F (unionOf ts) (unionOf ts') := by
  have hunion := h.unionOf? hF
  unfold Ty.unionOf
  generalize Ty.unionOf? ts = x at hunion ⊢
  generalize Ty.unionOf? ts' = x' at hunion ⊢
  cases hunion with
  | none => exact .union .nil
  | some h => exact h

theorem AlikeAll.interOf (hF : OneToOne F) {ts ts' : List Ty} (h : AlikeAll F ts ts') :
    Alike F (interOf ts) (interOf ts') := by
  have hinter := h.interOf? hF
  unfold Ty.interOf
  generalize Ty.interOf? ts = x at hinter ⊢
  generalize Ty.interOf? ts' = x' at hinter ⊢
  cases hinter with
  | none => exact .inter .nil
  | some h => exact h

mutual

/-- An unknown occurs on both sides or on neither. -/
theorem Alike.occurs_eq (hF : OneToOne F) {v w : TyVar} (hv : v.Alike F w) :
    ∀ {t t' : Ty}, Alike F t t' → t.occurs v = t'.occurs w
  | _, _, .var h => by
      rw [occurs, occurs, Bool.eq_iff_iff, beq_iff_eq, beq_iff_eq]
      exact hF h.1 hv.1
  | _, _, .prim _ | _, _, .lit _ => rfl
  | _, _, .fn hp hr => by rw [occurs, occurs, hp.occurs_eq hF hv, hr.occurs_eq hF hv]
  | _, _, .record hfs hrow => by
      rw [occurs, occurs, hfs.occurs_eq hF hv]
      congr 1
      cases hrow with
      | none => rfl
      | some h =>
          rw [Option.any_some, Option.any_some, Bool.eq_iff_iff, beq_iff_eq, beq_iff_eq]
          exact hF h.1 hv.1
  | _, _, .tuple h | _, _, .union h | _, _, .inter h | _, _, .named _ h => h.occurs_eq hF hv
  | _, _, .mu h ht => by
      rw [occurs, occurs, ht.occurs_eq hF hv]
      congr 1
      rw [Bool.eq_iff_iff, bne_iff_ne, bne_iff_ne, Ne, Ne, hF h.1 hv.1]

theorem AlikeAll.occurs_eq (hF : OneToOne F) {v w : TyVar} (hv : v.Alike F w) :
    ∀ {ts ts' : List Ty}, AlikeAll F ts ts' → occursAny v ts = occursAny w ts'
  | _, _, .nil => rfl
  | _, _, .cons ht hts => by
      rw [occursAny, occursAny, ht.occurs_eq hF hv, hts.occurs_eq hF hv]

theorem AlikeFields.occurs_eq (hF : OneToOne F) {v w : TyVar} (hv : v.Alike F w) :
    ∀ {fs fs' : List (String × Ty)}, AlikeFields F fs fs' → occursFields v fs = occursFields w fs'
  | _, _, .nil => rfl
  | _, _, .cons _ ht hfs => by
      rw [occursFields, occursFields, ht.occurs_eq hF hv, hfs.occurs_eq hF hv]

end

mutual

/-- A type is like itself if its numbers correspond to themselves. -/
theorem Alike.refl : ∀ {t : Ty}, t.Over (fun id => F id id) → Alike F t t
  | .var v, h => .var ⟨(over_var (v := v) (P := fun id => F id id)).1 h, rfl⟩
  | .prim name, _ => .prim name
  | .lit value, _ => .lit value
  | .fn _ _, h => .fn (Alike.refl (over_fn.1 h).1) (Alike.refl (over_fn.1 h).2)
  | .record _ row, h => by
      refine .record (AlikeFields.refl (over_record.1 h).1) ?_
      cases row with
      | none => exact .none
      | some v => exact .some ⟨(over_record.1 h).2 v rfl, rfl⟩
  | .tuple _, h => .tuple (AlikeAll.refl (over_tuple.1 h))
  | .union _, h => .union (AlikeAll.refl (over_union.1 h))
  | .inter _, h => .inter (AlikeAll.refl (over_inter.1 h))
  | .named name _, h => .named name (AlikeAll.refl (over_named.1 h))
  | .mu _ _, h => .mu ⟨(over_mu.1 h).1, rfl⟩ (Alike.refl (over_mu.1 h).2)

theorem AlikeAll.refl : ∀ {ts : List Ty}, (∀ t ∈ ts, t.Over fun id => F id id) → AlikeAll F ts ts
  | [], _ => .nil
  | t :: _, h => .cons (Alike.refl (h t List.mem_cons_self))
      (AlikeAll.refl fun u hu => h u (List.mem_cons_of_mem _ hu))

theorem AlikeFields.refl : ∀ {fs : List (String × Ty)},
    (∀ f ∈ fs, f.2.Over fun id => F id id) → AlikeFields F fs fs
  | [], _ => .nil
  | (name, _) :: _, h => .cons name (Alike.refl (h _ List.mem_cons_self))
      (AlikeFields.refl fun f hf => h f (List.mem_cons_of_mem _ hf))

end

mutual

/-- The numbers of types that are alike correspond to others. -/
theorem Alike.over {P : Int → Prop} (hP : ∀ a b, F a b → P a) : ∀ {t t' : Ty}, Alike F t t' →
    t.Over P
  | _, _, .var h => over_var.2 (hP _ _ h.1)
  | _, _, .prim _ => over_prim
  | _, _, .lit _ => over_lit
  | _, _, .fn hp hr => over_fn.2 ⟨hp.over hP, hr.over hP⟩
  | _, _, .record hfs hrow => over_record.2 ⟨hfs.over hP, fun v hv => by
      subst hv
      cases hrow with
      | some h => exact hP _ _ h.1⟩
  | _, _, .tuple h => over_tuple.2 (h.over hP)
  | _, _, .union h => over_union.2 (h.over hP)
  | _, _, .inter h => over_inter.2 (h.over hP)
  | _, _, .named _ h => over_named.2 (h.over hP)
  | _, _, .mu hv ht => over_mu.2 ⟨hP _ _ hv.1, ht.over hP⟩

theorem AlikeAll.over {P : Int → Prop} (hP : ∀ a b, F a b → P a) : ∀ {ts ts' : List Ty},
    AlikeAll F ts ts' → ∀ t ∈ ts, t.Over P
  | _, _, .nil => by simp
  | _, _, .cons ht hts => List.forall_mem_cons.2 ⟨ht.over hP, hts.over hP⟩

theorem AlikeFields.over {P : Int → Prop} (hP : ∀ a b, F a b → P a) :
    ∀ {fs fs' : List (String × Ty)}, AlikeFields F fs fs' → ∀ f ∈ fs, f.2.Over P
  | _, _, .nil => by simp
  | _, _, .cons _ ht hfs => List.forall_mem_cons.2 ⟨ht.over hP, hfs.over hP⟩

end

end Ty

/-! ## Substitutions -/

/-- Two substitutions send numbers that correspond to types that are alike, and bind no others. -/
structure Subst.Alike (F : Int → Int → Prop) (s s' : Subst) : Prop where
  get? : ∀ a b, F a b → Option.Rel (Ty.Alike F) (s.get? a) (s'.get? b)
  left : ∀ a t, s.get? a = some t → ∃ b, F a b
  right : ∀ b t, s'.get? b = some t → ∃ a, F a b

namespace Subst

variable {s s' : Subst}

theorem isEmpty_iff_get? : s.isEmpty = true ↔ ∀ id, s.get? id = none := by
  constructor
  · exact fun h id => get?_of_isEmpty h id
  · intro h
    obtain ⟨_ | ⟨⟨id, b⟩, rest⟩⟩ := s
    · rfl
    · have := h id
      simp [Subst.get?, Table.get?] at this

theorem Alike.isEmpty_eq (h : s.Alike F s') : s.isEmpty = s'.isEmpty := by
  rw [Bool.eq_iff_iff, isEmpty_iff_get?, isEmpty_iff_get?]
  constructor
  · intro hs b
    cases hb : s'.get? b with
    | none => rfl
    | some t =>
        obtain ⟨a, hab⟩ := h.right b t hb
        have hget := h.get? a b hab
        rw [hs a, hb] at hget
        cases hget
  · intro hs a
    cases ha : s.get? a with
    | none => rfl
    | some t =>
        obtain ⟨b, hab⟩ := h.left a t ha
        have hget := h.get? a b hab
        rw [hs b, ha] at hget
        cases hget

theorem alike_empty : empty.Alike F empty where
  get? := fun _ _ _ => .none
  left := fun _ _ h => by cases h
  right := fun _ _ h => by cases h

theorem Alike.erase (hF : OneToOne F) (h : s.Alike F s') {v w : TyVar} (hv : v.Alike F w) :
    (s.erase v).Alike F (s'.erase w) where
  get? := fun a b hab => by
    rw [get?_erase, get?_erase]
    by_cases ha : a = v.id
    · rw [if_pos ha, if_pos ((hF hab hv.1).1 ha)]
      exact .none
    · rw [if_neg ha, if_neg fun hb => ha ((hF hab hv.1).2 hb)]
      exact h.get? a b hab
  left := fun a t ha => by
    rw [get?_erase] at ha
    split at ha
    · cases ha
    · exact h.left a t ha
  right := fun b t hb => by
    rw [get?_erase] at hb
    split at hb
    · cases hb
    · exact h.right b t hb

theorem alike_held (hF : OneToOne F) {a b : Int} (hab : F a b) {t t' : Ty} (h : t.Alike F t') :
    Option.Rel (Ty.Alike F) (held a t) (held b t') := by
  cases h with
  | @var v w hv =>
      unfold held
      dsimp only
      by_cases ha : v.id = a
      · rw [if_pos ha, if_pos ((hF hv.1 hab).1 ha)]
        exact .none
      · rw [if_neg ha, if_neg fun hb => ha ((hF hv.1 hab).2 hb)]
        exact .some (.var hv)
  | prim name => exact .some (.prim name)
  | lit value => exact .some (.lit value)
  | fn hp hr => exact .some (.fn hp hr)
  | record hfs hrow => exact .some (.record hfs hrow)
  | tuple h => exact .some (.tuple h)
  | union h => exact .some (.union h)
  | inter h => exact .some (.inter h)
  | named name h => exact .some (.named name h)
  | mu hv ht => exact .some (.mu hv ht)

theorem Alike.bind (hF : OneToOne F) (h : s.Alike F s') {v w : TyVar} (hv : v.Alike F w)
    {t t' : Ty} (ht : t.Alike F t') : (s.bind v t).Alike F (s'.bind w t') where
  get? := fun a b hab => by
    rw [get?_bind, get?_bind]
    by_cases ha : a = v.id
    · rw [if_pos ha, if_pos ((hF hab hv.1).1 ha)]
      exact alike_held hF hv.1 ht
    · rw [if_neg ha, if_neg fun hb => ha ((hF hab hv.1).2 hb)]
      exact h.get? a b hab
  left := fun a u ha => by
    rw [get?_bind] at ha
    split at ha
    · next heq => exact ⟨w.id, heq ▸ hv.1⟩
    · exact h.left a u ha
  right := fun b u hb => by
    rw [get?_bind] at hb
    split at hb
    · next heq => exact ⟨v.id, heq ▸ hv.1⟩
    · exact h.right b u hb

/-- Parameters that correspond, sent to arguments that are alike. -/
theorem alike_ofList (hF : OneToOne F) {vs ws : List TyVar} {ts ts' : List Ty}
    (hvs : List.Forall₂ (TyVar.Alike F) vs ws) (hts : AlikeAll F ts ts') :
    (ofList (vs.zip ts)).Alike F (ofList (ws.zip ts')) := by
  have general : ∀ {vs ws : List TyVar} {ts ts' : List Ty} {s s' : Subst},
      List.Forall₂ (TyVar.Alike F) vs ws → AlikeAll F ts ts' → s.Alike F s' →
      ((vs.zip ts).foldl (fun s b => s.bind b.1 b.2) s).Alike F
        ((ws.zip ts').foldl (fun s b => s.bind b.1 b.2) s') := by
    intro vs ws ts ts' s s' hvs
    induction hvs generalizing ts ts' s s' with
    | nil => exact fun _ hs => hs
    | cons hv _ ih =>
        intro hts hs
        cases hts with
        | nil => exact hs
        | cons ht hts => exact ih hts (hs.bind hF hv ht)
  exact general hvs hts alike_empty

theorem alike_splice {fs fs' : List (String × Ty)} {row row' : TyVar} {x x' : Option Ty}
    (hfs : AlikeFields F fs fs') (hrow : row.Alike F row')
    (hx : Option.Rel (Ty.Alike F) x x') :
    (RecordTy.splice fs row x).toTy.Alike F (RecordTy.splice fs' row' x').toTy := by
  cases hx with
  | none => exact .record hfs (.some hrow)
  | some h =>
      cases h with
      | var hv => exact .record hfs (.some hv)
      | record hmore hrest => exact .record (hfs.underlay hmore) hrest
      | _ => exact .record hfs (.some hrow)

mutual

/-- Substitutions that are alike give types that are alike. -/
theorem Alike.apply (hF : OneToOne F) : ∀ {s s' : Subst} {t t' : Ty}, s.Alike F s' →
    t.Alike F t' → (s.apply t).Alike F (s'.apply t')
  | s, s', _, _, hs, .var hv => by
      rw [apply_var, apply_var]
      have hget := hs.get? _ _ hv.1
      generalize s.get? _ = x at hget ⊢
      generalize s'.get? _ = x' at hget ⊢
      cases hget with
      | none => exact .var hv
      | some h => exact h
  | s, s', _, _, _, .prim name => by rw [apply_prim, apply_prim]; exact .prim name
  | s, s', _, _, _, .lit value => by rw [apply_lit, apply_lit]; exact .lit value
  | s, s', _, _, hs, .fn hp hr => by
      rw [apply_fn, apply_fn]
      exact .fn (hs.apply hF hp) (hs.apply hF hr)
  | s, s', _, _, hs, .record hfs hrow => by
      cases hrow with
      | none =>
          rw [apply_closed, apply_closed]
          exact .record (hs.applyFields hF hfs) .none
      | some hv =>
          rw [apply_open, apply_open]
          exact alike_splice (hs.applyFields hF hfs) hv (hs.get? _ _ hv.1)
  | s, s', _, _, hs, .tuple h => by
      rw [apply_tuple, apply_tuple]
      exact .tuple (hs.applyAll hF h)
  | s, s', _, _, hs, .named name h => by
      rw [apply_named, apply_named]
      exact .named name (hs.applyAll hF h)
  | s, s', _, _, hs, .union h => by
      cases hempty : s.isEmpty with
      | true =>
          rw [apply_of_isEmpty hempty, apply_of_isEmpty (hs.isEmpty_eq ▸ hempty)]
          exact .union h
      | false =>
          rw [apply_union hempty, apply_union (hs.isEmpty_eq ▸ hempty)]
          exact (hs.applyAll hF h).unionOf hF
  | s, s', _, _, hs, .inter h => by
      cases hempty : s.isEmpty with
      | true =>
          rw [apply_of_isEmpty hempty, apply_of_isEmpty (hs.isEmpty_eq ▸ hempty)]
          exact .inter h
      | false =>
          rw [apply_inter hempty, apply_inter (hs.isEmpty_eq ▸ hempty)]
          exact (hs.applyAll hF h).interOf hF
  | s, s', _, _, hs, .mu hv ht => by
      rw [apply_mu, apply_mu]
      exact .mu hv ((hs.erase hF hv).apply hF ht)

theorem Alike.applyAll (hF : OneToOne F) : ∀ {s s' : Subst} {ts ts' : List Ty}, s.Alike F s' →
    AlikeAll F ts ts' → AlikeAll F (ts.map s.apply) (ts'.map s'.apply)
  | _, _, _, _, _, .nil => .nil
  | _, _, _, _, hs, .cons ht hts => .cons (hs.apply hF ht) (hs.applyAll hF hts)

theorem Alike.applyFields (hF : OneToOne F) : ∀ {s s' : Subst} {fs fs' : List (String × Ty)},
    s.Alike F s' → AlikeFields F fs fs' →
    AlikeFields F (fs.map fun f => (f.1, s.apply f.2)) (fs'.map fun f => (f.1, s'.apply f.2))
  | _, _, _, _, _, .nil => .nil
  | _, _, _, _, hs, .cons name ht hfs => .cons name (hs.apply hF ht) (hs.applyFields hF hfs)

end

end Subst

theorem Ty.Alike.unfold (hF : OneToOne F) {v w : TyVar} {t t' : Ty} (hv : v.Alike F w)
    (ht : t.Alike F t') : (Ty.unfold v t).Alike F (Ty.unfold w t') :=
  (Subst.alike_empty.bind hF hv (.mu hv ht)).apply hF ht

end RowTypes
