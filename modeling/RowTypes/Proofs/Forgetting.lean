import RowTypes.Coverage.Analysis
import RowTypes.Proofs.Remembering

/-!
# The verdict on a match does not depend on earlier ones

Whether a match is exhaustive is decided on the normal form of its scrutinee's type, and normal
forms are remembered.  Two sessions that make the same declarations, and in between normalise other
types each, give their binders and definitions other numbers.  Where what was remembered makes no
difference to a type, that is all: its normal forms in the two sessions are alike, and the values
that are listed for them are the same.

Without that condition it fails.  Where two definitions use each other, as in `A = "x" | {b: B}` and
`B = "y" | {a: A}`, the form that is remembered of `B` ties a knot inside itself; put into `A` it
has one more binder than a form that is made from scratch, and since each binder is unfolded once,
values are listed to another depth.
-/

namespace RowTypes

open Ty

variable {F : Int → Int → Prop}

/-! ## Listing values -/

namespace Ty

theorem AlikeFields.keys_eq {fs fs' : List (String × Ty)} (h : AlikeFields F fs fs') :
    Table.keys fs = Table.keys fs' := by
  induction fs generalizing fs' with
  | nil =>
      cases h
      rfl
  | cons f fs ih =>
      cases h with
      | cons name _ hfs => exact congrArg (name :: ·) (ih hfs)

mutual

theorem Alike.length_binders : ∀ {t t' : Ty}, Alike F t t' → t.binders.length = t'.binders.length
  | _, _, .var _ | _, _, .prim _ | _, _, .lit _ => rfl
  | _, _, .fn hp hq => by
      rw [binders, binders, List.length_append, List.length_append, hp.length_binders,
        hq.length_binders]
  | _, _, .record hfs _ => hfs.length_binders
  | _, _, .tuple h | _, _, .union h | _, _, .inter h | _, _, .named _ h => h.length_binders
  | _, _, .mu _ h => by rw [binders, binders, List.length_cons, List.length_cons, h.length_binders]

theorem AlikeAll.length_binders : ∀ {ts ts' : List Ty}, AlikeAll F ts ts' →
    (bindersAll ts).length = (bindersAll ts').length
  | _, _, .nil => rfl
  | _, _, .cons h hs => by
      rw [bindersAll, bindersAll, List.length_append, List.length_append, h.length_binders,
        hs.length_binders]

theorem AlikeFields.length_binders : ∀ {fs fs' : List (String × Ty)}, AlikeFields F fs fs' →
    (bindersFields fs).length = (bindersFields fs').length
  | _, _, .nil => rfl
  | _, _, .cons _ h hs => by
      rw [bindersFields, bindersFields, List.length_append, List.length_append, h.length_binders,
        hs.length_binders]

end

end Ty

namespace Space

section Listing

variable {onMu onMu' : TyVar → Ty → Option (List Space)}

mutual

/-- The values of types that are alike are listed alike, if those of recursive types are. -/
theorem enumerateWith_congr
    (h : ∀ {v w : TyVar} {t t' : Ty}, v.Alike F w → t.Alike F t' → onMu v t = onMu' w t') :
    ∀ {t t' : Ty}, t.Alike F t' → enumerateWith onMu t = enumerateWith onMu' t'
  | _, _, .var _ | _, _, .prim _ | _, _, .lit _ | _, _, .fn _ _ | _, _, .inter _
  | _, _, .named _ _ => by simp only [enumerateWith]
  | _, _, .record hfs _ => by
      rw [enumerateWith, enumerateWith, productOfFields_congr h hfs, hfs.keys_eq]
  | _, _, .tuple hts => by rw [enumerateWith, enumerateWith, productOf_congr h hts]
  | _, _, .union hts => by rw [enumerateWith, enumerateWith, enumerateAlts_congr h hts]
  | _, _, .mu hv ht => by
      rw [enumerateWith, enumerateWith]
      exact h hv ht

theorem enumerateAlts_congr
    (h : ∀ {v w : TyVar} {t t' : Ty}, v.Alike F w → t.Alike F t' → onMu v t = onMu' w t') :
    ∀ {ts ts' : List Ty}, AlikeAll F ts ts' → enumerateAlts onMu ts = enumerateAlts onMu' ts'
  | _, _, .nil => by rw [enumerateAlts, enumerateAlts]
  | _, _, .cons ht hts => by
      rw [enumerateAlts, enumerateAlts, enumerateWith_congr h ht, enumerateAlts_congr h hts]

theorem productOf_congr
    (h : ∀ {v w : TyVar} {t t' : Ty}, v.Alike F w → t.Alike F t' → onMu v t = onMu' w t') :
    ∀ {front : List (List Space)} {ts ts' : List Ty}, AlikeAll F ts ts' →
    productOf onMu front ts = productOf onMu' front ts'
  | _, _, _, .nil => by rw [productOf, productOf]
  | _, _, _, .cons ht hts => by
      rw [productOf, productOf, enumerateWith_congr h ht]
      simp only [productOf_congr h hts]

theorem productOfFields_congr
    (h : ∀ {v w : TyVar} {t t' : Ty}, v.Alike F w → t.Alike F t' → onMu v t = onMu' w t') :
    ∀ {front : List (List Space)} {fs fs' : List (String × Ty)}, AlikeFields F fs fs' →
    productOfFields onMu front fs = productOfFields onMu' front fs'
  | _, _, _, .nil => by rw [productOfFields, productOfFields]
  | _, _, _, .cons _ ht hfs => by
      rw [productOfFields, productOfFields, enumerateWith_congr h ht]
      simp only [productOfFields_congr h hfs]

end

end Listing

theorem enumerateWithin_congr (hF : OneToOne F) : ∀ (n : Nat) {unfolding unfolding' : List Int}
    {t t' : Ty}, List.Forall₂ F unfolding unfolding' → t.Alike F t' →
    enumerateWithin n unfolding t = enumerateWithin n unfolding' t'
  | 0, _, _, _, _, _, ht => by
      rw [enumerateWithin, enumerateWithin]
      exact enumerateWith_congr (fun _ _ => rfl) ht
  | n + 1, unfolding, unfolding', _, _, hunfolding, ht => by
      rw [enumerateWithin, enumerateWithin]
      refine enumerateWith_congr (fun {v w t t'} hv ht => ?_) ht
      have hmem : v.id ∈ unfolding ↔ w.id ∈ unfolding' := by
        clear ht
        induction hunfolding with
        | nil => simp
        | cons hab _ ih => rw [List.mem_cons, List.mem_cons, ih, hF hv.1 hab]
      rw [enumerateWithin_congr hF n (.cons hv.1 hunfolding) (ht.unfold hF hv)]
      by_cases h : v.id ∈ unfolding
      · rw [if_pos h, if_pos (hmem.1 h)]
      · rw [if_neg h, if_neg fun h' => h (hmem.2 h')]

end Space

theorem Ty.Alike.uncovered?_eq (hF : OneToOne F) {t t' : Ty} (h : t.Alike F t')
    (ps : List Pattern) : Pattern.uncovered? t ps = Pattern.uncovered? t' ps := by
  rw [Pattern.uncovered?, Pattern.uncovered?, Ty.spaces?, Ty.spaces?, h.length_binders,
    Space.enumerateWithin_congr hF _ .nil h]

/-! ## Sessions -/

namespace Session

/-- What a session is asked to do. -/
inductive Work where
  | declare (d : TypeDecl)
  | normalize (t : Ty)

def Work.declared? : Work → Option TypeDecl
  | .declare d => some d
  | .normalize _ => none

def work (s : Session) : Work → Session
  | .declare d => ((declare d).run s).2
  | .normalize t => ((Registry.normalize t).run s).2

def after (works : List Work) (s : Session) : Session := works.foldl work s

section Informed

open Registry

variable {r : Registry} {roots : Ty → Prop} {t : Ty} (hins : r.Insulated roots t) {base : Nat}
  {s q : Session}

/-- Once the definitions are the given ones, it is known what is remembered. -/
def Informed (base : Nat) (s : Session) : Prop :=
  s.registry.definitions = r.definitions → ∀ hover hbodies,
    ∃ B, (⟨r, roots, t, base, hins, hover, hbodies⟩ : Setting).Knows B [] s

variable {hins}

/-- After a declaration was accepted nothing is remembered. -/
theorem informed_of_memo (h : s.registry.memo = []) : Informed hins s.supply.count s := by
  intro hdefinitions hover hbodies
  refine ⟨fun _ _ => False, hdefinitions, ⟨False.elim, False.elim, False.elim, False.elim⟩,
    Nat.le_refl _, False.elim, (nomatch ·), (nomatch ·), False.elim, fun {R u} _ hu => ?_⟩
  rw [h] at hu
  cases hu

theorem Informed.refused (h : Informed hins base s) (hq : Refused s q) : Informed hins base q := by
  intro hdefinitions hover hbodies
  obtain ⟨hregistry, hcount⟩ := hq
  rw [hregistry] at hdefinitions
  obtain ⟨B, hB⟩ := h hdefinitions hover hbodies
  refine ⟨B, hregistry ▸ hB.definitions, hB.numbering, Nat.le_trans hB.base hcount,
    fun hb => Int.le_trans (hB.given hb) (Int.ofNat_le.2 hcount), (nomatch ·), (nomatch ·), ?_, ?_⟩
  · rw [hregistry]
    exact hB.known
  · rw [hregistry]
    exact hB.memo

theorem Informed.normalize (h : Informed hins base s) {u : Ty} (hu : roots u) :
    Informed hins base ((Registry.normalize u).run s).2 := by
  intro hdefinitions hover hbodies
  rw [(quiet_normalize u s).1] at hdefinitions
  obtain ⟨B, hB⟩ := h hdefinitions hover hbodies
  obtain ⟨B', -, hB', -⟩ := Setting.learns_normalize hu s hB
  exact ⟨B', hB'⟩

end Informed

theorem Refused.goesOn {s q : Session} (h : Refused s q) : s.GoesOn q := ⟨by rw [h.1], h.2⟩

/-- Two sessions have made the same declarations.  Their definitions differ in numbers only, and the
numbers that correspond were given out by a moment in each. -/
structure Twins (n : Nat) (F : Int → Int → Prop) (c c' : Nat) (s s' : Session) : Prop where
  oneToOne : OneToOne F
  registry : s.registry.Alike F s'.registry
  given : ∀ a b, F a b → a ≤ c ∧ b ≤ c'
  same : ∀ a : Int, a ≤ n → F a a
  count : c ≤ s.supply.count
  count' : c' ≤ s'.supply.count

section Twins

variable {n c c' : Nat} {s s' q q' : Session}

theorem Twins.goOn (h : Twins n F c c' s s') (hq : s.GoesOn q) (hq' : s'.GoesOn q') :
    Twins n F c c' q q' where
  oneToOne := h.oneToOne
  registry := by
    unfold Registry.Alike
    rw [hq.1, hq'.1]
    exact h.registry
  given := h.given
  same := h.same
  count := Nat.le_trans h.count hq.2
  count' := Nat.le_trans h.count' hq'.2

variable {r r' : Registry} {roots roots' : Ty → Prop} {t : Ty} {hins : r.Insulated roots t}
  {hins' : r'.Insulated roots' t}

/-- What holds of two sessions holds after each has done its work, if the declarations are the
same. -/
theorem Twins.after : ∀ (works works' : List Work) {F : Int → Int → Prop} {c c' : Nat}
    {s s' : Session}, works.filterMap Work.declared? = works'.filterMap Work.declared? →
    (∀ u, .normalize u ∈ works → roots u) → (∀ u, .normalize u ∈ works' → roots' u) →
    Twins n F c c' s s' → Informed hins c s → Informed hins' c' s' →
    ∃ F c c', Twins n F c c' (Session.after works s) (Session.after works' s') ∧
      Informed hins c (Session.after works s) ∧ Informed hins' c' (Session.after works' s')
  | [], [], _, _, _, _, _, _, _, _, h, hs, hs' => ⟨_, _, _, h, hs, hs'⟩
  | .normalize u :: works, works', _, _, _, s, s', hsame, hu, hu', h, hs, hs' =>
      Twins.after works works' hsame (fun v hv => hu v (List.mem_cons_of_mem _ hv)) hu'
        (h.goOn (Registry.quiet_normalize u s) (.refl s'))
        (hs.normalize (hu u List.mem_cons_self)) hs'
  | works, .normalize u :: works', _, _, _, s, s', hsame, hu, hu', h, hs, hs' =>
      Twins.after works works' hsame hu (fun v hv => hu' v (List.mem_cons_of_mem _ hv))
        (h.goOn (.refl s) (Registry.quiet_normalize u s')) hs
        (hs'.normalize (hu' u List.mem_cons_self))
  | .declare d :: works, .declare d' :: works', _, _, _, s, s', hsame, hu, hu', h, hs, hs' => by
      obtain ⟨rfl, hrest⟩ := List.cons.inj hsame
      have hu := fun v hv => hu v (List.mem_cons_of_mem _ hv)
      have hu' := fun v hv => hu' v (List.mem_cons_of_mem _ hv)
      have halike : Session.Alike _ s s' := ⟨h.oneToOne, h.registry, fun a b hab => by
        have := h.given a b hab
        have := h.count
        have := h.count'
        omega⟩
      rcases halike.declare d with ⟨hq, hq'⟩ | ⟨G, hFG, hG, hmemo, hmemo'⟩
      · exact Twins.after works works' hrest hu hu' (h.goOn hq.goesOn hq'.goesOn) (hs.refused hq)
          (hs'.refused hq')
      · exact Twins.after works works' hrest hu hu' ⟨hG.oneToOne, hG.registry, hG.given,
          fun a ha => hFG _ _ (h.same a ha), Nat.le_refl _, Nat.le_refl _⟩
          (informed_of_memo hmemo) (informed_of_memo hmemo')
  | .declare d :: works, [], _, _, _, s, s', hsame, _, _, _, _, _ => by cases hsame
  | [], .declare d :: works, _, _, _, s, s', hsame, _, _, _, _, _ => by cases hsame
  termination_by works works' => works.length + works'.length

end Twins

/-- What a match leaves out does not depend on which types were normalised before: in two sessions
that made the same declarations, a type has normal forms of which any patterns leave out the same
values, if in both what was remembered of the other types makes no difference to it. -/
theorem uncovered?_normalize_eq {n : Nat} {works works' : List Work} {t : Ty} {s s' : Session}
    (hsame : works.filterMap Work.declared? = works'.filterMap Work.declared?)
    (hs : s = after works { supply := ⟨n⟩ }) (hs' : s' = after works' { supply := ⟨n⟩ })
    (ht : t.Over (· ≤ (n : Int)))
    (hins : s.registry.Insulated (fun u => u = t ∨ .normalize u ∈ works) t)
    (hins' : s'.registry.Insulated (fun u => u = t ∨ .normalize u ∈ works') t)
    (ps : List Pattern) :
    Pattern.uncovered? ((Registry.normalize t).run s).1 ps =
      Pattern.uncovered? ((Registry.normalize t).run s').1 ps := by
  have hstart : Twins n (fun a b => a = b ∧ a ≤ n) n n { supply := ⟨n⟩ } { supply := ⟨n⟩ } :=
    ⟨by rintro a b a' b' ⟨rfl, -⟩ ⟨rfl, -⟩; rfl, .nil, fun a b hab => by omega,
      fun a ha => ⟨rfl, ha⟩, Nat.le_refl _, Nat.le_refl _⟩
  obtain ⟨F, c, c', h, hknown, hknown'⟩ := Twins.after works works' hsame
    (fun _ => .inr) (fun _ => .inr) hstart (informed_of_memo rfl : Informed hins _ _)
    (informed_of_memo rfl : Informed hins' _ _)
  rw [← hs] at h hknown
  rw [← hs'] at h hknown'
  have hover : ∀ {c : Nat}, (n : Int) ≤ c → t.Over (· ≤ (c : Int)) := fun hc =>
    ht.mono fun id hid => Int.le_trans hid hc
  have hn := h.given n n (h.same n (Int.le_refl _))
  have hbodies : ∀ name d, s.registry.lookup? name = some d → d.body.Over (· ≤ (c : Int)) := by
    intro name d hd
    have hlookup := h.registry.lookup? name
    generalize s'.registry.lookup? name = x at hlookup
    rw [hd] at hlookup
    cases hlookup with
    | some hd => exact hd.body.over fun a b hab => (h.given a b hab).1
  have hbodies' : ∀ name d, s'.registry.lookup? name = some d → d.body.Over (· ≤ (c' : Int)) := by
    intro name d hd
    have hlookup := h.registry.lookup? name
    generalize s.registry.lookup? name = x at hlookup
    rw [hd] at hlookup
    cases hlookup with
    | some hd => exact hd.body.symm.over fun b a hab => (h.given a b hab).2
  obtain ⟨B, hB⟩ := hknown rfl (hover hn.1) hbodies
  obtain ⟨B', hB'⟩ := hknown' rfl (hover hn.2) hbodies'
  -- The type itself is normalised last, and unrolls under the binders that there are then.
  obtain ⟨C, -, hC, hu⟩ := Registry.Setting.learns_normalize (Or.inl rfl) s hB
  obtain ⟨C', -, hC', hu'⟩ := Registry.Setting.learns_normalize (Or.inl rfl) s' hB'
  have hm : Matched F s.registry s'.registry C C' :=
    ⟨h.oneToOne, h.registry, oneToOne_orBinders h.oneToOne hC.numbering hC'.numbering h.given,
      hC.numbering.level, hC'.numbering.level⟩
  have halike : t.Alike F t := .refl (ht.mono h.same)
  exact ((hu fun R hR => ⟨[], .start rfl hR⟩).alike hm halike
    (hu' fun R hR => ⟨[], .start rfl hR⟩) .none).uncovered?_eq hm.binders ps

/-- Numbers and lists, each of which uses itself. -/
def natDecl : TypeDecl :=
  { name := "Nat"
    body := .union {} [.lit {} "z", .record {} [("s", .name {} "Nat" [])] false] }

def listDecl : TypeDecl :=
  { name := "List", params := ["a"]
    body := .union {} [.lit {} "nil",
      .record {} [("head", .ref {} "a"), ("tail", .name {} "List" [.ref {} "a"])] false] }

def natDefinition : Definition :=
  { name := "Nat"
    body := .union [.lit "z", .record [("s", .named "Nat" [])] none] }

def listDefinition (v : TyVar) : Definition :=
  { name := "List", params := [v]
    body := .union [.lit "nil",
      .record [("head", .var v), ("tail", .named "List" [.var v])] none] }

def nats : Ty := .named "List" [.named "Nat" []]

section Nats

variable {r : Registry} {v : TyVar}
  (hr : r.definitions = [("List", listDefinition v), ("Nat", natDefinition)])

include hr

theorem lookup?_list : r.lookup? "List" = some (listDefinition v) := by
  simp [Registry.lookup?, hr, Table.get?]

theorem lookup?_nat : r.lookup? "Nat" = some natDefinition := by
  simp [Registry.lookup?, hr, Table.get?]

theorem expand?_list {t : Ty} (ht : ∀ w : TyVar, t = .var w → w.id ≠ v.id) :
    r.expand? "List" [t] = some (.union [.lit "nil",
      .record [("head", t), ("tail", .named "List" [t])] none]) := by
  have hget : (Subst.single v t).get? v.id = some t := by
    rw [Subst.get?_single, if_pos rfl, Subst.held_of_ne ht]
  have hparam : (Subst.single v t).apply (.var v) = t := by
    rw [Subst.apply_var, hget]
    rfl
  have hne : (Subst.single v t).isEmpty = false := by
    by_contra h
    rw [Subst.get?_of_isEmpty (by simpa using h)] at hget
    cases hget
  rw [Registry.expand?, lookup?_list hr]
  show some ((Subst.single v t).apply (listDefinition v).body) = _
  rw [listDefinition, Subst.apply_union hne]
  simp [hparam, Subst.apply_lit, Subst.apply_closed, Subst.apply_named, unionOf, unionOf?,
    alternativesAll, alternatives, distinct, addDistinct, equiv, equivUnder]

theorem expand?_nats : r.expand? "List" [.named "Nat" []] = some (.union [.lit "nil",
    .record [("head", .named "Nat" []), ("tail", nats)] none]) :=
  expand?_list hr nofun

theorem expand?_nat : r.expand? "Nat" [] = some natDefinition.body := by
  rw [Registry.expand?, lookup?_nat hr]
  rfl

theorem insulated_nats {roots : Ty → Prop} (hnats : roots nats)
    (hroots : ∀ u, roots u → u = nats ∨ u = .named "Nat" []) : r.Insulated roots nats := by
  have hlist := lookup?_list hr
  have hnat := lookup?_nat hr
  refine Registry.insulated_of_rank [("List", [.named "Nat" []]), ("Nat", [])]
    (fun R => R.1.length) hnats ?_ ?_ ?_ (by decide)
  · intro u hu
    rcases hroots u hu with rfl | rfl <;> simp [nats, Registry.visible, hlist, hnat]
  · simp only [List.forall_mem_cons, expand?_nats hr, expand?_nat hr]
    refine ⟨?_, ?_, List.forall_mem_nil _⟩
    · rintro _ ⟨⟩
      simp [nats, Registry.visible, Registry.visibleAll, Registry.visibleFields, hlist, hnat]
      decide
    · rintro _ ⟨⟩
      simp [natDefinition, Registry.visible, Registry.visibleAll, Registry.visibleFields, hnat]
  · have : Reference.digest ("List", [.named "Nat" []]) ≠ Reference.digest ("Nat", []) := by
      decide +kernel
    simp [this, this.symm]

end Nats

/-- Numbers were asked for before there were lists, and after. -/
def busy : List Work := [.declare natDecl, .normalize (.named "Nat" []), .declare listDecl,
  .normalize (.named "Nat" [])]

def idle : List Work := [.declare natDecl, .declare listDecl]

theorem uncovered?_normalize_nats :
    busy.filterMap Work.declared? = idle.filterMap Work.declared? ∧
    nats.Over (· ≤ ((0 : Nat) : Int)) ∧
    (after busy { supply := ⟨0⟩ }).registry.Insulated
      (fun u => u = nats ∨ .normalize u ∈ busy) nats ∧
    (after idle { supply := ⟨0⟩ }).registry.Insulated
      (fun u => u = nats ∨ .normalize u ∈ idle) nats ∧
    Pattern.uncovered? ((Registry.normalize nats).run (after busy { supply := ⟨0⟩ })).1
        [.literal {} .string "nil"] =
      Pattern.uncovered? ((Registry.normalize nats).run (after idle { supply := ⟨0⟩ })).1
        [.literal {} .string "nil"] := by
  have hsame : busy.filterMap Work.declared? = idle.filterMap Work.declared? := rfl
  have hover : nats.Over (· ≤ ((0 : Nat) : Int)) := by simp [nats]
  have hbusy : (after busy { supply := ⟨0⟩ }).registry.Insulated
      (fun u => u = nats ∨ .normalize u ∈ busy) nats :=
    insulated_nats (v := ⟨2, 0⟩) (by with_unfolding_all rfl) (.inl rfl) (by simp [busy])
  have hidle : (after idle { supply := ⟨0⟩ }).registry.Insulated
      (fun u => u = nats ∨ .normalize u ∈ idle) nats :=
    insulated_nats (v := ⟨1, 0⟩) (by with_unfolding_all rfl) (.inl rfl) (by simp [idle])
  exact ⟨hsame, hover, hbusy, hidle, uncovered?_normalize_eq hsame rfl rfl hover hbusy hidle _⟩

/-- Where two definitions use each other, what was remembered of one shows in the other. -/
example :
    let a : TypeDecl :=
      { name := "A"
        body := .union {} [.lit {} "x", .record {} [("b", .name {} "B" [])] false] }
    let b : TypeDecl :=
      { name := "B"
        body := .union {} [.lit {} "y", .record {} [("a", .name {} "A" [])] false] }
    let missing (works : List Work) := Pattern.uncovered?
      ((Registry.normalize (.named "A" [])).run (after works {})).1 [.literal {} .string "x"]
    missing [.declare a, .declare b] ≠
      missing [.declare a, .declare b, .normalize (.named "B" [])] := by
  decide +kernel

end Session

end RowTypes
