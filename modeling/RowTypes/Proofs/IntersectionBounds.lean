import RowTypes.Proofs.CoinductiveSubtyping
import RowTypes.Proofs.EnclosedTypes

/-!
# Subtyping into an intersection

Making a type a subtype of an intersection should be the same as making it a subtype of every
member.  For a type that has no intersection of its own at the head, it is.  References are
expanded, recursive types unfolded and unions split on the left before anything is done on the
right, and each piece that is left is related to the members one by one.

An intersection on the left is given up too early: one of its members has to go with the whole right
side.  So it may go with every member of another intersection, by a member of its own each time, and
not with that intersection.  And because one alternative is chosen where the right side is a union,
an intersection that has a union among its members may go with an intersection, and not with a
member of that one which is the same union.
-/

namespace RowTypes

namespace Ty

variable {a b : Ty}

theorem isIndirect_eq_of_equiv (h : a.equiv b = true) :
    Relate.isIndirect a = Relate.isIndirect b := by
  cases a <;> cases b <;> first | rfl | simp [equiv, equivUnder] at h

end Ty

namespace Registry

variable {r : Registry} {a b m p q t u x y : Ty} {ms ts : List Ty} {n : Nat}

/-! ## Pieces -/

/-- What may be left of a type after expanding references, unfolding recursive types and splitting
unions at its head. -/
inductive Piece (r : Registry) : Ty → Ty → Prop where
  | refl (t : Ty) : Piece r t t
  | unwrap {t u p : Ty} : r.unwrap? t = some u → Piece r u p → Piece r t p
  | alternative {ts : List Ty} {t p : Ty} : t ∈ ts → Piece r t p → Piece r (.union ts) p

theorem Piece.trans (h : r.Piece t p) (h' : r.Piece p q) : r.Piece t q := by
  induction h with
  | refl t => exact h'
  | unwrap hu _ ih => exact .unwrap hu (ih h')
  | alternative ht _ ih => exact .alternative ht (ih h')

theorem piece_of_unwrap? (h : r.unwrap? t = some u) : r.Piece t u := .unwrap h (.refl u)

theorem piece_of_mem (h : t ∈ ts) : r.Piece (.union ts) t := .alternative h (.refl t)

/-- No piece of a type is an intersection. -/
def Solid (r : Registry) (t : Ty) : Prop := ∀ p, r.Piece t p → ∀ ms, p ≠ .inter ms

/-- A type is not a union, nor does it stand for one. -/
def Undivided (r : Registry) (t : Ty) : Prop := ∀ n u, r.Unwraps n t u → ∀ us, u ≠ .union us

theorem Solid.piece (h : r.Solid t) (hp : r.Piece t p) : r.Solid p := fun q hq =>
  h q (hp.trans hq)

theorem Solid.ne_inter (h : r.Solid t) : ∀ ms, t ≠ .inter ms := h t (.refl t)

theorem solid_record {fs : List (String × Ty)} {row : Option TyVar} : r.Solid (.record fs row) := by
  intro p hp ms
  cases hp with
  | refl => exact Ty.noConfusion
  | unwrap hu => cases hu

theorem solid_union (h : ∀ t ∈ ts, r.Solid t) : r.Solid (.union ts) := by
  intro p hp
  cases hp with
  | refl => exact fun _ => Ty.noConfusion
  | unwrap hu => cases hu
  | alternative ht hp => exact h _ ht p hp

theorem solid_of_unwrap? (hu : r.unwrap? t = some u) (h : r.Solid u) : r.Solid t := by
  intro p hp
  cases hp with
  | refl => rintro ms rfl; cases hu
  | unwrap hu' hp =>
      obtain rfl := Option.some.inj (hu.symm.trans hu')
      exact h p hp
  | alternative => cases hu

theorem undivided_of_direct (hind : Relate.isIndirect t = false) (h : ∀ us, t ≠ .union us) :
    r.Undivided t := by
  rintro n u hu
  obtain ⟨-, rfl⟩ := hu.eq_of_not_isIndirect hind
  exact h

/-- Subtyping of enclosed types without free unknowns: the comparison of the two holds. -/
def Below (r : Registry) (a b : Ty) : Prop :=
  r.Holds (fun t => t.Enclosed r fun _ => False) ⟨false, a, b⟩

/-- A type stays below another if every pair of some relation is taken apart into pairs of that
relation. -/
theorem below_of_sustained {S : Ty → Ty → Prop}
    (hproper : ∀ {a b}, S a b → a.Enclosed r (fun _ => False) ∧ b.Enclosed r fun _ => False)
    (hS : ∀ {a b}, S a b → r.Sustained (fun c => c.unified = false ∧ S c.sub c.super ∨
      r.Holds (fun t => t.Enclosed r fun _ => False) c) a b)
    (hab : S a b) : r.Below a b := by
  refine holds_of_justified (S := fun c => c.unified = false ∧ S c.sub c.super) ?_ ⟨rfl, hab⟩
  rintro ⟨k, a, b⟩ ⟨rfl, hab⟩
  exact ⟨hproper hab, hS hab⟩

section Enclosed

variable (hr : r.Enclosed)
include hr

theorem Enclosed.piece (h : r.Piece t p) (ht : t.Enclosed r fun _ => False) :
    p.Enclosed r fun _ => False := by
  induction h with
  | refl t => exact ht
  | unwrap hu _ ih => exact ih (hr.unwrap? ht hu)
  | alternative hmem _ ih => exact ih (hr.hereditary.union ht _ hmem)

theorem Enclosed.unwraps (h : r.Unwraps n t u) (ht : t.Enclosed r fun _ => False) :
    u.Enclosed r fun _ => False := by
  induction h with
  | refl t => exact ht
  | step hu _ ih => exact ih (hr.unwrap? ht hu)

/-! ## Pieces stay below -/

/-- How a piece whose constructor shows is below what the type itself is below. -/
theorem Enclosed.sustained_piece (hpiece : r.Piece x p) (hp : Relate.isIndirect p = false) :
    ∀ {y : Ty}, r.Below x y → r.Sustained (fun c =>
      c.unified = false ∧ (∃ x, r.Below x c.super ∧ r.Piece x c.sub) ∨
        r.Holds (fun t => t.Enclosed r fun _ => False) c) p y := by
  induction hpiece with
  | refl t => exact fun h => h.sustained.mono fun _ => .inr
  | @unwrap t u p hu hpiece ih =>
      intro y h
      have hind := isIndirect_of_unwrap? hu
      obtain ⟨ht, hy⟩ := h.proper
      cases h.sustained with
      | equiv heq =>
          -- What the type stands for is equivalent to what the other one stands for.
          rw [Ty.isIndirect_eq_of_equiv heq] at hind
          obtain ⟨u', y', hu', hy', heq'⟩ := hr.equiv_unwrap? ht hy heq hind
          obtain rfl : u = u' := Option.some.inj (hu.symm.trans hu')
          exact .unwrapRight hp hy' (.inl ⟨rfl, u,
            holds_of_equiv (hr.unwrap? ht hu) (hr.unwrap? hy hy') heq', hpiece⟩)
      | unwrap hu' h =>
          obtain rfl := Option.some.inj (hu.symm.trans hu')
          exact ih hp h
      | unwrapRight hdirect => rw [hdirect] at hind; cases hind
      | intoUnion hdirect => rw [hdirect] at hind; cases hind
      | intoInter hdirect => rw [hdirect] at hind; cases hind
      | _ => cases hu
  | @alternative ts t p hmem hpiece ih =>
      intro y h
      obtain ⟨hts, hy⟩ := h.proper
      cases h.sustained with
      | equiv heq =>
          obtain ⟨us, rfl, -, hto, -⟩ := Ty.exists_union_of_equiv heq
          by_cases hunion : ∃ ps, p = .union ps
          · obtain ⟨ps, rfl⟩ := hunion
            refine .fromUnion rfl fun q hq => .inl ⟨rfl, _, h, ?_⟩
            exact .alternative hmem (hpiece.trans (piece_of_mem hq))
          · obtain ⟨u, hu, htu⟩ := hto t hmem
            refine .intoUnion hp (fun ps hps => hunion ⟨ps, hps⟩) ⟨u, hu, .inl ⟨rfl, t, ?_, hpiece⟩⟩
            exact holds_of_equiv (hr.hereditary.union hts t hmem) (hr.hereditary.union hy u hu) htu
      | unwrap hu => cases hu
      | unwrapRight _ hu h =>
          exact .unwrapRight hp hu (.inl ⟨rfl, _, h, .alternative hmem hpiece⟩)
      | fromUnion _ h => exact ih hp (h t hmem)
      | intoUnion _ hne => exact absurd rfl (hne _)
      | intoInter _ hne => exact absurd rfl (hne _)

/-- Every piece of a type is below what the type is below. -/
theorem Enclosed.below_piece (h : r.Below x y) (hpiece : r.Piece x p) : r.Below p y := by
  refine below_of_sustained (S := fun p y => ∃ x, r.Below x y ∧ r.Piece x p) ?_ ?_ ⟨x, h, hpiece⟩
  · rintro p y ⟨x, h, hpiece⟩
    exact ⟨hr.piece hpiece h.proper.1, h.proper.2⟩
  · rintro p y ⟨x, h, hpiece⟩
    by_cases hp : Relate.isIndirect p = true
    · obtain ⟨q, hq⟩ := hr.exists_unwrap? (hr.piece hpiece h.proper.1) hp
      exact .unwrap hq (.inl ⟨rfl, x, h, hpiece.trans (piece_of_unwrap? hq)⟩)
    · exact hr.sustained_piece hpiece (by simpa using hp) h

omit hr in
/-- Expanding and unfolding on the right, below a type whose constructor shows. -/
theorem below_unwraps_direct (hx : Relate.isIndirect x = false) (h : r.Unwraps n y t)
    (hxy : r.Below x y) : r.Below x t := by
  induction h with
  | refl t => exact hxy
  | @step n t u w hu _ ih =>
      have hind := isIndirect_of_unwrap? hu
      cases hxy.sustained with
      | equiv heq => rw [← Ty.isIndirect_eq_of_equiv heq, hx] at hind; cases hind
      | unwrap hx' => rw [isIndirect_of_unwrap? hx'] at hx; cases hx
      | unwrapRight _ hu' h =>
          obtain rfl := Option.some.inj (hu.symm.trans hu')
          exact ih h
      | fromUnion hdirect => rw [hdirect] at hind; cases hind
      | fromInter hdirect => rw [hdirect] at hind; cases hind
      | _ => cases hu

/-- Expanding and unfolding on the right. -/
theorem Enclosed.below_unwraps (h : r.Unwraps n y t) (hxy : r.Below x y) : r.Below x t := by
  refine below_of_sustained (S := fun x t => ∃ n, r.Unwraps n y t ∧ r.Below x y) ?_ ?_ ⟨n, h, hxy⟩
  · rintro x t ⟨n, h, hxy⟩
    exact ⟨hxy.proper.1, hr.unwraps h hxy.proper.2⟩
  · rintro x t ⟨n, h, hxy⟩
    by_cases hx : Relate.isIndirect x = true
    · obtain ⟨u, hu⟩ := hr.exists_unwrap? hxy.proper.1 hx
      exact .unwrap hu (.inl ⟨rfl, n, h, hr.below_piece hxy (piece_of_unwrap? hu)⟩)
    · exact (below_unwraps_direct (by simpa using hx) h hxy).sustained.mono fun _ => .inr

/-! ## Members of an intersection -/

/-- A type that is below every member of an intersection is below the intersection, if no piece of
it is one. -/
theorem Enclosed.below_inter (hms : (Ty.inter ms).Enclosed r fun _ => False)
    (hx : x.Enclosed r fun _ => False) (hsolid : r.Solid x) (h : ∀ m ∈ ms, r.Below x m) :
    r.Below x (.inter ms) := by
  refine below_of_sustained (S := fun x y => y = .inter ms ∧ x.Enclosed r (fun _ => False) ∧
    r.Solid x ∧ ∀ m ∈ ms, r.Below x m) ?_ ?_ ⟨rfl, hx, hsolid, h⟩
  · rintro x y ⟨rfl, hx, -⟩
    exact ⟨hx, hms⟩
  · rintro x y ⟨rfl, hx, hsolid, h⟩
    have hpiece : ∀ p, r.Piece x p → p.Enclosed r (fun _ => False) ∧ r.Solid p ∧
        ∀ m ∈ ms, r.Below p m := fun p hp =>
      ⟨hr.piece hp hx, hsolid.piece hp, fun m hm => hr.below_piece (h m hm) hp⟩
    by_cases hind : Relate.isIndirect x = true
    · obtain ⟨t, ht⟩ := hr.exists_unwrap? hx hind
      exact .unwrap ht (.inl ⟨rfl, rfl, hpiece t (piece_of_unwrap? ht)⟩)
    by_cases hunion : ∃ ts, x = .union ts
    · obtain ⟨ts, rfl⟩ := hunion
      exact .fromUnion rfl fun t ht => .inl ⟨rfl, rfl, hpiece t (piece_of_mem ht)⟩
    · exact .intoInter (by simpa using hind) (fun ts hts => hunion ⟨ts, hts⟩) hsolid.ne_inter
        fun m hm => .inr (h m hm)

/-- A type that is below an intersection is below its members, if none of them is a union, or if no
piece of the type is an intersection. -/
theorem Enclosed.below_member (hm : m ∈ ms) (hor : r.Solid x ∨ r.Undivided m)
    (h : r.Below x (.inter ms)) : r.Below x m := by
  -- The member is followed on the right as far as it is expanded and unfolded.
  refine below_of_sustained (S := fun x t => (r.Solid x ∨ r.Undivided m) ∧
    r.Below x (.inter ms) ∧ ∃ n, r.Unwraps n m t) ?_ ?_ ⟨hor, h, 0, .refl m⟩
  · rintro x t ⟨-, h, n, hn⟩
    exact ⟨h.proper.1, hr.unwraps hn (hr.hereditary.inter h.proper.2 m hm)⟩
  · rintro x t ⟨hor, h, n, hn⟩
    have hpiece : ∀ p, r.Piece x p → (r.Solid p ∨ r.Undivided m) ∧ r.Below p (.inter ms) :=
      fun p hp => ⟨hor.imp_left (·.piece hp), hr.below_piece h hp⟩
    have ht := hr.unwraps hn (hr.hereditary.inter h.proper.2 m hm)
    by_cases hind : Relate.isIndirect x = true
    · obtain ⟨u, hu⟩ := hr.exists_unwrap? h.proper.1 hind
      obtain ⟨hor', h'⟩ := hpiece u (piece_of_unwrap? hu)
      exact .unwrap hu (.inl ⟨rfl, hor', h', n, hn⟩)
    have hind : Relate.isIndirect x = false := by simpa using hind
    by_cases hind' : Relate.isIndirect t = true
    · obtain ⟨u, hu⟩ := hr.exists_unwrap? ht hind'
      exact .unwrapRight hind hu (.inl ⟨rfl, hor, h, n + 1, hn.tail hu⟩)
    have hind' : Relate.isIndirect t = false := by simpa using hind'
    have hundivided : (∃ ns, x = .inter ns) → r.Undivided m := by
      rintro ⟨ns, rfl⟩
      exact hor.resolve_left fun hsolid => hsolid.ne_inter ns rfl
    cases h.sustained with
    | equiv heq =>
        obtain ⟨ns, rfl⟩ := Ty.exists_inter_of_equiv_inter heq
        obtain ⟨-, -, hfrom⟩ := Ty.equivUnder_inter.1 heq
        obtain ⟨a, ha, ham⟩ := hfrom m hm
        refine .fromInter hind' (hundivided ⟨ns, rfl⟩ n t hn) ⟨a, ha, .inr ?_⟩
        exact hr.below_unwraps hn (holds_of_equiv (hr.hereditary.inter h.proper.1 a ha)
          (hr.hereditary.inter h.proper.2 m hm) ham)
    | unwrap hu => rw [isIndirect_of_unwrap? hu] at hind; cases hind
    | unwrapRight _ hu => cases hu
    | @fromUnion ts _ _ h' =>
        refine .fromUnion hind' fun u hu => ?_
        obtain ⟨hor', h'⟩ := hpiece u (piece_of_mem hu)
        exact .inl ⟨rfl, hor', h', n, hn⟩
    | @fromInter ns _ _ _ h' =>
        obtain ⟨a, ha, h'⟩ := h'
        have hm := hundivided ⟨ns, rfl⟩
        exact .fromInter hind' (hm n t hn) ⟨a, ha, .inl ⟨rfl, .inr hm, h', n, hn⟩⟩
    | intoInter _ _ _ h' => exact (hr.below_unwraps hn (h' m hm)).sustained.mono fun _ => .inr

end Enclosed

end Registry

namespace Session

variable {limit : Nat} {span : Span} {a b t : Ty} {ms : List Ty} {σ : Session}

/-- Where the limit is not exceeded and no assumption is mistaken for another, subtyping decides
whether one type is below another. -/
theorem isOk_subtype_iff_below (hr : σ.registry.Enclosed)
    (ha : a.Enclosed σ.registry fun _ => False) (hb : b.Enclosed σ.registry fun _ => False)
    (hapart : σ.registry.KeptApart limit a b)
    (hlimit : ((subtype limit span a b).run { σ with exceeded := false }).2.exceeded = false) :
    ((subtype limit span a b).run σ).1.isOk = true ↔ σ.registry.Below a b := by
  let ctx : Context := { registry := σ.registry, span }
  have hP : ctx.registry.Hereditary fun t => t.Enclosed ctx.registry fun _ => False := hr.hereditary
  constructor
  · intro h
    obtain ⟨s, hs⟩ : ∃ s, ((subtype limit span a b).run σ).1 = .ok s := by
      generalize ((subtype limit span a b).run σ).1 = out at h
      cases out with
      | error e => cases h
      | ok s => exact ⟨s, rfl⟩
    exact Relate.holds_of_subtype (p := { supply := σ.supply }) hP ha hb hapart hs
  · exact fun h => isOk_of_ends (Relate.ends_subtype_of_holds hP h limit { supply := σ.supply }) hlimit

/-- A type is accepted as a subtype of an intersection if and only if it is as a subtype of every
member, where no run exceeds the limit or mistakes an assumption for another: if no piece of the
type is an intersection.  If one is, the type is still accepted for every member where it is for the
intersection, provided that no member is a union. -/
theorem isOk_subtype_inter (hr : σ.registry.Enclosed) (ht : t.Enclosed σ.registry fun _ => False)
    (hms : (Ty.inter ms).Enclosed σ.registry fun _ => False)
    (hapart : ∀ b ∈ .inter ms :: ms, σ.registry.KeptApart limit t b)
    (hlimit : ∀ b ∈ .inter ms :: ms,
      ((subtype limit span t b).run { σ with exceeded := false }).2.exceeded = false) :
    (σ.registry.Solid t →
      (((subtype limit span t (.inter ms)).run σ).1.isOk = true ↔
        ∀ m ∈ ms, ((subtype limit span t m).run σ).1.isOk = true)) ∧
    ((∀ m ∈ ms, σ.registry.Undivided m) →
      ((subtype limit span t (.inter ms)).run σ).1.isOk = true →
        ∀ m ∈ ms, ((subtype limit span t m).run σ).1.isOk = true) := by
  rw [List.forall_mem_cons] at hapart hlimit
  have hinter := isOk_subtype_iff_below hr ht hms hapart.1 hlimit.1
  have hmember : ∀ m ∈ ms, (((subtype limit span t m).run σ).1.isOk = true ↔
      σ.registry.Below t m) := fun m hm =>
    isOk_subtype_iff_below hr ht (hr.hereditary.inter hms m hm) (hapart.2 m hm) (hlimit.2 m hm)
  refine ⟨fun hsolid => ⟨fun h m hm => ?_, fun h => ?_⟩, fun hundivided h m hm => ?_⟩
  · exact (hmember m hm).2 (hr.below_member hm (.inl hsolid) (hinter.1 h))
  · exact hinter.2 (hr.below_inter hms ht hsolid fun m hm => (hmember m hm).1 (h m hm))
  · exact (hmember m hm).2 (hr.below_member hm (.inr (hundivided m hm)) (hinter.1 h))

/-! ### An instance -/

/-- Two kinds of lamps, of which one bears a name. -/
def wired : Ty := .record [("on", .bool), ("watts", .int)] none

def marked : Ty := .record [("name", .string), ("on", .bool), ("watts", .int)] none

/-- A session in which a `Lamp` is one record or the other. -/
def withLamps : Session :=
  { registry := { definitions := [("Lamp", ⟨"Lamp", [], .union [wired, marked], {}⟩)] } }

def lamp : Ty := .named "Lamp" []

/-- What can be switched, and what uses power. -/
def switched : Ty := .record [("on", .bool)] none

def powered : Ty := .record [("watts", .int)] none

/-- The comparisons that come up when a lamp is used as something that can be switched or that uses
power, apart from the first one. -/
def lampComparisons : List Comparison :=
  ([.inter [switched, powered], switched, powered].flatMap fun b =>
    [⟨false, .union [wired, marked], b⟩, ⟨false, wired, b⟩, ⟨false, marked, b⟩]) ++
  [⟨true, .bool, .bool⟩, ⟨true, .int, .int⟩]

theorem unwrap?_lamp : withLamps.registry.unwrap? lamp = some (.union [wired, marked]) := rfl

theorem leads_lampComparisons : lampComparisons.flatMap (·.leads withLamps.registry) =
    [⟨false, wired, .inter [switched, powered]⟩, ⟨false, marked, .inter [switched, powered]⟩,
      ⟨false, wired, switched⟩, ⟨false, wired, powered⟩,
      ⟨false, marked, switched⟩, ⟨false, marked, powered⟩,
      ⟨false, wired, switched⟩, ⟨false, marked, switched⟩, ⟨true, .bool, .bool⟩,
      ⟨true, .bool, .bool⟩,
      ⟨false, wired, powered⟩, ⟨false, marked, powered⟩, ⟨true, .int, .int⟩, ⟨true, .int, .int⟩] := by
  cbv

theorem keptApart_lamp {b : Ty} (hb : b ∈ [.inter [switched, powered], switched, powered]) :
    withLamps.registry.KeptApart 250 lamp b := by
  have hne : lamp.equiv b = false := by
    simp only [List.mem_cons, List.not_mem_nil, or_false] at hb
    rcases hb with rfl | rfl | rfl <;> cbv
  have hclosed : lampComparisons.flatMap (·.leads withLamps.registry) ⊆ lampComparisons := by
    rw [leads_lampComparisons]
    simp [lampComparisons]
  refine Registry.keptApart_of_direct lampComparisons ?_ ?_
  · refine List.forall_mem_cons.2 ⟨fun d hd => ?_, fun c hc d hd => ?_⟩
    · rw [Comparison.leads, Registry.follows_unwrap hne unwrap?_lamp, List.mem_singleton] at hd
      exact List.mem_cons_of_mem _ (hd ▸ List.mem_append_left _
        (List.mem_flatMap.2 ⟨b, hb, List.mem_cons_self⟩))
    · exact List.mem_cons_of_mem _ (hclosed (List.mem_flatMap.2 ⟨c, hc, hd⟩))
  · simp [lampComparisons, Relate.isIndirect, wired, marked, switched, powered, Ty.bool, Ty.int]

/-- Lamps can be switched and use power, so each lamp is accepted as something that does both. -/
theorem isOk_subtype_lamp :
    withLamps.registry.Enclosed ∧ lamp.Enclosed withLamps.registry (fun _ => False) ∧
    (Ty.inter [switched, powered]).Enclosed withLamps.registry (fun _ => False) ∧
    (∀ b ∈ [.inter [switched, powered], switched, powered],
      withLamps.registry.KeptApart 250 lamp b ∧
      ((subtype 250 {} lamp b).run { withLamps with exceeded := false }).2.exceeded = false) ∧
    withLamps.registry.Solid lamp ∧ (∀ m ∈ [switched, powered], withLamps.registry.Undivided m) ∧
    (((subtype 250 {} lamp (.inter [switched, powered])).run withLamps).1.isOk = true ↔
      ∀ m ∈ [switched, powered], ((subtype 250 {} lamp m).run withLamps).1.isOk = true) ∧
    ((subtype 250 {} lamp (.inter [switched, powered])).run withLamps).1.isOk = true := by
  have hclosed : ∀ {P : Int → Prop} {fs : List (String × Ty)}, Table.Ascending fs →
      (∀ f ∈ fs, ∃ name, f.2 = .prim name) → (Ty.record fs none).Enclosed withLamps.registry P :=
    fun hasc hfs => .record hasc fun f hf => by
      obtain ⟨name, hname⟩ := hfs f hf
      exact hname ▸ .prim name
  have hregistry : withLamps.registry.Enclosed := by
    refine List.forall_mem_singleton.2 (.union (by decide) ?_ ?_ ?_)
    · refine List.forall_mem_cons.2 ⟨?_, List.forall_mem_singleton.2 ?_⟩ <;>
        exact hclosed (by unfold Table.Ascending; decide) (by simp [Ty.bool, Ty.int, Ty.string])
    · simp [wired, marked]
    · simp [wired, marked, Ty.equiv, Ty.equivUnder]
  have hlamp : lamp.Enclosed withLamps.registry (fun _ => False) :=
    .named (d := ⟨"Lamp", [], .union [wired, marked], {}⟩) rfl rfl (List.forall_mem_nil _)
  have hinter : (Ty.inter [switched, powered]).Enclosed withLamps.registry (fun _ => False) := by
    refine .inter (by decide) ?_ ?_ ?_
    · refine List.forall_mem_cons.2 ⟨?_, List.forall_mem_singleton.2 ?_⟩ <;>
        exact hclosed (by simp [Table.Ascending]) (by simp [Ty.bool, Ty.int])
    · simp [switched, powered]
    · simp [switched, powered, Ty.equiv, Ty.equivUnder, Ty.equivFields, Table.get?]
  have hlimit : ∀ b ∈ [.inter [switched, powered], switched, powered],
      ((subtype 250 {} lamp b).run { withLamps with exceeded := false }).2.exceeded = false := by
    simp only [List.forall_mem_cons]
    exact ⟨by decide +kernel, by decide +kernel, by decide +kernel, List.forall_mem_nil _⟩
  have hsolid : withLamps.registry.Solid lamp := by
    refine Registry.solid_of_unwrap? unwrap?_lamp (Registry.solid_union ?_)
    exact List.forall_mem_cons.2 ⟨Registry.solid_record, List.forall_mem_singleton.2
      Registry.solid_record⟩
  have hundivided : ∀ m ∈ [switched, powered], withLamps.registry.Undivided m :=
    List.forall_mem_cons.2 ⟨Registry.undivided_of_direct rfl (by rintro _ ⟨⟩),
      List.forall_mem_singleton.2 (Registry.undivided_of_direct rfl (by rintro _ ⟨⟩))⟩
  have h := isOk_subtype_inter hregistry hlamp hinter (fun b hb => keptApart_lamp hb) hlimit
  exact ⟨hregistry, hlamp, hinter, fun b hb => ⟨keptApart_lamp hb, hlimit b hb⟩, hsolid, hundivided,
    h.1 hsolid, by decide +kernel⟩

end Session

end RowTypes
