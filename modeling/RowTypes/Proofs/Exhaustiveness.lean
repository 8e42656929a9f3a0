import Mathlib.Data.Finset.Dedup
import Mathlib.Data.Fintype.EquivFin
import Mathlib.Data.Set.Finite.Basic
import RowTypes.Proofs.Values

/-!
# What is missing from a match

The spaces that are listed for a type hold all of its values, so a match that leaves no space
uncovered has a case for every value.  That asks of the cases that they name only fields of the
spaces they cover: a space counts a field that it does not have as anything, and the value that
lacks the field is matched by no case.

Conversely each space holds a value that no case accepts but those that cover the space.  It is put
together from one constant that no literal of the match writes, taken wherever the type leaves the
choice, and so it stays a value of the type whichever space it is taken from.  Unit leaves no
choice, and its one value is accepted by a literal that does not cover the space of unit, since the
two write it differently: what is reported for a match on unit may be covered.
-/

namespace RowTypes

open Space

/-! ## What is listed -/

section Listing

variable {onMu : TyVar → Ty → Option (List Space)}

/-- A space is among those listed for a type. -/
def Ty.Lists (onMu : TyVar → Ty → Option (List Space)) (t : Ty) (s : Space) : Prop :=
  ∃ ss, enumerateWith onMu t = some ss ∧ s ∈ ss

theorem enumerateAlts_eq_some : ∀ {ts : List Ty} {ss : List Space},
    enumerateAlts onMu ts = some ss → (∀ t ∈ ts, ∃ here, enumerateWith onMu t = some here) ∧
      ∀ s, s ∈ ss ↔ ∃ t ∈ ts, t.Lists onMu s
  | [], ss, h => by
      cases (by simpa [enumerateAlts] using h : [] = ss)
      simp
  | t :: ts, ss, h => by
      rw [enumerateAlts] at h
      simp only [Option.bind_eq_bind, Option.bind_eq_some_iff] at h
      obtain ⟨here, hhere, rest, hrest, h⟩ := h
      split at h
      · cases h
      · cases h
        obtain ⟨hall, hmem⟩ := enumerateAlts_eq_some hrest
        refine ⟨List.forall_mem_cons.2 ⟨⟨here, hhere⟩, hall⟩, fun s => ?_⟩
        rw [List.mem_append, hmem, List.exists_mem_cons_iff]
        simp [Ty.Lists, hhere]

theorem extend?_eq_some {front rows : List (List Space)} {spaces : List Space}
    (h : extend? front spaces = some rows) (row : List Space) :
    row ∈ rows ↔ ∃ before ∈ front, ∃ s ∈ spaces, row = before ++ [s] := by
  unfold extend? at h
  split at h
  · cases h
  · cases h
    simp [eq_comm]

/-- The products are the rows that take a space of each type. -/
theorem productOf_eq_some : ∀ {ts : List Ty} {front rows : List (List Space)},
    productOf onMu front ts = some rows → (∀ t ∈ ts, ∃ ss, enumerateWith onMu t = some ss) ∧
      ∀ row, row ∈ rows ↔ ∃ before ∈ front, ∃ after, row = before ++ after ∧
        List.Forall₂ (Ty.Lists onMu) ts after
  | [], front, rows, h => by
      cases (by simpa [productOf] using h : front = rows)
      simp
  | t :: ts, front, rows, h => by
      rw [productOf] at h
      simp only [Option.bind_eq_bind, Option.bind_eq_some_iff] at h
      obtain ⟨spaces, hspaces, front', hfront, h⟩ := h
      obtain ⟨hall, hmem⟩ := productOf_eq_some h
      refine ⟨List.forall_mem_cons.2 ⟨⟨spaces, hspaces⟩, hall⟩, fun row => ?_⟩
      rw [hmem]
      constructor
      · rintro ⟨before', hbefore', after, rfl, hafter⟩
        obtain ⟨before, hbefore, s, hs, rfl⟩ := (extend?_eq_some hfront _).1 hbefore'
        exact ⟨before, hbefore, s :: after, by simp, .cons ⟨spaces, hspaces, hs⟩ hafter⟩
      · rintro ⟨before, hbefore, row, rfl, hrow⟩
        cases hrow with
        | @cons _ s _ after hs hafter =>
            obtain ⟨spaces', hspaces', hs⟩ := hs
            cases hspaces.symm.trans hspaces'
            exact ⟨before ++ [s], (extend?_eq_some hfront _).2 ⟨before, hbefore, s, hs, rfl⟩, after,
              by simp, hafter⟩

theorem productOfFields_eq : ∀ (front : List (List Space)) (fs : List (String × Ty)),
    productOfFields onMu front fs = productOf onMu front (fs.map (·.2))
  | _, [] => by simp [productOfFields, productOf]
  | _, (name, t) :: fs => by
      have ih := fun front => productOfFields_eq front fs
      simp only [productOfFields, List.map_cons, productOf, ih]

/-- A tuple's spaces are the tuples of spaces of its elements. -/
theorem lists_tuple {ts : List Ty} {s : Space} (h : (Ty.tuple ts).Lists onMu s) :
    ∃ ss, s = .tuple ss ∧ List.Forall₂ (Ty.Lists onMu) ts ss := by
  obtain ⟨spaces, hspaces, hs⟩ := h
  rw [enumerateWith, Option.map_eq_some_iff] at hspaces
  obtain ⟨rows, hrows, rfl⟩ := hspaces
  obtain ⟨row, hrow, rfl⟩ := List.mem_map.1 hs
  obtain ⟨before, hbefore, after, rfl, hafter⟩ := ((productOf_eq_some hrows).2 row).1 hrow
  cases List.mem_singleton.1 hbefore
  exact ⟨after, rfl, hafter⟩

/-- A record's spaces are the records of spaces of its fields. -/
theorem lists_record {fs : List (String × Ty)} {row : Option TyVar} {s : Space}
    (h : (Ty.record fs row).Lists onMu s) :
    ∃ ss, s = .record ((Table.keys fs).zip ss) ∧
      List.Forall₂ (Ty.Lists onMu) (fs.map (·.2)) ss := by
  obtain ⟨spaces, hspaces, hs⟩ := h
  rw [enumerateWith, productOfFields_eq, Option.map_eq_some_iff] at hspaces
  obtain ⟨rows, hrows, rfl⟩ := hspaces
  obtain ⟨ss, hss, rfl⟩ := List.mem_map.1 hs
  obtain ⟨before, hbefore, after, rfl, hafter⟩ := ((productOf_eq_some hrows).2 ss).1 hss
  cases List.mem_singleton.1 hbefore
  exact ⟨after, rfl, hafter⟩

end Listing

/-! ## Every value is in a space -/

/-- What is listed for a recursive type, where some binders are being unfolded. -/
def Space.ofMu (n : Nat) (unfolding : List Int) (v : TyVar) (body : Ty) : Option (List Space) :=
  match n with
  | 0 => some [.anything]
  | n + 1 =>
    if v.id ∈ unfolding then some [.anything]
    else enumerateWithin n (v.id :: unfolding) (.unfold v body)

theorem Space.enumerateWithin_eq (n : Nat) (unfolding : List Int) (t : Ty) :
    enumerateWithin n unfolding t = enumerateWith (ofMu n unfolding) t := by cases n <;> rfl

theorem Ty.exists_row {onMu : TyVar → Ty → Option (List Space)} {ts : List Ty} {vs : List Value}
    (hlen : ts.length = vs.length)
    (h : ∀ entry ∈ ts.zip vs, ∀ ss, enumerateWith onMu entry.1 = some ss →
      ∃ s ∈ ss, s.has entry.2 = true) (hall : ∀ t ∈ ts, ∃ ss, enumerateWith onMu t = some ss) :
    ∃ row, List.Forall₂ (Ty.Lists onMu) ts row ∧ hasAll row vs = true := by
  induction ts generalizing vs with
  | nil =>
      cases vs with
      | nil => exact ⟨[], .nil, rfl⟩
      | cons => cases hlen
  | cons t ts ih =>
      cases vs with
      | nil => cases hlen
      | cons v vs =>
          rw [List.zip_cons_cons, List.forall_mem_cons] at h
          obtain ⟨⟨ss, hss⟩, hall⟩ := List.forall_mem_cons.1 hall
          obtain ⟨s, hs, hsv⟩ := h.1 ss hss
          obtain ⟨row, hrow, hvs⟩ := ih (Nat.succ.inj hlen) h.2 hall
          exact ⟨s :: row, .cons ⟨ss, hss, hs⟩ hrow, by rw [hasAll, hsv, hvs]; rfl⟩

/-- The values of the fields of a record are in the record of a row that holds them. -/
theorem Space.hasFields_zip {fs : List (String × Value)} : ∀ {names : List String}
    {row : List Space} {vs : List Value}, hasAll row vs = true →
      List.Forall₂ (fun name v => Table.get? name fs = some v) names vs →
      hasFields (names.zip row) fs = true
  | [], _, _, _, _ => by simp [hasFields]
  | _ :: _, [], [], _, h => by cases h
  | _ :: _, [], _ :: _, hrow, _ => by simp [hasAll] at hrow
  | _ :: _, _ :: _, [], hrow, _ => by simp [hasAll] at hrow
  | name :: names, s :: row, v :: vs, hrow, h => by
      cases h with
      | cons hv hvs =>
          rw [hasAll, Bool.and_eq_true] at hrow
          rw [List.zip_cons_cons, hasFields, Bool.and_eq_true, Option.any_eq_true]
          exact ⟨⟨v, hv, hrow.1⟩, hasFields_zip hrow.2 hvs⟩

/-- Each value that a type allows is in one of its spaces. -/
theorem Ty.Allows.exists_space {t : Ty} {v : Value} (hv : t.Allows v) :
    ∀ {n : Nat} {unfolding : List Int} {ss : List Space},
      enumerateWithin n unfolding t = some ss → ∃ s ∈ ss, s.has v = true := by
  -- By induction on how the value comes to be of the type: a recursive type is unfolded on both
  -- sides, or counts as anything.
  induction hv with
  | bool b =>
      intro n unfolding ss h
      rw [enumerateWithin_eq] at h
      cases h
      cases b with
      | true => exact ⟨.literal .bool "true", List.mem_cons_self, by decide⟩
      | false => exact ⟨.literal .bool "false", by simp [ofPrimitive, truths], by decide⟩
  | unit =>
      intro n unfolding ss h
      rw [enumerateWithin_eq] at h
      cases h
      exact ⟨.literal .unit "()", List.mem_singleton.2 rfl, by decide⟩
  | prim v hbool hunit =>
      intro n unfolding ss h
      rw [enumerateWithin_eq, enumerateWith, ofPrimitive, if_neg hbool, if_neg hunit] at h
      cases h
      exact ⟨.anything, List.mem_singleton.2 rfl, by rw [has]⟩
  | var | named | fn | inter =>
      intro n unfolding ss h
      rw [enumerateWithin_eq] at h
      cases h
      exact ⟨.anything, List.mem_singleton.2 rfl, by rw [has]⟩
  | lit s =>
      intro n unfolding ss h
      rw [enumerateWithin_eq] at h
      cases h
      exact ⟨_, List.mem_singleton.2 rfl, by simp [has, Const.isWritten, Const.kind, Const.text]⟩
  | @tuple ts vs hlen _ ih =>
      intro n unfolding ss h
      rw [enumerateWithin_eq, enumerateWith, Option.map_eq_some_iff] at h
      obtain ⟨rows, hrows, rfl⟩ := h
      obtain ⟨hall, hmem⟩ := productOf_eq_some hrows
      obtain ⟨row, hrow, hvs⟩ := exists_row hlen
        (fun entry hentry ss hss => ih entry hentry ((enumerateWithin_eq ..).trans hss)) hall
      exact ⟨.tuple row, List.mem_map_of_mem ((hmem row).2 ⟨[], by simp, row, rfl, hrow⟩),
        by rw [has, hvs]⟩
  | @record fs r vs hthere _ ih =>
      intro n unfolding ss h
      rw [enumerateWithin_eq, enumerateWith, productOfFields_eq, Option.map_eq_some_iff] at h
      obtain ⟨rows, hrows, rfl⟩ := h
      obtain ⟨hall, hmem⟩ := productOf_eq_some hrows
      -- The values that are looked up under the names of the fields, in their order.
      obtain ⟨xs, hxs⟩ : ∃ xs, List.Forall₂ (fun f v => Table.get? f.1 vs = some v) fs xs := by
        refine ⟨fs.map fun f => (Table.get? f.1 vs).getD (.closure 0), ?_⟩
        rw [List.forall₂_map_right_iff, List.forall₂_same]
        intro f hf
        obtain ⟨v, hv⟩ := Option.isSome_iff_exists.1 (hthere f hf)
        rw [hv, Option.getD_some]
      have hspace : ∀ entry ∈ (fs.map (·.2)).zip xs, ∀ ss,
          enumerateWith (ofMu n unfolding) entry.1 = some ss → ∃ s ∈ ss, s.has entry.2 = true := by
        intro entry hentry ss hss
        rw [List.zip_map_left] at hentry
        obtain ⟨⟨f, v⟩, hf, rfl⟩ := List.mem_map.1 hentry
        have hget := (List.forall₂_iff_zip.1 hxs).2 hf
        exact ih f (List.of_mem_zip hf).1 v hget ((enumerateWithin_eq ..).trans hss)
      obtain ⟨row, hrow, hvs⟩ := exists_row (by simpa using hxs.length_eq) hspace hall
      refine ⟨_, List.mem_map_of_mem ((hmem row).2 ⟨[], by simp, row, rfl, hrow⟩), ?_⟩
      rw [has]
      exact hasFields_zip hvs (List.forall₂_map_left_iff.2 hxs)
  | @union ts t v ht _ ih =>
      intro n unfolding ss h
      rw [enumerateWithin_eq, enumerateWith] at h
      obtain ⟨hall, hmem⟩ := enumerateAlts_eq_some h
      obtain ⟨here, hhere⟩ := hall t ht
      obtain ⟨s, hs, hsv⟩ := ih ((enumerateWithin_eq ..).trans hhere)
      exact ⟨s, (hmem s).2 ⟨t, ht, here, hhere, hs⟩, hsv⟩
  | @mu b t v _ ih =>
      intro n unfolding ss h
      rw [enumerateWithin_eq, enumerateWith] at h
      unfold ofMu at h
      split at h
      · cases h
        exact ⟨.anything, List.mem_singleton.2 rfl, by rw [has]⟩
      · split at h
        · cases h
          exact ⟨.anything, List.mem_singleton.2 rfl, by rw [has]⟩
        · exact ih h

/-- Each value of a type is in one of its spaces. -/
theorem Ty.Has.exists_space {t : Ty} {v : Value} (hv : t.Has v) {n : Nat} {unfolding : List Int}
    {ss : List Space} (h : enumerateWithin n unfolding t = some ss) :
    ∃ s ∈ ss, s.has v = true := hv.allows.exists_space h

/-! ## Matches that leave nothing out -/

namespace Pattern

/-- Whether each space of a type that is covered at all is covered by a case that names only fields
of its records. -/
def namedBy (t : Ty) (cases : List Pattern) : Bool :=
  (t.spaces?.getD []).all fun s =>
    !cases.any (·.covers s) || cases.any fun p => p.covers s && p.namesWithin s

theorem sorted_eq_nil {names : List String} (h : Text.Names.sorted names = []) : names = [] := by
  refine List.eq_nil_iff_forall_not_mem.2 fun x hx => ?_
  have := Text.Names.mem_sorted.2 hx
  rw [h] at this
  cases this

theorem uncovered?_eq_nil {t : Ty} {cases : List Pattern} (h : uncovered? t cases = some []) :
    (∃ p ∈ cases, p.isIrrefutable = true) ∨
      ∃ ss, t.spaces? = some ss ∧ ∀ s ∈ ss, cases.any (·.covers s) = true := by
  unfold uncovered? at h
  split at h
  · next hany => exact .inl (List.any_eq_true.1 hany)
  · obtain ⟨ss, hss, h⟩ := Option.map_eq_some_iff.1 h
    refine .inr ⟨ss, hss, fun s hs => ?_⟩
    have hnone := List.map_eq_nil_iff.1 (sorted_eq_nil h)
    simpa using List.filter_eq_nil_iff.1 hnone s hs

/-- A match of which nothing is missing has a case for every value. -/
theorem exists_accepts_of_uncovered {t : Ty} {cases : List Pattern} {v : Value}
    (hnamed : namedBy t cases = true) (h : uncovered? t cases = some []) (hv : t.Has v) :
    ∃ p ∈ cases, p.accepts v = true := by
  rcases uncovered?_eq_nil h with ⟨p, hp, hirr⟩ | ⟨ss, hss, hcovered⟩
  · exact ⟨p, hp, accepts_of_isIrrefutable hirr v⟩
  · obtain ⟨s, hs, hsv⟩ := hv.exists_space hss
    rw [namedBy, hss, Option.getD_some, List.all_eq_true] at hnamed
    have hcase := hnamed s hs
    rw [hcovered s hs, Bool.not_true, Bool.false_or, List.any_eq_true] at hcase
    obtain ⟨p, hp, hcovers⟩ := hcase
    rw [Bool.and_eq_true] at hcovers
    exact ⟨p, hp, accepts_of_covers hcovers.1 hcovers.2 hsv⟩

/-- A value that may be a shape with a radius or one with a side. -/
def shape : Ty := .union [.record [("radius", .int)] none, .record [("side", .bool)] none]

def ofRadius : Pattern := .record .unknown [("radius", .wildcard .unknown)]

def ofSide : Pattern := .record .unknown [("side", .literal .unknown .bool "true")]

theorem exists_accepts_square : ∃ p ∈ [ofRadius, ofSide, .record .unknown []],
    p.accepts (.record [("side", .const (.bool false))]) = true := by
  refine exists_accepts_of_uncovered (t := shape) (by decide +kernel) (by decide +kernel)
    (.union (List.mem_cons_of_mem _ List.mem_cons_self) (.record ?_ ?_ ?_))
  · simp [Table.get?]
  · simp only [List.mem_singleton, forall_eq, Table.get?, if_true, Option.some.injEq]
    rintro v rfl
    exact .bool false
  · simp [Table.keys]

-- Without the condition a square is left out, and nothing is missing all the same.
example : uncovered? shape [ofRadius] = some [] ∧
    ofRadius.accepts (.record [("side", .const (.bool false))]) = false := by decide +kernel

end Pattern

/-! ## Matches that leave something out -/

namespace Ty

/-- Types that are put together from some primitives, without recursion, named types or unknowns.
Fields are in order of their names. -/
inductive BuiltFrom (prims : List String) : Ty → Prop where
  | prim {name : String} : name ∈ prims → BuiltFrom prims (.prim name)
  | lit (s : String) : BuiltFrom prims (.lit s)
  | fn (p r : Ty) : BuiltFrom prims (.fn p r)
  | tuple {ts : List Ty} : (∀ t ∈ ts, BuiltFrom prims t) → BuiltFrom prims (.tuple ts)
  | record {fs : List (String × Ty)} {row : Option TyVar} : Table.Ascending fs →
      (∀ f ∈ fs, BuiltFrom prims f.2) → BuiltFrom prims (.record fs row)
  | union {ts : List Ty} : (∀ t ∈ ts, BuiltFrom prims t) → BuiltFrom prims (.union ts)

end Ty

namespace Pattern

mutual

/-- The literals inside a pattern. -/
def literals : Pattern → List (LiteralKind × String)
  | .literal _ kind text => [(kind, text)]
  | .tuple _ ps => literalsAll ps
  | .record _ fs => literalsFields fs
  | _ => []

/-- The literals inside several patterns. -/
def literalsAll : List Pattern → List (LiteralKind × String)
  | [] => []
  | p :: ps => p.literals ++ literalsAll ps

/-- The literals inside the patterns of fields. -/
def literalsFields : List (String × Pattern) → List (LiteralKind × String)
  | [] => []
  | (_, p) :: fs => p.literals ++ literalsFields fs

end

theorem mem_literalsAll {l : LiteralKind × String} : ∀ {ps : List Pattern} {p : Pattern}, p ∈ ps →
    l ∈ p.literals → l ∈ literalsAll ps
  | p :: ps, q, hq, hl => by
      rw [literalsAll, List.mem_append]
      rcases List.mem_cons.1 hq with rfl | hq
      · exact .inl hl
      · exact .inr (mem_literalsAll hq hl)

theorem mem_literalsFields {l : LiteralKind × String} : ∀ {fs : List (String × Pattern)}
    {f : String × Pattern}, f ∈ fs → l ∈ f.2.literals → l ∈ literalsFields fs
  | (name, p) :: fs, f, hf, hl => by
      rw [literalsFields, List.mem_append]
      rcases List.mem_cons.1 hf with rfl | hf
      · exact .inl hl
      · exact .inr (mem_literalsFields hf hl)

end Pattern

namespace Space

/-- A value that stands for a space: of the patterns with some literals, only those that cover the
space accept it. -/
def StoodForBy (written : List (LiteralKind × String)) (s : Space) (v : Value) : Prop :=
  ∀ p : Pattern, p.literals ⊆ written → p.accepts v = true → p.covers s = true

section

variable {written : List (LiteralKind × String)}

/-- A value that no literal writes, that is no tuple and no record, stands for anything. -/
theorem stoodForBy_anything {v : Value}
    (hconst : ∀ c, v = .const c → ∀ l ∈ written, c.isWritten l.1 l.2 = false)
    (htuple : ∀ vs, v ≠ .tuple vs) (hrecord : ∀ vs, v ≠ .record vs) :
    StoodForBy written .anything v := by
  intro p hp hv
  cases p with
  | var | wildcard => rw [Pattern.covers]
  | missing => cases v <;> cases hv
  | literal span kind text =>
      cases v with
      | const c =>
          rw [Pattern.accepts, hconst c rfl (kind, text) (hp (by simp [Pattern.literals]))] at hv
          cases hv
      | _ => cases hv
  | tuple span ps =>
      cases v with
      | tuple vs => exact absurd rfl (htuple vs)
      | _ => cases hv
  | record span fs =>
      cases v with
      | record vs => exact absurd rfl (hrecord vs)
      | _ => cases hv

/-- A constant stands for its literal, if no literal writes it in another way. -/
theorem stoodForBy_literal {c : Const} {text : String}
    (h : ∀ l ∈ written, c.isWritten l.1 l.2 = true → l.2 = text) :
    StoodForBy written (.literal c.kind text) (.const c) := by
  intro p hp hv
  cases p with
  | var | wildcard => rw [Pattern.covers]
  | literal span kind text' =>
      rw [Pattern.accepts] at hv
      obtain rfl : text' = text := h (kind, text') (hp (by simp [Pattern.literals])) hv
      simp [Pattern.covers, (Const.isWritten_iff.1 hv).1]
  | _ => cases hv

theorem coversAll_of_stoodForBy {ss : List Space} {vs : List Value}
    (h : List.Forall₂ (StoodForBy written) ss vs) : ∀ {ps : List Pattern},
      Pattern.literalsAll ps ⊆ written → Pattern.acceptsAll ps vs = true →
        Pattern.coversAll ps ss = true := by
  induction h with
  | nil =>
      intro ps _ hvs
      cases ps with
      | nil => rfl
      | cons => cases hvs
  | @cons s v ss vs hs _ ih =>
      intro ps hps hvs
      cases ps with
      | nil => cases hvs
      | cons p ps =>
          rw [Pattern.literalsAll, List.append_subset] at hps
          rw [Pattern.acceptsAll, Bool.and_eq_true] at hvs
          rw [Pattern.coversAll, hs p hps.1 hvs.1, ih hps.2 hvs.2, Bool.true_and]

theorem stoodForBy_tuple {ss : List Space} {vs : List Value}
    (h : List.Forall₂ (StoodForBy written) ss vs) :
    StoodForBy written (.tuple ss) (.tuple vs) := by
  intro p hp hv
  cases p with
  | var | wildcard => rw [Pattern.covers]
  | tuple span ps =>
      rw [Pattern.literals] at hp
      rw [Pattern.accepts] at hv
      rw [Pattern.covers, coversAll_of_stoodForBy h hp hv]
  | _ => cases hv

end

end Space

theorem Table.get?_zip {α β : Type} {R : α → β → Prop} {name : String} {y : β} :
    ∀ {names : List String} {xs : List α} {ys : List β}, List.Forall₂ R xs ys →
      Table.get? name (names.zip ys) = some y →
        ∃ x, Table.get? name (names.zip xs) = some x ∧ R x y
  | [], _, _, _, hy => by cases hy
  | _ :: _, [], [], _, hy => by cases hy
  | n :: names, x :: xs, y' :: ys, h, hy => by
      cases h with
      | cons hxy hrest =>
          rw [List.zip_cons_cons, Table.get?_cons] at hy ⊢
          by_cases hn : name = n
          · rw [if_pos hn] at hy ⊢
            cases hy
            exact ⟨x, rfl, hxy⟩
          · rw [if_neg hn] at hy ⊢
            exact Table.get?_zip hrest hy

namespace Space

theorem lookup_eq_get? (name : String) : ∀ fs : List (String × Space),
    fs.lookup name = Table.get? name fs
  | [] => rfl
  | (name', s) :: fs => by
      rw [List.lookup_cons, Table.get?_cons, lookup_eq_get? name fs]
      by_cases h : name = name'
      · simp [h]
      · rw [if_neg h, beq_false_of_ne h]

theorem stoodForBy_record {written : List (LiteralKind × String)} {names : List String}
    {ss : List Space} {vs : List Value} (h : List.Forall₂ (StoodForBy written) ss vs) :
    StoodForBy written (.record (names.zip ss)) (.record (names.zip vs)) := by
  intro p hp hv
  cases p with
  | var | wildcard => rw [Pattern.covers]
  | record span fs =>
      rw [Pattern.literals] at hp
      rw [Pattern.accepts, Pattern.acceptsFields_iff] at hv
      rw [Pattern.covers, Pattern.coversFields_iff]
      intro f hf
      obtain ⟨v, hget, hfv⟩ := hv f hf
      obtain ⟨s, hs, hsv⟩ := Table.get?_zip h hget
      rw [fieldOf, lookup_eq_get?, hs, Option.getD_some]
      exact hsv f.2 (fun l hl => hp (Pattern.mem_literalsFields hf hl)) hfv
  | _ => cases hv

end Space

namespace Ty

variable {prims : List String} {written : List (LiteralKind × String)}
variable {onMu : TyVar → Ty → Option (List Space)}

/-- Spaces of types that have values standing for them have a row of such values. -/
theorem exists_stoodForBy_row {ts : List Ty} {ss : List Space}
    (h : List.Forall₂ (Lists onMu) ts ss)
    (ih : ∀ t ∈ ts, ∀ s, t.Lists onMu s → ∃ v, t.Has v ∧ StoodForBy written s v) :
    ∃ vs, List.Forall₂ Has ts vs ∧ List.Forall₂ (StoodForBy written) ss vs := by
  induction h with
  | nil => exact ⟨[], .nil, .nil⟩
  | @cons t s ts ss hs _ ihrest =>
      rw [List.forall_mem_cons] at ih
      obtain ⟨v, hv, hsv⟩ := ih.1 s hs
      obtain ⟨vs, hvs, hsvs⟩ := ihrest ih.2
      exact ⟨v :: vs, .cons hv hvs, .cons hsv hsvs⟩

theorem has_record {fs : List (String × Ty)} {row : Option TyVar} {vs : List Value}
    (hasc : Table.Ascending fs) (h : List.Forall₂ Has (fs.map (·.2)) vs) :
    (Ty.record fs row).Has (.record ((Table.keys fs).zip vs)) := by
  have hlen : (Table.keys fs).length ≤ vs.length := by
    simpa [Table.keys] using h.length_eq.le
  have hfs : (Table.keys fs).zip (fs.map (·.2)) = fs := (List.zip_of_prod rfl rfl).symm
  refine .record (fun f hf => ?_) (fun f hf v hv => ?_) fun _ f hf => (List.of_mem_zip hf).1
  · rw [Table.get?_isSome, Table.keys, List.map_fst_zip hlen]
    exact List.mem_map_of_mem hf
  · obtain ⟨t, ht, htv⟩ := Table.get?_zip h hv
    rw [hfs, Table.get?_of_mem hasc hf] at ht
    cases ht
    exact htv

/-- Each space of a type holds a value of the type that stands for it.  Where the type leaves the
choice, `n` is taken, or its digits; for unit there is none, so its literals have to be written as
its space is. -/
theorem BuiltFrom.exists_stoodForBy {n : Int} (hn : ∀ l ∈ written, l.2 ≠ n.repr)
    (hprims : prims ⊆ primitiveNames)
    (hunit : "Unit" ∈ prims → ∀ l ∈ written, l.1 = .unit → l.2 = "()") {t : Ty}
    (ht : t.BuiltFrom prims) : ∀ s, t.Lists onMu s → ∃ v, t.Has v ∧ StoodForBy written s v := by
  -- No pattern writes the numeral of `n`, so its constant is among those left over.
  have hfresh : ∀ c : Const, c ≠ .unit → c.text = n.repr →
      StoodForBy written .anything (.const c) := by
    intro c hc htext
    refine stoodForBy_anything (fun c' hc' l hl => ?_) (by simp) (by simp)
    cases hc'
    rw [Bool.eq_false_iff, ne_eq, Const.isWritten_iff]
    rintro ⟨-, hunit | hl'⟩
    · exact hc hunit
    · exact hn l hl (hl'.trans htext)
  have hliteral : ∀ c : Const, c ≠ .unit →
      StoodForBy written (.literal c.kind c.text) (.const c) := by
    refine fun c hc => stoodForBy_literal fun l _ hl => ?_
    exact (Const.isWritten_iff.1 hl).2.resolve_left hc
  induction ht with
  | @prim name hname =>
      rintro s ⟨ss, hss, hs⟩
      rw [enumerateWith] at hss
      cases hss
      have := hprims hname
      simp only [primitiveNames, List.mem_cons, List.not_mem_nil, or_false] at this
      rcases this with rfl | rfl | rfl | rfl
      · cases List.mem_singleton.1 hs
        exact ⟨_, .int n, hfresh (.int n) (by simp) rfl⟩
      · cases List.mem_singleton.1 hs
        exact ⟨_, .string n.repr, hfresh (.string n.repr) (by simp) rfl⟩
      · rcases List.mem_pair.1 hs with rfl | rfl
        · exact ⟨_, .bool true, hliteral (.bool true) (by simp)⟩
        · exact ⟨_, .bool false, hliteral (.bool false) (by simp)⟩
      · cases List.mem_singleton.1 hs
        refine ⟨_, .unit, stoodForBy_literal (c := .unit) fun l hl hc => ?_⟩
        exact hunit hname l hl (Const.isWritten_iff.1 hc).1
  | lit text =>
      rintro s ⟨ss, hss, hs⟩
      rw [enumerateWith] at hss
      cases hss
      cases List.mem_singleton.1 hs
      exact ⟨_, .lit text, hliteral (.string text) (by simp)⟩
  | fn p r =>
      rintro s ⟨ss, hss, hs⟩
      cases hss
      cases List.mem_singleton.1 hs
      exact ⟨_, .fn p r 0, stoodForBy_anything (by simp) (by simp) (by simp)⟩
  | tuple _ ih =>
      intro s hs
      obtain ⟨ss, rfl, hss⟩ := lists_tuple hs
      obtain ⟨vs, hvs, hstood⟩ := exists_stoodForBy_row hss ih
      refine ⟨.tuple vs, .tuple hvs.length_eq fun entry hentry => ?_, stoodForBy_tuple hstood⟩
      exact (List.forall₂_iff_zip.1 hvs).2 hentry
  | record hasc _ ih =>
      intro s hs
      obtain ⟨ss, rfl, hss⟩ := lists_record hs
      obtain ⟨vs, hvs, hstood⟩ := exists_stoodForBy_row hss (List.forall_mem_map.2 ih)
      exact ⟨_, has_record hasc hvs, stoodForBy_record hstood⟩
  | union _ ih =>
      rintro s ⟨ss, hss, hs⟩
      rw [enumerateWith] at hss
      obtain ⟨t, ht, hts⟩ := ((enumerateAlts_eq_some hss).2 s).1 hs
      obtain ⟨v, hv, hsv⟩ := ih t ht s hts
      exact ⟨v, .union ht hv, hsv⟩

end Ty

namespace Pattern

/-- Some number is not among the texts of given literals. -/
theorem exists_unwritten (written : List (LiteralKind × String)) :
    ∃ n : Int, ∀ l ∈ written, l.2 ≠ n.repr := by
  have hinjective : Function.Injective fun n : Nat => (n : Int).repr := by
    intro m n h
    have hdigits := congrArg String.toList (show Nat.repr m = Nat.repr n from h)
    rw [Nat.repr, Nat.repr, String.toList_ofList, String.toList_ofList] at hdigits
    have hread : ∀ k, Nat.ofDigitChars 10 (Nat.toDigits 10 k) 0 = k := fun _ =>
      Nat.ofDigitChars_toDigits (by decide) (by decide)
    rw [← hread m, hdigits, hread]
  obtain ⟨text, ⟨n, rfl⟩, hn⟩ := (Set.infinite_range_of_injective hinjective).exists_notMem_finset
    (written.map (·.2)).toFinset
  refine ⟨n, fun l hl heq => hn ?_⟩
  rw [List.mem_toFinset]
  exact List.mem_map.2 ⟨l, hl, heq⟩

theorem exists_space_of_uncovered {t : Ty} {cases : List Pattern} {m : String} {ms : List String}
    (h : uncovered? t cases = some (m :: ms)) :
    ∃ ss s, t.spaces? = some ss ∧ s ∈ ss ∧ cases.any (·.covers s) = false := by
  unfold uncovered? at h
  split at h
  · cases h
  · obtain ⟨ss, hss, h⟩ := Option.map_eq_some_iff.1 h
    have hm : m ∈ Text.Names.sorted
        ((ss.filter fun s => !cases.any (·.covers s)).map Space.render) := by
      rw [h]
      exact List.mem_cons_self
    obtain ⟨s, hs, -⟩ := List.mem_map.1 (Text.Names.mem_sorted.1 hm)
    obtain ⟨hmem, hs⟩ := List.mem_filter.1 hs
    exact ⟨ss, s, hss, hmem, by simpa using hs⟩

/-- A match of which something is missing leaves a value out. -/
theorem exists_unaccepted_of_uncovered {prims : List String} {t : Ty} {cases : List Pattern}
    {m : String} {ms : List String} (hprims : prims ⊆ Ty.primitiveNames) (ht : t.BuiltFrom prims)
    (hunit : "Unit" ∈ prims → ∀ l ∈ literalsAll cases, l.1 = .unit → l.2 = "()")
    (h : uncovered? t cases = some (m :: ms)) :
    ∃ v, t.Has v ∧ ∀ p ∈ cases, p.accepts v = false := by
  obtain ⟨ss, s, hss, hs, huncovered⟩ := exists_space_of_uncovered h
  obtain ⟨n, hn⟩ := exists_unwritten (literalsAll cases)
  obtain ⟨v, hv, hstood⟩ := ht.exists_stoodForBy hn hprims hunit s
    ⟨ss, (enumerateWithin_eq ..).symm.trans hss, hs⟩
  refine ⟨v, hv, fun p hp => Bool.eq_false_iff.2 fun haccepts => ?_⟩
  have hcovers := hstood p (fun l hl => mem_literalsAll hp hl) haccepts
  rw [List.any_eq_false] at huncovered
  exact huncovered p hp hcovers

theorem exists_unaccepted_pair : ∃ v, (Ty.tuple [.bool, .int]).Has v ∧
    ∀ p ∈ [Pattern.tuple .unknown [.literal .unknown .bool "true", .literal .unknown .int "1"],
      .tuple .unknown [.literal .unknown .bool "false", .wildcard .unknown]], p.accepts v = false := by
  have hbuilt : (Ty.tuple [.bool, .int]).BuiltFrom ["Bool", "Int"] := by
    refine .tuple ?_
    simp only [List.mem_cons, List.not_mem_nil, or_false]
    rintro t (rfl | rfl)
    · exact .prim (by decide)
    · exact .prim (by decide)
  have hmissing : uncovered? (.tuple [.bool, .int])
      [.tuple .unknown [.literal .unknown .bool "true", .literal .unknown .int "1"],
        .tuple .unknown [.literal .unknown .bool "false", .wildcard .unknown]] =
      some ["(True, _)"] := by decide +kernel
  exact exists_unaccepted_of_uncovered (by decide) hbuilt (by decide) hmissing

-- Unit is where the condition bites: its one value is matched, and said to be missing.
example : uncovered? .unit [.literal .unknown .unit ""] = some ["()"] ∧
    (Pattern.literal .unknown .unit "").accepts (.const .unit) = true := by decide +kernel

end Pattern

end RowTypes
