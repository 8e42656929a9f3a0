import RowTypes.Coverage.Narrow
import RowTypes.Proofs.Inhabitants

/-!
# Refinement and values

A case of a match is checked with the types that the pattern gives its names.  They are right if
the part of a value that a name stands for is a value of the type that the name got.

A pattern narrows a union by dropping the alternatives that it could not match, and collects the
types of elements and fields from those that are left.  Both steps look at the heads of
alternatives, and neither sees everything.

* Whether a pattern could match is asked of heads, with recursive types unfolded.  An intersection
  is a head that no pattern goes with, although it may have values that the pattern accepts.  So no
  intersection may be where a pattern looks for a constructor (`Clear`).
* The elements of tuples are collected from the alternatives that are tuples.  A recursive type
  whose unfolding is a tuple is passed over, so none may be left beside them (`Suits`).  The fields
  of records are collected only if all alternatives are records, and need no such condition.
* Types that are collected are put into a union, where of equivalent ones the first is kept.
  Equivalence is too coarse on recursive types, so those that are merged must be the same, or tame.

The alternatives of a normal form are never merged by narrowing, and every type that a part is
checked with is a normal form again.
-/

namespace RowTypes

namespace Ty

variable {strict : Bool} {t h : Ty} {v : Value}

/-! ## Heads -/

/-- A type that shows behind unions and recursive types. -/
inductive Head : Ty → Ty → Prop where
  | self {t : Ty} : (∀ ts, t ≠ .union ts) → (∀ b body, t ≠ .mu b body) → Head t t
  | alternative {ts : List Ty} {t h : Ty} : t ∈ ts → Head t h → Head (.union ts) h
  | unfold {b : TyVar} {body h : Ty} : Head (.unfold b body) h → Head (.mu b body) h

theorem Head.shows (h' : Head t h) : (∀ ts, h ≠ .union ts) ∧ ∀ b body, h ≠ .mu b body := by
  induction h' with
  | self hunion hmu => exact ⟨hunion, hmu⟩
  | alternative _ _ ih => exact ih
  | unfold _ ih => exact ih

/-- A search over the heads finds one that has a given value, if all such heads are searched for:
it ends there, if not before. -/
theorem anyHead_of_admits {pred : Ty → Bool} (hv : t.Admits strict v)
    (hpred : ∀ h, Head t h → h.Admits strict v → pred h = true) : t.anyHead pred = true := by
  have hself : ∀ {t : Ty}, (∀ ts, t ≠ .union ts) → (∀ b body, t ≠ .mu b body) →
      t.Admits strict v → (∀ h, Head t h → h.Admits strict v → pred h = true) →
      t.anyHead pred = true := fun hunion hmu hv hpred => by
    rw [anyHead_of_shows hunion hmu]
    exact hpred _ (.self hunion hmu) hv
  induction hv with
  | union ht _ ih =>
      rw [anyHead_union, List.any_eq_true]
      exact ⟨_, ht, ih (fun h hh hv => hpred h (.alternative ht hh) hv) hself⟩
  | mu _ ih =>
      rw [anyHead_mu]
      exact ih (fun h hh hv => hpred h (.unfold hh) hv) hself
  | int n => exact hself nofun nofun (.int n) hpred
  | string s => exact hself nofun nofun (.string s) hpred
  | bool b => exact hself nofun nofun (.bool b) hpred
  | unit => exact hself nofun nofun .unit hpred
  | lit s => exact hself nofun nofun (.lit s) hpred
  | fn p r id => exact hself nofun nofun (.fn p r id) hpred
  | tuple hlen hall _ => exact hself nofun nofun (.tuple hlen hall) hpred
  | record hthere hall hno _ => exact hself nofun nofun (.record hthere hall hno) hpred
  | inter hall _ => exact hself nofun nofun (.inter hall) hpred

end Ty

namespace Pattern

/-! ## Compatibility -/

mutual

/-- No intersection is where a pattern looks for a constructor. -/
def Clear : Pattern → Ty → Prop
  | .literal .., t => ∀ h, t.Head h → ∀ ms, h ≠ .inter ms
  | .tuple _ ps, t => ∀ h, t.Head h →
    (∀ ms, h ≠ .inter ms) ∧ ∀ ts, h = .tuple ts → ClearAll ps ts
  | .record _ fs, t => ∀ h, t.Head h →
    (∀ ms, h ≠ .inter ms) ∧ ∀ ts row, h = .record ts row → ClearFields fs ts
  | _, _ => True

def ClearAll : List Pattern → List Ty → Prop
  | p :: ps, t :: ts => p.Clear t ∧ ClearAll ps ts
  | _, _ => True

def ClearFields : List (String × Pattern) → List (String × Ty) → Prop
  | [], _ => True
  | (name, p) :: fs, ts => (∀ t, Table.get? name ts = some t → p.Clear t) ∧ ClearFields fs ts

end

/-- A literal fits the heads that have its constant, unless they are intersections. -/
theorem literalFits_of_admits {span : Span} {kind : LiteralKind} {text : String} {v : Value}
    {h : Ty} (haccepts : (Pattern.literal span kind text).accepts v = true)
    (hv : h.Admits true v) (hshows : (∀ ms, h ≠ .inter ms) ∧ (∀ ts, h ≠ .union ts) ∧
      ∀ b body, h ≠ .mu b body) : literalFits kind text h = true := by
  obtain ⟨hinter, hunion, hmu⟩ := hshows
  cases v with
  | const c =>
      rw [accepts, Const.isWritten_iff] at haccepts
      obtain ⟨hkind, htext⟩ := haccepts
      cases hv with
      | int _ | string _ | bool _ | unit => simp [literalFits, hkind]; rfl
      | lit s =>
          have htext : text = s := htext.resolve_left nofun
          simp [literalFits, hkind, htext]
          rfl
      | union _ _ => exact absurd rfl (hunion _)
      | inter _ => exact absurd rfl (hinter _)
      | mu _ => exact absurd rfl (hmu _ _)
  | _ => simp [accepts] at haccepts

mutual

/-- A pattern that accepts a value of a type is compatible with the type. -/
theorem compatible_of_accepts : ∀ {p : Pattern} {t : Ty} {v : Value}, p.accepts v = true →
    t.Admits true v → p.Clear t → p.compatible t = true
  | .missing, _, _, haccepts, _, _ => by simp [accepts] at haccepts
  | .var .., _, _, _, _, _ | .wildcard _, _, _, _, _, _ => by simp [compatible]
  | .literal _ kind text, t, v, haccepts, hv, hclear => by
      rw [compatible]
      refine Ty.anyHead_of_admits hv fun h hh hv => literalFits_of_admits haccepts hv ?_
      exact ⟨hclear h hh, hh.shows⟩
  | .tuple _ ps, t, v, haccepts, hv, hclear => by
      rw [compatible]
      refine Ty.anyHead_of_admits hv fun h hh hv => ?_
      obtain ⟨hinter, htuple⟩ := hclear h hh
      cases v with
      | tuple vs =>
          cases hv with
          | tuple hlen hall =>
              have hvs := List.forall₂_iff_zip.2 ⟨hlen, fun hab => hall _ hab⟩
              rw [accepts] at haccepts
              exact compatibleAll_of_accepts haccepts hvs (htuple _ rfl)
          | inter _ => exact absurd rfl (hinter _)
          | union _ _ => exact absurd rfl (hh.shows.1 _)
          | mu _ => exact absurd rfl (hh.shows.2 _ _)
      | _ => simp [accepts] at haccepts
  | .record _ fs, t, v, haccepts, hv, hclear => by
      rw [compatible]
      refine Ty.anyHead_of_admits hv fun h hh hv => ?_
      obtain ⟨hinter, hrecord⟩ := hclear h hh
      cases v with
      | record vs =>
          rw [accepts] at haccepts
          cases hv with
          | record hthere hall hno =>
              refine compatibleFields_of_accepts hall (fun hclosed name hname => ?_) haccepts
                (hrecord _ _ rfl)
              have hmem := hno rfl (by simpa using hclosed) _ (Table.mem_of_get? hname.choose_spec)
              exact Table.get?_isSome.2 hmem
          | inter _ => exact absurd rfl (hinter _)
          | union _ _ => exact absurd rfl (hh.shows.1 _)
          | mu _ => exact absurd rfl (hh.shows.2 _ _)
      | _ => simp [accepts] at haccepts

theorem compatibleAll_of_accepts : ∀ {ps : List Pattern} {ts : List Ty} {vs : List Value},
    acceptsAll ps vs = true → List.Forall₂ (Ty.Admits true) ts vs → ClearAll ps ts →
    compatibleAll ps ts = true
  | [], [], _, _, _, _ => by simp [compatibleAll]
  | [], _ :: _, _, haccepts, .cons _ _, _ | _ :: _, [], _, haccepts, .nil, _ => by
      simp [acceptsAll] at haccepts
  | p :: ps, t :: ts, v :: vs, haccepts, .cons hv hvs, hclear => by
      rw [acceptsAll, Bool.and_eq_true] at haccepts
      rw [compatibleAll, Bool.and_eq_true]
      exact ⟨compatible_of_accepts haccepts.1 hv hclear.1,
        compatibleAll_of_accepts haccepts.2 hvs hclear.2⟩

theorem compatibleFields_of_accepts {ts : List (String × Ty)} {vs : List (String × Value)}
    {isOpen : Bool}
    (hall : ∀ f ∈ ts, ∀ w, Table.get? f.1 vs = some w → f.2.Admits true w)
    (hclosed : isOpen = false → ∀ name, (∃ w, Table.get? name vs = some w) →
      (Table.get? name ts).isSome) :
    ∀ {fs : List (String × Pattern)}, acceptsFields fs vs = true → ClearFields fs ts →
      compatibleFields fs ts isOpen = true
  | [], _, _ => by simp [compatibleFields]
  | (name, p) :: fs, haccepts, hclear => by
      rw [acceptsFields, Bool.and_eq_true, Option.any_eq_true] at haccepts
      obtain ⟨⟨w, hw, hp⟩, hrest⟩ := haccepts
      rw [compatibleFields, Bool.and_eq_true]
      refine ⟨?_, compatibleFields_of_accepts hall hclosed hrest hclear.2⟩
      cases ht : Table.get? name ts with
      | some t =>
          exact compatible_of_accepts hp (hall _ (Table.mem_of_get? ht) w hw) (hclear.1 t ht)
      | none =>
          by_contra hopen
          have hthere := hclosed (by simpa using hopen) name ⟨w, hw⟩
          rw [ht] at hthere
          cases hthere

end

end Pattern

namespace Ty

/-! ## Narrowing -/

theorem Admits.unfoldOnce {strict : Bool} {t : Ty} {v : Value} (h : t.Admits strict v) :
    t.unfoldOnce.Admits strict v := by
  cases t with
  | mu b body =>
      cases h with
      | mu h => exact h
  | _ => exact h

theorem Normal.unfoldOnce {t : Ty} (h : t.Normal) : t.unfoldOnce.Normal := by
  cases t with
  | mu b body => exact h.unfold
  | _ => exact h

/-- A union of types that need no flattening and no merging. -/
theorem unionOf_eq_self {ts : List Ty} (hflat : ∀ t ∈ ts, ∀ us, t ≠ .union us)
    (hdistinct : ts.Pairwise fun a b => equiv a b = false) :
    (∃ a, ts = [a] ∧ unionOf ts = a) ∨ unionOf ts = .union ts := by
  unfold unionOf unionOf?
  rw [alternativesAll_eq_self hflat, distinct_eq_self hdistinct]
  match ts with
  | [] => exact .inr rfl
  | [a] => exact .inl ⟨a, rfl, rfl⟩
  | _ :: _ :: _ => exact .inr rfl

/-- A type narrowed by a pattern has the values of the type that the pattern accepts, and only
alternatives that the pattern is compatible with. -/
structure Narrowed (p : Pattern) (v : Value) (t : Ty) : Prop where
  normal : t.Normal
  admits : t.Admits true v
  compatible : ∀ alts, t = .union alts → ∀ a ∈ alts, p.compatible a = true

theorem narrowed_narrow {t : Ty} {p : Pattern} {v : Value} (ht : t.Normal) (hv : t.Admits true v)
    (haccepts : p.accepts v = true)
    (hclear : ∀ ts, t.unfoldOnce = .union ts → ∀ a ∈ ts, p.Clear a) :
    Narrowed p v (t.narrow p) := by
  have hnormal := ht.unfoldOnce
  have hv := hv.unfoldOnce
  unfold narrow
  split
  · next ts hts =>
      rw [hts] at hnormal hv
      obtain ⟨a, ha, hva⟩ := admits_union.1 hv
      have hkept : a ∈ ts.filter fun t => p.compatible t := List.mem_filter.2
        ⟨ha, Pattern.compatible_of_accepts haccepts hva (hclear ts hts a ha)⟩
      split
      · next hnil => rw [hnil] at hkept; cases hkept
      · cases hnormal with
        | union hall hflat hdistinct _ =>
            have hflat' : ∀ t ∈ ts.filter (fun t => p.compatible t), ∀ us, t ≠ .union us :=
              fun t ht => hflat t (List.mem_filter.1 ht).1
            have hnormal' : (unionOf (ts.filter fun t => p.compatible t)).Normal :=
              normal_unionOf (fun t ht => hall t (List.mem_filter.1 ht).1)
                (List.ne_nil_of_mem hkept)
            rcases unionOf_eq_self hflat' (hdistinct.filter _) with ⟨b, hb, heq⟩ | heq
            · rw [hb, List.mem_singleton] at hkept
              rw [heq] at hnormal' ⊢
              refine ⟨hnormal', hkept ▸ hva, fun alts halts => absurd halts ?_⟩
              exact hflat' b (by rw [hb]; exact List.mem_singleton.2 rfl) alts
            · rw [heq] at hnormal' ⊢
              refine ⟨hnormal', .union hkept hva, fun alts halts a ha => ?_⟩
              cases halts
              exact (List.mem_filter.1 ha).2
  · next hne => exact ⟨hnormal, hv, fun alts halts => absurd halts (hne alts)⟩

/-! ## Elements and fields -/

/-- The element of a tuple of a length. -/
def tupleElem? (i length : Nat) : Ty → Option Ty
  | .tuple ts => if ts.length = length then ts[i]? else none
  | _ => none

/-- The field of a record. -/
def recordField? (name : String) : Ty → Option Ty
  | .record fs _ => Table.get? name fs
  | _ => none

/-- The parts of the alternatives of a union. -/
def parts (part : Ty → Option Ty) : Ty → List Ty
  | .union alts => alts.filterMap part
  | _ => []

/-- Types that can be put into a union without a loss: equivalent ones are the same, or tame. -/
def Merges (ts : List Ty) : Prop :=
  ∀ a ∈ alternativesAll ts, ∀ b ∈ alternativesAll ts, equiv a b = true → a = b ∨ a.Tame ∧ b.Tame

/-- A part that is found is the union of the parts of a union's alternatives, or the part of a type
that is no union. -/
def IsPart (part : Ty → Option Ty) (t u : Ty) : Prop :=
  unionOf? (t.parts part) = some u ∨ part t = some u

theorem isPart_elem? {t u : Ty} {i length : Nat} (h : t.elem? i length = some u) :
    IsPart (tupleElem? i length) t u := by
  unfold elem? at h
  split at h
  · exact .inr h
  · refine .inl (Eq.trans ?_ h)
    congr 1
  · cases h

theorem mapM_eq_some {α β : Type} {f : α → Option β} : ∀ {l : List α} {bs : List β},
    l.mapM f = some bs → bs = l.filterMap f ∧ ∀ a ∈ l, (f a).isSome
  | [], bs, h => by
      cases h
      simp
  | a :: l, bs, h => by
      rw [List.mapM_cons] at h
      obtain ⟨b, hb, h⟩ := Option.bind_eq_some_iff.1 h
      obtain ⟨bs', hbs', h⟩ := Option.bind_eq_some_iff.1 h
      cases h
      obtain ⟨rfl, hall⟩ := mapM_eq_some hbs'
      rw [List.filterMap_cons_some hb]
      exact ⟨rfl, List.forall_mem_cons.2 ⟨by rw [hb]; rfl, hall⟩⟩

/-- The field of a union is found only if all its alternatives have it. -/
theorem isPart_field? {t u : Ty} {name : String} (h : t.field? name = some u) :
    IsPart (recordField? name) t u ∧
      ∀ alts, t = .union alts → ∀ a ∈ alts, (recordField? name a).isSome := by
  unfold field? at h
  split at h
  · exact ⟨.inr h, nofun⟩
  · next alts =>
      obtain ⟨ts, hts, h⟩ := Option.bind_eq_some_iff.1 h
      obtain ⟨rfl, hall⟩ := mapM_eq_some hts
      refine ⟨.inl (Eq.trans ?_ h), fun alts' heq a ha => ?_⟩
      · congr 1
      · cases heq
        exact hall a ha
  · cases h

theorem admits_alternatives {strict : Bool} {t : Ty} {v : Value} (h : t.Admits strict v) :
    ∃ a ∈ t.alternatives, a.Admits strict v := by
  induction h with
  | union ht _ ih =>
      obtain ⟨a, ha, hv⟩ := ih
      exact ⟨a, mem_alternativesAll.2 ⟨_, ht, ha⟩, hv⟩
  | int n => exact ⟨_, List.mem_singleton.2 rfl, .int n⟩
  | string s => exact ⟨_, List.mem_singleton.2 rfl, .string s⟩
  | bool b => exact ⟨_, List.mem_singleton.2 rfl, .bool b⟩
  | unit => exact ⟨_, List.mem_singleton.2 rfl, .unit⟩
  | lit s => exact ⟨_, List.mem_singleton.2 rfl, .lit s⟩
  | fn p r id => exact ⟨_, List.mem_singleton.2 rfl, .fn p r id⟩
  | tuple hlen hall _ => exact ⟨_, List.mem_singleton.2 rfl, .tuple hlen hall⟩
  | record hthere hall hno _ => exact ⟨_, List.mem_singleton.2 rfl, .record hthere hall hno⟩
  | inter hall _ => exact ⟨_, List.mem_singleton.2 rfl, .inter hall⟩
  | mu hv _ => exact ⟨_, List.mem_singleton.2 rfl, .mu hv⟩

theorem Merges.admits {strict : Bool} {ts : List Ty} {t u : Ty} {v : Value} (h : Merges ts)
    (ht : t ∈ ts) (hv : t.Admits strict v) (hu : unionOf? ts = some u) : u.Admits strict v := by
  obtain ⟨a, ha, hv⟩ := admits_alternatives hv
  have ha := mem_alternativesAll.2 ⟨t, ht, ha⟩
  obtain ⟨b, hb, hba⟩ := exists_mem_distinct ha
  have hv : b.Admits strict v := by
    rcases hba with rfl | hba
    · exact hv
    · rcases h b (mem_distinct hb) a ha hba with rfl | ⟨htame, htame'⟩
      · exact hv
      · exact hv.of_equiv htame' htame (equiv_symm htame htame' hba)
  unfold unionOf? at hu
  split at hu
  · cases hu
  · next c hc =>
      cases hu
      rw [hc, List.mem_singleton] at hb
      exact hb ▸ hv
  · cases hu
    exact .union hb hv

/-- A part of a value is a value of the part of its type, for types that have the part at all. -/
theorem IsPart.admits {part : Ty → Option Ty} {t u : Ty} {v w : Value} (hu : IsPart part t u)
    (hmerges : Merges (t.parts part)) (hv : t.Admits true v)
    (hpart : ∀ a e, a.Admits true v → part a = some e → e.Admits true w)
    (hall : ∀ alts, t = .union alts → ∀ a ∈ alts, a.Admits true v → (part a).isSome) :
    u.Admits true w := by
  rcases hu with hu | hu
  · cases t with
    | union alts =>
        obtain ⟨a, ha, hva⟩ := admits_union.1 hv
        obtain ⟨e, he⟩ := Option.isSome_iff_exists.1 (hall alts rfl a ha hva)
        exact hmerges.admits (List.mem_filterMap.2 ⟨a, ha, he⟩) (hpart a e hva he) hu
    | _ => cases hu
  · exact hpart t u hv hu

theorem IsPart.normal {part : Ty → Option Ty} {t u : Ty} (hu : IsPart part t u) (ht : t.Normal)
    (hpart : ∀ a e, a.Normal → part a = some e → e.Normal) : u.Normal := by
  rcases hu with hu | hu
  · cases ht with
    | union hall _ _ _ =>
        refine normal_unionOf? (fun e he => ?_) hu
        obtain ⟨a, ha, he⟩ := List.mem_filterMap.1 he
        exact hpart a e (hall a ha) he
    | _ => cases hu
  · exact hpart t u ht hu

theorem normal_tupleElem? {i length : Nat} {a e : Ty} (ha : a.Normal)
    (he : tupleElem? i length a = some e) : e.Normal := by
  cases ha with
  | tuple hall =>
      simp only [tupleElem?] at he
      split at he
      · exact hall e (List.mem_of_getElem? he)
      · cases he
  | _ => cases he

theorem normal_recordField? {name : String} {a e : Ty} (ha : a.Normal)
    (he : recordField? name a = some e) : e.Normal := by
  cases ha with
  | record _ hall => exact hall _ (Table.mem_of_get? he)
  | _ => cases he

theorem admits_tupleElem? {strict : Bool} {i length : Nat} {a e : Ty} {vs : List Value} {w : Value}
    (hv : a.Admits strict (.tuple vs)) (hw : vs[i]? = some w)
    (he : tupleElem? i length a = some e) : e.Admits strict w := by
  cases a with
  | tuple ts =>
      simp only [tupleElem?] at he
      split at he
      · obtain ⟨vs', heq, hall⟩ := admits_tuple.1 hv
        cases heq
        obtain ⟨hi, rfl⟩ := List.getElem?_eq_some_iff.1 he
        obtain ⟨hi', rfl⟩ := List.getElem?_eq_some_iff.1 hw
        exact hall.get hi hi'
      · cases he
  | _ => cases he

theorem admits_recordField? {strict : Bool} {name : String} {a e : Ty} {vs : List (String × Value)}
    {w : Value} (hv : a.Admits strict (.record vs)) (hw : Table.get? name vs = some w)
    (he : recordField? name a = some e) : e.Admits strict w := by
  cases a with
  | record fs row =>
      obtain ⟨vs', heq, hall, -⟩ := admits_record.1 hv
      cases heq
      obtain ⟨w', hw', hv⟩ := hall _ (Table.mem_of_get? he)
      rw [hw] at hw'
      cases hw'
      exact hv
  | _ => cases he

end Ty

namespace Pattern

/-! ## What a name stands for -/

/-- A pattern binds a name to a part of a value. -/
inductive Binds : Pattern → Value → String → Value → Prop where
  | var (span : Span) (name : String) (v : Value) : Binds (.var span name) v name v
  | elem {span : Span} {ps : List Pattern} {vs : List Value} {p : Pattern} {v w : Value}
      {name : String} : (p, v) ∈ ps.zip vs → Binds p v name w →
      Binds (.tuple span ps) (.tuple vs) name w
  | field {span : Span} {fs : List (String × Pattern)} {vs : List (String × Value)}
      {f : String × Pattern} {v w : Value} {name : String} : f ∈ fs →
      Table.get? f.1 vs = some v → Binds f.2 v name w →
      Binds (.record span fs) (.record vs) name w

theorem mem_varsAll {x : String} {ps : List Pattern} : x ∈ varsAll ps ↔ ∃ p ∈ ps, x ∈ p.vars := by
  induction ps with
  | nil => simp [varsAll]
  | cons p ps ih => rw [varsAll, List.mem_append, ih, List.exists_mem_cons_iff]

theorem mem_varsFields {x : String} {fs : List (String × Pattern)} :
    x ∈ varsFields fs ↔ ∃ f ∈ fs, x ∈ f.2.vars := by
  induction fs with
  | nil => simp [varsFields]
  | cons f fs ih => rw [varsFields, List.mem_append, ih, List.exists_mem_cons_iff]

theorem Binds.mem_vars {p : Pattern} {v w : Value} {x : String} (h : Binds p v x w) :
    x ∈ p.vars := by
  induction h with
  | var span name v => exact List.mem_singleton.2 rfl
  | elem hp _ ih => exact mem_varsAll.2 ⟨_, (List.of_mem_zip hp).1, ih⟩
  | field hf _ _ ih => exact mem_varsFields.2 ⟨_, hf, ih⟩

mutual

/-- The types that a pattern is matched with on its way into a type lose no value that it accepts:
it looks at no intersection, tuples are not left beside recursive types, and parts can be merged. -/
def Suits : Pattern → Ty → Prop
  | .tuple span ps, t =>
    (∀ ts, t.unfoldOnce.unfoldOnce = .union ts → ∀ a ∈ ts, (Pattern.tuple span ps).Clear a) ∧
      (∀ alts, t.unfoldOnce.narrow (.tuple span ps) = .union alts →
        ∀ a ∈ alts, ∀ b body, a ≠ .mu b body) ∧
      SuitsElems ps (t.unfoldOnce.narrow (.tuple span ps)) 0 ps.length
  | .record span fs, t =>
    (∀ ts, t.unfoldOnce.unfoldOnce = .union ts → ∀ a ∈ ts, (Pattern.record span fs).Clear a) ∧
      SuitsFields fs (t.unfoldOnce.narrow (.record span fs))
  | _, _ => True

def SuitsElems : List Pattern → Ty → Nat → Nat → Prop
  | [], _, _, _ => True
  | p :: ps, t, i, length =>
    (∀ u, t.elem? i length = some u → Ty.Merges (t.parts (Ty.tupleElem? i length)) ∧ p.Suits u) ∧
      SuitsElems ps t (i + 1) length

def SuitsFields : List (String × Pattern) → Ty → Prop
  | [], _ => True
  | (name, p) :: fs, t =>
    (∀ u, t.field? name = some u → Ty.Merges (t.parts (Ty.recordField? name)) ∧ p.Suits u) ∧
      SuitsFields fs t

end

/-! ## Refinement -/

/-- The types that names got are those they had before, or have the values that a match binds the
names to. -/
def Refines (vars : List String) (binds : String → Value → Prop) (found out : Table String Ty) :
    Prop :=
  ∀ x u, Table.get? x out = some u →
    Table.get? x found = some u ∨ x ∈ vars ∧ ∀ w, binds x w → u.Admits true w

/-- Two steps of refinement, when no name is bound by both. -/
theorem Refines.trans {vars vars' : List String} {binds binds' : String → Value → Prop}
    {found between out : Table String Ty} (h : Refines vars binds found between)
    (h' : Refines vars' binds' between out) (hvars : ∀ x, x ∈ vars → x ∉ vars')
    (hbinds : ∀ x w, binds x w → x ∈ vars) (hbinds' : ∀ x w, binds' x w → x ∈ vars') :
    Refines (vars ++ vars') (fun x w => binds x w ∨ binds' x w) found out := by
  intro x u hu
  rcases h' x u hu with hu | ⟨hx, hall⟩
  · refine (h x u hu).imp_right fun ⟨hx, hall⟩ => ⟨List.mem_append_left _ hx, ?_⟩
    rintro w (hw | hw)
    · exact hall w hw
    · exact absurd (hbinds' x w hw) (hvars x hx)
  · refine .inr ⟨List.mem_append_right _ hx, ?_⟩
    rintro w (hw | hw)
    · exact absurd hx (hvars x (hbinds x w hw))
    · exact hall w hw

theorem Refines.imp {vars : List String} {binds binds' : String → Value → Prop}
    {found out : Table String Ty} (h : Refines vars binds found out)
    (hbinds : ∀ x w, binds' x w → binds x w) : Refines vars binds' found out := fun x u hu =>
  (h x u hu).imp_right fun ⟨hx, hall⟩ => ⟨hx, fun w hw => hall w (hbinds x w hw)⟩

theorem refineInto_none (p : Pattern) (found : Table String Ty) :
    refineInto p none found = found := by
  cases p <;> rfl

theorem refines_self {vars : List String} {binds : String → Value → Prop}
    (found : Table String Ty) : Refines vars binds found found := fun _ _ hu => .inl hu

/-- The alternatives of a narrowed type that have a tuple among their values are tuples. -/
theorem isSome_tupleElem? {span : Span} {ps : List Pattern} {vs : List Value} {t : Ty} {i : Nat}
    (hnarrowed : Ty.Narrowed (.tuple span ps) (.tuple vs) t)
    (hmu : ∀ alts, t = .union alts → ∀ a ∈ alts, ∀ b body, a ≠ .mu b body)
    (hlength : vs.length = ps.length) (hi : i < vs.length) :
    ∀ alts, t = .union alts → ∀ a ∈ alts, a.Admits true (.tuple vs) →
      (Ty.tupleElem? i ps.length a).isSome := by
  intro alts halts a ha hv
  have hcompatible := hnarrowed.compatible alts halts a ha
  cases hv with
  | tuple hlen _ =>
      rw [Ty.tupleElem?, if_pos (hlen.trans hlength), List.getElem?_eq_getElem (hlen ▸ hi)]
      rfl
  | mu _ => exact absurd rfl (hmu alts halts _ ha _ _)
  | inter _ =>
      rw [compatible, Ty.anyHead_of_shows (t := .inter _) nofun nofun] at hcompatible
      cases hcompatible
  | union _ _ =>
      have hnormal := hnarrowed.normal
      rw [halts] at hnormal
      cases hnormal with
      | union _ hflat _ _ => exact absurd rfl (hflat _ ha _)

theorem length_eq_of_acceptsAll {ps : List Pattern} {vs : List Value}
    (h : acceptsAll ps vs = true) : vs.length = ps.length := by
  induction ps generalizing vs with
  | nil => cases vs with
    | nil => rfl
    | cons v vs => simp [acceptsAll] at h
  | cons p ps ih => cases vs with
    | nil => simp [acceptsAll] at h
    | cons v vs =>
        rw [acceptsAll, Bool.and_eq_true] at h
        rw [List.length_cons, List.length_cons, ih h.2]

mutual

/-- Refining by a pattern gives names the types of what the pattern binds them to. -/
theorem refines_refineInto : ∀ {p : Pattern} {t : Ty} {v : Value} {found : Table String Ty},
    p.vars.Nodup → t.Normal → p.Suits t → t.Admits true v → p.accepts v = true →
    Refines p.vars (Binds p v) found (refineInto p (some t) found)
  | .missing, _, _, _, _, _, _, _, haccepts => by simp [accepts] at haccepts
  | .wildcard _, _, _, _, _, _, _, _, _ | .literal .., _, _, _, _, _, _, _, _ => refines_self _
  | .var span name, t, v, found, _, _, _, hv, _ => by
      intro x u hu
      simp only [refineInto] at hu
      split at hu
      · exact .inl hu
      · by_cases hx : x = name
        · subst hx
          rw [Table.get?_insert_self] at hu
          cases hu
          refine .inr ⟨List.mem_singleton.2 rfl, fun w hw => ?_⟩
          cases hw
          exact hv.unfoldOnce
        · rw [Table.get?_insert_of_ne hx] at hu
          exact .inl hu
  | .tuple span ps, t, v, found, hnodup, ht, ⟨hclear, hmu, hsuits⟩, hv, haccepts => by
      cases v with
      | tuple vs =>
          have hnarrowed := Ty.narrowed_narrow ht.unfoldOnce hv.unfoldOnce haccepts hclear
          rw [accepts] at haccepts
          have hlength := length_eq_of_acceptsAll haccepts
          refine (refines_refineElems hnodup hsuits haccepts fun k w u hw hu hmerges => ?_).imp ?_
          · rw [Nat.zero_add] at hu hmerges
            have hk := (List.getElem?_eq_some_iff.1 hw).1
            have hpart := Ty.isPart_elem? hu
            exact ⟨hpart.normal hnarrowed.normal fun _ _ => Ty.normal_tupleElem?,
              hpart.admits hmerges hnarrowed.admits (fun a e hv => Ty.admits_tupleElem? hv hw)
                (isSome_tupleElem? hnarrowed hmu hlength hk)⟩
          · intro x w hw
            cases hw with
            | elem hp hw => exact ⟨_, _, hp, hw⟩
      | _ => simp [accepts] at haccepts
  | .record span fs, t, v, found, hnodup, ht, ⟨hclear, hsuits⟩, hv, haccepts => by
      cases v with
      | record vs =>
          have hnarrowed := Ty.narrowed_narrow ht.unfoldOnce hv.unfoldOnce haccepts hclear
          rw [accepts] at haccepts
          refine (refines_refineFields hnodup hsuits haccepts fun name w u hw hu hmerges => ?_).imp ?_
          · obtain ⟨hpart, hall⟩ := Ty.isPart_field? hu
            exact ⟨hpart.normal hnarrowed.normal fun _ _ => Ty.normal_recordField?,
              hpart.admits hmerges hnarrowed.admits (fun a e hv => Ty.admits_recordField? hv hw)
                fun alts halts a ha _ => hall alts halts a ha⟩
          · intro x w hw
            cases hw with
            | field hf hv hw => exact ⟨_, _, hf, hv, hw⟩
      | _ => simp [accepts] at haccepts

theorem refines_refineElems : ∀ {ps : List Pattern} {t : Ty} {i length : Nat} {vs : List Value}
    {found : Table String Ty}, (varsAll ps).Nodup → SuitsElems ps t i length →
    acceptsAll ps vs = true →
    (∀ k w u, vs[k]? = some w → t.elem? (i + k) length = some u →
      Ty.Merges (t.parts (Ty.tupleElem? (i + k) length)) → u.Normal ∧ u.Admits true w) →
    Refines (varsAll ps) (fun x w => ∃ p v, (p, v) ∈ ps.zip vs ∧ Binds p v x w) found
      (refineElems ps t i length found)
  | [], _, _, _, _, _, _, _, _, _ => refines_self _
  | p :: ps, t, i, length, [], found, _, _, haccepts, _ => by simp [acceptsAll] at haccepts
  | p :: ps, t, i, length, v :: vs, found, hnodup, ⟨hhead, htail⟩, haccepts, hparts => by
      rw [acceptsAll, Bool.and_eq_true] at haccepts
      rw [varsAll, List.nodup_append] at hnodup
      obtain ⟨hnodup, hnodup', hdisjoint⟩ := hnodup
      have hfirst : Refines p.vars (Binds p v) found (refineInto p (t.elem? i length) found) := by
        cases hu : t.elem? i length with
        | none => rw [refineInto_none]; exact refines_self found
        | some u =>
            obtain ⟨hmerges, hsuits⟩ := hhead u hu
            obtain ⟨hnormal, hv⟩ := hparts 0 v u rfl hu hmerges
            exact refines_refineInto hnodup hnormal hsuits hv haccepts.1
      have hrest : Refines (varsAll ps) _ (refineInto p (t.elem? i length) found) _ :=
        refines_refineElems hnodup' htail haccepts.2 fun k w u hw hu hmerges =>
          hparts (k + 1) w u hw (by rw [← Nat.add_assoc, Nat.add_right_comm]; exact hu)
            (by rw [← Nat.add_assoc, Nat.add_right_comm]; exact hmerges)
      refine (hfirst.trans hrest (fun x hx hx' => hdisjoint x hx x hx' rfl)
        (fun x w hw => hw.mem_vars) ?_).imp ?_
      · rintro x w ⟨q, v', hq, hw⟩
        exact mem_varsAll.2 ⟨q, (List.of_mem_zip hq).1, hw.mem_vars⟩
      · rintro x w ⟨q, v', hq, hw⟩
        rw [List.zip_cons_cons, List.mem_cons] at hq
        rcases hq with heq | hq
        · cases heq
          exact .inl hw
        · exact .inr ⟨q, v', hq, hw⟩

theorem refines_refineFields : ∀ {fs : List (String × Pattern)} {t : Ty}
    {vs : List (String × Value)} {found : Table String Ty}, (varsFields fs).Nodup →
    SuitsFields fs t → acceptsFields fs vs = true →
    (∀ name w u, Table.get? name vs = some w → t.field? name = some u →
      Ty.Merges (t.parts (Ty.recordField? name)) → u.Normal ∧ u.Admits true w) →
    Refines (varsFields fs)
      (fun x w => ∃ f v, f ∈ fs ∧ Table.get? f.1 vs = some v ∧ Binds f.2 v x w) found
      (refineFields fs t found)
  | [], _, _, _, _, _, _, _ => refines_self _
  | (name, p) :: fs, t, vs, found, hnodup, ⟨hhead, htail⟩, haccepts, hparts => by
      rw [acceptsFields, Bool.and_eq_true, Option.any_eq_true] at haccepts
      obtain ⟨⟨v, hv, hp⟩, haccepts⟩ := haccepts
      rw [varsFields, List.nodup_append] at hnodup
      obtain ⟨hnodup, hnodup', hdisjoint⟩ := hnodup
      have hfirst : Refines p.vars (Binds p v) found (refineInto p (t.field? name) found) := by
        cases hu : t.field? name with
        | none => rw [refineInto_none]; exact refines_self found
        | some u =>
            obtain ⟨hmerges, hsuits⟩ := hhead u hu
            obtain ⟨hnormal, hadmits⟩ := hparts name v u hv hu hmerges
            exact refines_refineInto hnodup hnormal hsuits hadmits hp
      have hrest : Refines (varsFields fs) _ (refineInto p (t.field? name) found) _ :=
        refines_refineFields hnodup' htail haccepts hparts
      refine (hfirst.trans hrest (fun x hx hx' => hdisjoint x hx x hx' rfl)
        (fun x w hw => hw.mem_vars) ?_).imp ?_
      · rintro x w ⟨f, v', hf, -, hw⟩
        exact mem_varsFields.2 ⟨f, hf, hw.mem_vars⟩
      · rintro x w ⟨f, v', hf, hv', hw⟩
        rcases List.mem_cons.1 hf with rfl | hf
        · rw [hv] at hv'
          cases hv'
          exact .inl hw
        · exact .inr ⟨f, v', hf, hv', hw⟩

end

/-- Refinement is sound: the part of a value that a matching pattern binds to a name is a value of
the type that the name gets. -/
theorem admits_refine {t u : Ty} {p : Pattern} {v w : Value} {x : String} (ht : t.Normal)
    (hnodup : p.vars.Nodup) (hsuits : p.Suits t) (hv : t.Admits true v)
    (haccepts : p.accepts v = true) (hu : Table.get? x (p.refine t) = some u)
    (hw : Binds p v x w) : u.Admits true w := by
  rcases refines_refineInto hnodup ht hsuits hv haccepts x u hu with hfound | ⟨-, hall⟩
  · cases hfound
  · exact hall w hw

/-- Lists of numbers. -/
def numbers : Ty := .mu ⟨1, 0⟩ (.union [.record [("head", .int), ("tail", .var ⟨1, 0⟩)] none, .unit])

/-- What a list of numbers is: a number and a list, or nothing. -/
def numbersUnfolded : Ty := .union [.record [("head", .int), ("tail", numbers)] none, .unit]

def headAndTail : Pattern := .record {} [("head", .var {} "x"), ("tail", .var {} "xs")]

/-- The tail of a list of one number is a list. -/
theorem admits_refine_numbers :
    numbers.Normal ∧ headAndTail.vars.Nodup ∧ headAndTail.Suits numbers ∧
    numbers.Admits true (.record [("head", .const (.int 1)), ("tail", .const .unit)]) ∧
    headAndTail.accepts (.record [("head", .const (.int 1)), ("tail", .const .unit)]) = true ∧
    Table.get? "xs" (headAndTail.refine numbers) = some numbersUnfolded ∧
    numbersUnfolded.Admits true (.const .unit) := by
  have hunfold : numbers.unfoldOnce = numbersUnfolded := by with_unfolding_all rfl
  have hnarrow : numbersUnfolded.narrow headAndTail =
      .record [("head", .int), ("tail", numbers)] none := by cbv
  have hnormal : numbers.Normal := by
    refine .mu _ (.union ?_ ?_ ?_ (List.cons_ne_nil _ _))
    · simp only [List.forall_mem_cons, List.not_mem_nil, false_implies, implies_true, and_true]
      refine ⟨.record none ?_, .prim _⟩
      simpa using ⟨.prim _, .var _⟩
    · simp [Ty.unit]
    · simp [Ty.unit, Ty.equiv, Ty.equivUnder]
  have hsuits : headAndTail.Suits numbers := by
    show (∀ ts, numbers.unfoldOnce.unfoldOnce = .union ts → _) ∧
      SuitsFields _ (numbers.unfoldOnce.narrow headAndTail)
    rw [hunfold, hnarrow]
    refine ⟨fun ts hts a ha h hh => ?_, ?_⟩
    · cases hts
      rcases (by simpa using ha : a = _ ∨ a = _) with rfl | rfl
      · cases hh
        exact ⟨by simp, fun _ _ _ => ⟨fun _ _ => trivial, fun _ _ => trivial, trivial⟩⟩
      · cases hh
        exact ⟨by simp [Ty.unit], by simp [Ty.unit]⟩
    · have hnone : ∀ name, Ty.Merges (Ty.parts (Ty.recordField? name)
          (.record [("head", .int), ("tail", numbers)] none)) := fun name a ha => by cases ha
      exact ⟨fun _ _ => ⟨hnone _, trivial⟩, fun _ _ => ⟨hnone _, trivial⟩, trivial⟩
  have hv : numbers.Admits true (.record [("head", .const (.int 1)), ("tail", .const .unit)]) := by
    refine .mu ?_
    show numbers.unfoldOnce.Admits true _
    rw [hunfold]
    refine .union List.mem_cons_self (Ty.admits_record.2 ⟨_, rfl, ?_, ?_⟩)
    · refine List.forall_mem_cons.2 ⟨⟨_, rfl, .int 1⟩, List.forall_mem_singleton.2 ⟨_, rfl, ?_⟩⟩
      refine .mu ?_
      show numbers.unfoldOnce.Admits true _
      rw [hunfold]
      exact .union (by simp) .unit
    · simp [Table.keys]
  have hu : Table.get? "xs" (headAndTail.refine numbers) = some numbersUnfolded := by
    cbv
  refine ⟨hnormal, by decide, hsuits, hv, by decide, hu,
    admits_refine hnormal (by decide) hsuits hv (by decide) hu ?_⟩
  exact .field (f := ("tail", .var {} "xs")) (by simp) rfl (.var {} "xs" _)

end Pattern

end RowTypes
