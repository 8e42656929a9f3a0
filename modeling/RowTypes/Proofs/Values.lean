import RowTypes.Coverage.Analysis
import RowTypes.Proofs.Tables

/-!
# Values

What the analysis of a match is about: values, the types that have them, the patterns that accept
them and the spaces that hold them.  None of it looks at how spaces are listed or compared.

A record pattern accepts the records that have every field it names.  Coverage asks for less: a
space does not know the fields that it does not name, counts them as anything, and lets a name or a
wildcard cover that.  So what a pattern covers it accepts only where it names fields that the space
has, and that is the one side condition here, `Pattern.namesWithin`.
-/

namespace RowTypes

/-! ## Constants and values -/

/-- Constants. -/
inductive Const where
  | int (n : Int)
  | string (s : String)
  | bool (b : Bool)
  | unit
  deriving Repr, DecidableEq

namespace Const

def kind : Const → LiteralKind
  | .int _ => .int
  | .string _ => .string
  | .bool _ => .bool
  | .unit => .unit

/-- The text that a literal holds: the digits of a number, the contents of a string, a truth
value's name, and nothing for unit. -/
def text : Const → String
  | .int n => n.repr
  | .string s => s
  | .bool b => if b then "true" else "false"
  | .unit => ""

/-- Whether a literal stands for the constant. Unit has one constant, whatever is written. -/
def isWritten (c : Const) (kind : LiteralKind) (text : String) : Bool :=
  kind == c.kind && (c == .unit || text == c.text)

theorem isWritten_iff {c : Const} {kind : LiteralKind} {text : String} :
    c.isWritten kind text = true ↔ kind = c.kind ∧ (c = .unit ∨ text = c.text) := by
  simp [isWritten]

end Const

/-- Values. Functions are not told apart by matching, so a number is all there is of one. -/
inductive Value where
  | const (c : Const)
  | closure (id : Nat)
  | tuple (elems : List Value)
  | record (fields : List (String × Value))

/-! ## Which values a pattern accepts -/

namespace Pattern

mutual

/-- Whether a pattern matches a value. -/
def accepts : Pattern → Value → Bool
  | .var .., _ | .wildcard _, _ => true
  | .literal _ kind text, .const c => c.isWritten kind text
  | .tuple _ ps, .tuple vs => acceptsAll ps vs
  | .record _ fs, .record vs => acceptsFields fs vs
  | _, _ => false

/-- Whether patterns match values, place by place. -/
def acceptsAll : List Pattern → List Value → Bool
  | [], [] => true
  | p :: ps, v :: vs => p.accepts v && acceptsAll ps vs
  | _, _ => false

/-- Whether the fields of a record are there and match. -/
def acceptsFields : List (String × Pattern) → List (String × Value) → Bool
  | [], _ => true
  | (name, p) :: fs, vs =>
    (Table.get? name vs).any (fun v => p.accepts v) && acceptsFields fs vs

end

mutual

/-- Whether a pattern names only fields that the records of a space have. -/
def namesWithin : Pattern → Space → Bool
  | .tuple _ ps, .tuple ss => namesWithinAll ps ss
  | .record _ fs, .record ss => namesWithinFields fs ss
  | .record .., _ => false
  | _, _ => true

/-- The same for several patterns, place by place. -/
def namesWithinAll : List Pattern → List Space → Bool
  | p :: ps, s :: ss => p.namesWithin s && namesWithinAll ps ss
  | _, _ => true

/-- The same for the fields of a record pattern: each is there, and what it holds is named too. -/
def namesWithinFields : List (String × Pattern) → List (String × Space) → Bool
  | [], _ => true
  | (name, p) :: fs, ss =>
    ss.any (fun s => s.1 == name) && ss.all (fun s => s.1 != name || p.namesWithin s.2)
      && namesWithinFields fs ss

end

theorem accepts_of_isIrrefutable {p : Pattern} (h : p.isIrrefutable = true) (v : Value) :
    p.accepts v = true := by
  cases p with
  | var | wildcard => simp [accepts]
  | _ => cases h

theorem acceptsFields_iff {vs : List (String × Value)} : ∀ {fs : List (String × Pattern)},
    acceptsFields fs vs = true ↔
      ∀ f ∈ fs, ∃ v, Table.get? f.1 vs = some v ∧ f.2.accepts v = true
  | [] => by simp [acceptsFields]
  | (name, p) :: fs => by
      rw [acceptsFields, Bool.and_eq_true, acceptsFields_iff, List.forall_mem_cons,
        Option.any_eq_true]

theorem namesWithinFields_iff {ss : List (String × Space)} : ∀ {fs : List (String × Pattern)},
    namesWithinFields fs ss = true ↔ ∀ f ∈ fs, (∃ s ∈ ss, s.1 = f.1) ∧
      ∀ s ∈ ss, s.1 = f.1 → f.2.namesWithin s.2 = true
  | [] => by simp [namesWithinFields]
  | (name, p) :: fs => by
      rw [namesWithinFields, Bool.and_eq_true, namesWithinFields_iff, List.forall_mem_cons]
      simp only [Bool.and_eq_true, List.any_eq_true, List.all_eq_true, beq_iff_eq, Bool.or_eq_true,
        bne_iff_ne, ne_eq, ← imp_iff_not_or]

theorem coversFields_iff {ss : List (String × Space)} : ∀ {fs : List (String × Pattern)},
    coversFields fs ss = true ↔ ∀ f ∈ fs, f.2.covers (Space.fieldOf ss f.1) = true
  | [] => by simp [coversFields]
  | (name, p) :: fs => by
      rw [coversFields, Bool.and_eq_true, coversFields_iff, List.forall_mem_cons]

end Pattern

/-! ## Which values a space holds -/

namespace Space

mutual

/-- Whether a value is in a space. -/
def has : Space → Value → Bool
  | .anything, _ => true
  | .literal kind text, .const c => c.isWritten kind text
  | .tuple ss, .tuple vs => hasAll ss vs
  | .record fs, .record vs => hasFields fs vs
  | _, _ => false

/-- Whether values are in spaces, place by place. -/
def hasAll : List Space → List Value → Bool
  | [], [] => true
  | s :: ss, v :: vs => s.has v && hasAll ss vs
  | _, _ => false

/-- Whether the fields of a space are there, with values of theirs. -/
def hasFields : List (String × Space) → List (String × Value) → Bool
  | [], _ => true
  | (name, s) :: fs, vs => (Table.get? name vs).any (fun v => s.has v) && hasFields fs vs

end

theorem hasFields_iff {vs : List (String × Value)} : ∀ {fs : List (String × Space)},
    hasFields fs vs = true ↔ ∀ f ∈ fs, ∃ v, Table.get? f.1 vs = some v ∧ f.2.has v = true
  | [] => by simp [hasFields]
  | (name, s) :: fs => by
      rw [hasFields, Bool.and_eq_true, hasFields_iff, List.forall_mem_cons, Option.any_eq_true]

theorem exists_fieldOf {ss : List (String × Space)} {name : String} (h : ∃ s ∈ ss, s.1 = name) :
    ∃ s, (name, s) ∈ ss ∧ fieldOf ss name = s := by
  obtain ⟨s, hmem, rfl⟩ := h
  cases hlookup : ss.lookup s.1 with
  | none => exact absurd (List.lookup_eq_none_iff.1 hlookup s hmem) (by simp)
  | some s' =>
      obtain ⟨before, after, rfl, -⟩ := List.lookup_eq_some_iff.1 hlookup
      exact ⟨s', List.mem_append_cons_self, by rw [fieldOf, hlookup]; rfl⟩

theorem hasAll_iff : ∀ {ss : List Space} {vs : List Value},
    hasAll ss vs = true ↔ List.Forall₂ (fun s v => s.has v = true) ss vs
  | [], [] => by simp [hasAll]
  | [], _ :: _ | _ :: _, [] => by simp [hasAll]
  | s :: ss, v :: vs => by rw [hasAll, Bool.and_eq_true, hasAll_iff, List.forall₂_cons]

end Space

namespace Pattern

mutual

/-- What a pattern covers it accepts, if it names no field that the space does not have. -/
theorem accepts_of_covers : ∀ {p : Pattern} {s : Space} {v : Value}, p.covers s = true →
    p.namesWithin s = true → s.has v = true → p.accepts v = true
  | .missing, s, v, hcovers, _, _ => by simp [covers] at hcovers
  | .var .., _, v, _, _, _ | .wildcard _, _, v, _, _, _ => by simp [accepts]
  | .literal _ kind text, s, v, hcovers, _, hv => by
      cases s with
      | literal kind' text' =>
          obtain ⟨rfl, rfl⟩ : kind = kind' ∧ text = text' := by simpa [covers] using hcovers
          cases v with
          | const c => simpa [accepts, Space.has] using hv
          | _ => simp [Space.has] at hv
      | _ => simp [covers] at hcovers
  | .tuple _ ps, s, v, hcovers, hnames, hv => by
      cases s with
      | tuple ss =>
          cases v with
          | tuple vs =>
              simp only [covers, namesWithin, Space.has, accepts] at hcovers hnames hv ⊢
              exact acceptsAll_of_covers hcovers hnames hv
          | _ => simp [Space.has] at hv
      | _ => simp [covers] at hcovers
  | .record _ fs, s, v, hcovers, hnames, hv => by
      cases s with
      | record ss =>
          cases v with
          | record vs =>
              simp only [covers, namesWithin, Space.has, accepts] at hcovers hnames hv ⊢
              exact acceptsFields_of_covers hcovers hnames hv
          | _ => simp [Space.has] at hv
      | _ => simp [covers] at hcovers

theorem acceptsAll_of_covers : ∀ {ps : List Pattern} {ss : List Space} {vs : List Value},
    coversAll ps ss = true → namesWithinAll ps ss = true → Space.hasAll ss vs = true →
      acceptsAll ps vs = true
  | [], [], [], _, _, _ => by simp [acceptsAll]
  | [], [], _ :: _, _, _, hvs => by simp [Space.hasAll] at hvs
  | [], _ :: _, _, hcovers, _, _ | _ :: _, [], _, hcovers, _, _ => by simp [coversAll] at hcovers
  | _ :: _, _ :: _, [], _, _, hvs => by simp [Space.hasAll] at hvs
  | p :: ps, s :: ss, v :: vs, hcovers, hnames, hvs => by
      simp only [coversAll, namesWithinAll, Space.hasAll, acceptsAll, Bool.and_eq_true]
        at hcovers hnames hvs ⊢
      exact ⟨accepts_of_covers hcovers.1 hnames.1 hvs.1,
        acceptsAll_of_covers hcovers.2 hnames.2 hvs.2⟩

theorem acceptsFields_of_covers : ∀ {fs : List (String × Pattern)} {ss : List (String × Space)}
    {vs : List (String × Value)}, coversFields fs ss = true → namesWithinFields fs ss = true →
      Space.hasFields ss vs = true → acceptsFields fs vs = true
  | [], _, _, _, _, _ => by simp [acceptsFields]
  | (name, p) :: fs, ss, vs, hcovers, hnames, hvs => by
      simp only [coversFields, Bool.and_eq_true] at hcovers
      simp only [namesWithinFields, Bool.and_eq_true, List.any_eq_true, List.all_eq_true,
        beq_iff_eq, Bool.or_eq_true, bne_iff_ne, ne_eq, ← imp_iff_not_or] at hnames
      obtain ⟨⟨hnamed, hall⟩, hrest⟩ := hnames
      -- The space that is looked at is that of a field of the record, so the value has it.
      obtain ⟨s, hmem, hs⟩ := Space.exists_fieldOf hnamed
      obtain ⟨v, hv, hsv⟩ := Space.hasFields_iff.1 hvs _ hmem
      rw [hs] at hcovers
      rw [acceptsFields, Bool.and_eq_true, Option.any_eq_true]
      exact ⟨⟨v, hv, accepts_of_covers hcovers.1 (hall _ hmem rfl) hsv⟩,
        acceptsFields_of_covers hcovers.2 hrest hvs⟩

end

mutual

/-- What a pattern accepts is in its space. -/
theorem has_ofPattern : ∀ {p : Pattern} {v : Value}, p.accepts v = true →
    (Space.ofPattern p).has v = true
  | .missing, _, _ | .var .., _, _ | .wildcard _, _, _ => by simp [Space.ofPattern, Space.has]
  | .literal _ kind text, v, hv => by
      cases v with
      | const c => simpa [Space.ofPattern, Space.has, accepts] using hv
      | _ => simp [accepts] at hv
  | .tuple _ ps, v, hv => by
      cases v with
      | tuple vs =>
          simp only [Space.ofPattern, Space.has, accepts] at hv ⊢
          exact hasAll_ofPatterns hv
      | _ => simp [accepts] at hv
  | .record _ fs, v, hv => by
      cases v with
      | record vs =>
          simp only [Space.ofPattern, Space.has, accepts] at hv ⊢
          exact hasFields_ofFieldPatterns hv
      | _ => simp [accepts] at hv

theorem hasAll_ofPatterns : ∀ {ps : List Pattern} {vs : List Value}, acceptsAll ps vs = true →
    Space.hasAll (Space.ofPatterns ps) vs = true
  | [], [], _ => by simp [Space.ofPatterns, Space.hasAll]
  | [], _ :: _, hvs | _ :: _, [], hvs => by simp [acceptsAll] at hvs
  | p :: ps, v :: vs, hvs => by
      simp only [acceptsAll, Space.ofPatterns, Space.hasAll, Bool.and_eq_true] at hvs ⊢
      exact ⟨has_ofPattern hvs.1, hasAll_ofPatterns hvs.2⟩

theorem hasFields_ofFieldPatterns : ∀ {fs : List (String × Pattern)} {vs : List (String × Value)},
    acceptsFields fs vs = true → Space.hasFields (Space.ofFieldPatterns fs) vs = true
  | [], _, _ => by simp [Space.ofFieldPatterns, Space.hasFields]
  | (name, p) :: fs, vs, hvs => by
      simp only [acceptsFields, Space.ofFieldPatterns, Space.hasFields, Bool.and_eq_true,
        Option.any_eq_true] at hvs ⊢
      obtain ⟨⟨v, hv, hp⟩, hrest⟩ := hvs
      exact ⟨⟨v, hv, has_ofPattern hp⟩, hasFields_ofFieldPatterns hrest⟩

end

end Pattern

/-! ## Which values a type has -/

/-- A value is of a type. A closed record has its fields and no more, an open one at least those,
and a recursive type has the values of its unfolding. -/
inductive Ty.Has : Ty → Value → Prop where
  | int (n : Int) : Has .int (.const (.int n))
  | string (s : String) : Has .string (.const (.string s))
  | bool (b : Bool) : Has .bool (.const (.bool b))
  | unit : Has .unit (.const .unit)
  | lit (s : String) : Has (.lit s) (.const (.string s))
  | fn (p r : Ty) (id : Nat) : Has (.fn p r) (.closure id)
  | tuple {ts : List Ty} {vs : List Value} : ts.length = vs.length →
      (∀ entry ∈ ts.zip vs, Has entry.1 entry.2) → Has (.tuple ts) (.tuple vs)
  | record {fs : List (String × Ty)} {row : Option TyVar} {vs : List (String × Value)} :
      (∀ f ∈ fs, (Table.get? f.1 vs).isSome = true) →
      (∀ f ∈ fs, ∀ v, Table.get? f.1 vs = some v → Has f.2 v) →
      (row = none → ∀ f ∈ vs, f.1 ∈ Table.keys fs) → Has (.record fs row) (.record vs)
  | union {ts : List Ty} {t : Ty} {v : Value} : t ∈ ts → Has t v → Has (.union ts) v
  | mu {b : TyVar} {t : Ty} {v : Value} : Has (.unfold b t) v → Has (.mu b t) v

/-- A value may be of a type, as far as one can tell who lists its values: where there is nothing to
list any value may be, a record has at least its fields, and a recursive type has the values of its
unfolding. -/
inductive Ty.Allows : Ty → Value → Prop where
  | bool (b : Bool) : Allows .bool (.const (.bool b))
  | unit : Allows .unit (.const .unit)
  | prim {name : String} (v : Value) : name ≠ "Bool" → name ≠ "Unit" → Allows (.prim name) v
  | lit (s : String) : Allows (.lit s) (.const (.string s))
  | var (x : TyVar) (v : Value) : Allows (.var x) v
  | named (name : String) (ts : List Ty) (v : Value) : Allows (.named name ts) v
  | fn (p r : Ty) (v : Value) : Allows (.fn p r) v
  | inter (ts : List Ty) (v : Value) : Allows (.inter ts) v
  | tuple {ts : List Ty} {vs : List Value} : ts.length = vs.length →
      (∀ entry ∈ ts.zip vs, Allows entry.1 entry.2) → Allows (.tuple ts) (.tuple vs)
  | record {fs : List (String × Ty)} {row : Option TyVar} {vs : List (String × Value)} :
      (∀ f ∈ fs, (Table.get? f.1 vs).isSome = true) →
      (∀ f ∈ fs, ∀ v, Table.get? f.1 vs = some v → Allows f.2 v) →
      Allows (.record fs row) (.record vs)
  | union {ts : List Ty} {t : Ty} {v : Value} : t ∈ ts → Allows t v → Allows (.union ts) v
  | mu {b : TyVar} {t : Ty} {v : Value} : Allows (.unfold b t) v → Allows (.mu b t) v

theorem Ty.Has.allows {t : Ty} {v : Value} (h : t.Has v) : t.Allows v := by
  induction h with
  | int n => exact .prim _ (by decide) (by decide)
  | string s => exact .prim _ (by decide) (by decide)
  | bool b => exact .bool b
  | unit => exact .unit
  | lit s => exact .lit s
  | fn p r id => exact .fn p r _
  | tuple hlen _ ih => exact .tuple hlen ih
  | record hthere _ _ ih => exact .record hthere ih
  | union ht _ ih => exact .union ht ih
  | mu _ ih => exact .mu ih

end RowTypes
