import RowTypes.Constraint.Basic
import RowTypes.Diagnostic.Basic

/-!
# Sets of constraints

A set keeps its constraints in the order in which they were added, which makes solving
deterministic, and holds no two constraints of one digest: adding a constraint whose digest is
there already changes nothing.  The digests are kept beside the constraints, so that they are
computed once, and no digest is kept twice.
-/

namespace RowTypes

/-- Constraints in the order in which they were added. -/
structure ConstraintSet where
  items : List Constraint := []
  /-- The digests of the constraints. -/
  seen : List Digest := []
  seen_eq : seen = items.map Constraint.digest := by rfl
  nodup : seen.Nodup := by simp

namespace ConstraintSet

def empty : ConstraintSet := {}

instance : Inhabited ConstraintSet := ⟨empty⟩

/-- Whether a constraint of the same digest is in the set. -/
def contains (s : ConstraintSet) (c : Constraint) : Bool := s.seen.contains c.digest

/-- Adds a constraint at the end, unless one of the same digest is there. -/
def add (s : ConstraintSet) (c : Constraint) : ConstraintSet :=
  if h : s.contains c then s
  else ⟨s.items ++ [c], s.seen ++ [c.digest], by simp [s.seen_eq], by
    refine List.nodup_append.2 ⟨s.nodup, by simp, fun d hd e he => ?_⟩
    rintro rfl
    exact h (List.contains_iff_mem.2 (List.mem_singleton.1 he ▸ hd))⟩

def ofList (cs : List Constraint) : ConstraintSet := cs.foldl add empty

def size (s : ConstraintSet) : Nat := s.items.length

def isEmpty (s : ConstraintSet) : Bool := s.items.isEmpty

/-- The constraints of a set that are not in another one, with their digests. -/
def newTo (s t : ConstraintSet) : List (Constraint × Digest) :=
  (t.items.zip t.seen).filter fun item => !s.seen.contains item.2

theorem newTo_eq (s t : ConstraintSet) :
    s.newTo t = (t.items.filter fun c => !s.contains c).map fun c => (c, c.digest) := by
  rw [newTo, t.seen_eq]
  induction t.items with
  | nil => rfl
  | cons c cs ih =>
    simp only [List.map_cons, List.zip_cons_cons, List.filter_cons, contains, ih]
    split <;> rfl

theorem nodup_newTo (s t : ConstraintSet) : ((s.newTo t).map (·.2)).Nodup := by
  have ht := t.nodup
  rw [t.seen_eq] at ht
  simp only [newTo_eq, List.map_map, Function.comp_def]
  exact ht.sublist (List.filter_sublist.map Constraint.digest)

theorem not_mem_newTo {s t : ConstraintSet} {d : Digest} (hd : d ∈ (s.newTo t).map (·.2)) :
    d ∉ s.seen := by
  obtain ⟨item, hitem, rfl⟩ := List.mem_map.1 hd
  simpa using (List.mem_filter.1 hitem).2

/-- Adds the constraints of another set at the end, in their order, apart from those whose
digest is there already. -/
def union (s t : ConstraintSet) : ConstraintSet :=
  let new := s.newTo t
  ⟨s.items ++ new.map (·.1), s.seen ++ new.map (·.2), by
    simp [new, newTo_eq, s.seen_eq, Function.comp_def], by
    refine List.nodup_append.2 ⟨s.nodup, nodup_newTo s t, fun d hd e he => ?_⟩
    rintro rfl
    exact not_mem_newTo he hd⟩

theorem items_union (s t : ConstraintSet) :
    (s.union t).items = s.items ++ t.items.filter fun c => !s.contains c := by
  simp [union, newTo_eq, Function.comp_def]

def filter (s : ConstraintSet) (keep : Constraint → Bool) : ConstraintSet :=
  ofList (s.items.filter keep)

def inter (s t : ConstraintSet) : ConstraintSet := s.filter t.contains

def diff (s t : ConstraintSet) : ConstraintSet := s.filter fun c => !t.contains c

def ofKinds (s : ConstraintSet) (kinds : List DemandKind) : ConstraintSet :=
  s.filter fun c => kinds.contains c.kind

def ofOrigins (s : ConstraintSet) (origins : List Origin) : ConstraintSet :=
  s.filter fun c => origins.contains c.origin

def ofPriority (s : ConstraintSet) (priority : Int) : ConstraintSet :=
  s.filter fun c => c.priority == priority

def apply (s : ConstraintSet) (subst : Subst) : ConstraintSet :=
  if subst.isEmpty then s else ofList (s.items.map (Constraint.apply subst))

/-- The unknowns that are free in some constraint. -/
def free (s : ConstraintSet) : VarSet := s.items.foldl (fun vs c => vs.union c.free) []

/-- The constraints by falling priority, in the order of the set where priorities agree. -/
def sorted (s : ConstraintSet) : List Constraint :=
  s.items.mergeSort fun a b => b.priority ≤ a.priority

/-- The constraints that do not hold by their form alone. -/
def simplify (s : ConstraintSet) : ConstraintSet := s.filter fun c => !c.isTrivial

def render (s : ConstraintSet) : String := Text.braces (Text.commas (s.items.map Constraint.render))

end ConstraintSet

end RowTypes
