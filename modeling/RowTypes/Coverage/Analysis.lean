import RowTypes.Coverage.Narrow
import RowTypes.Coverage.Space
import RowTypes.Diagnostic.Basic
import RowTypes.Text.Names

/-!
# The analysis of a match

Given the type of a match's scrutinee and its patterns: which values no pattern matches, which
cases an earlier one takes over, which patterns contradict themselves or repeat an earlier one,
and what the names of each case are narrowed to.
-/

namespace RowTypes

/-- A case that repeats an earlier one, or a pattern that contradicts itself. -/
structure Contradiction where
  index : Nat
  reason : String
  deriving Repr, DecidableEq, Inhabited

/-- What is known about the cases of a match. -/
structure Analysis where
  /-- The values that no pattern matches, or nothing if there were too many to list. -/
  missing? : Option (List String)
  /-- The cases that never match. -/
  unreachable : List Nat
  contradictions : List Contradiction
  /-- For each case, the types that its names are narrowed to. -/
  refinements : List (Table String Ty)
  deriving Repr, Inhabited

/-- Whether the values of a type can be listed, so that asking for all of them makes sense. -/
def Ty.isEnumerable : Ty → Bool
  | .prim name => name == "Bool"
  | .lit _ | .union _ => true
  | .mu _ t => t.isEnumerable
  | _ => false

namespace Pattern

/-- The values of a type that no pattern matches, unless there are too many to list. -/
def uncovered? (t : Ty) (patterns : List Pattern) : Option (List String) :=
  if patterns.any isIrrefutable then some []
  else t.spaces?.map fun spaces =>
    Text.Names.sorted ((spaces.filter fun s => !patterns.any (·.covers s)).map Space.render)

/-- The cases that an earlier one takes over, counting from `i`. -/
def unreachableFrom : List Pattern → Nat → List Pattern → List Nat
  | _, _, [] => []
  | earlier, i, p :: ps =>
    let later := unreachableFrom (earlier ++ [p]) (i + 1) ps
    if earlier.any (·.subsumes p) then i :: later else later

/-- The cases that an earlier one takes over. -/
def unreachable (patterns : List Pattern) : List Nat := unreachableFrom [] 0 patterns

/-- The first name that comes a second time. -/
def repeated? : List String → List String → Option String
  | _, [] => none
  | seen, n :: ns => if n ∈ seen then some n else repeated? (n :: seen) ns

mutual

/-- The field names that come a second time within one record pattern. -/
def repeatedFields : Pattern → List String
  | .tuple _ ps => repeatedFieldsAll ps
  | .record _ fs => repeatedFieldsIn [] fs
  | _ => []

def repeatedFieldsAll : List Pattern → List String
  | [] => []
  | p :: ps => repeatedFields p ++ repeatedFieldsAll ps

/-- The repeated field names of a record pattern, after some fields. -/
def repeatedFieldsIn : List String → List (String × Pattern) → List String
  | _, [] => []
  | seen, (name, p) :: fs =>
    (if name ∈ seen then [name] else []) ++ repeatedFields p
      ++ repeatedFieldsIn (name :: seen) fs

end

/-- Why a pattern contradicts itself: it binds a name twice, or matches a field twice. -/
def selfContradiction? (p : Pattern) : Option String :=
  match repeated? [] p.vars with
  | some name => some ("variable '" ++ name ++ "' is bound more than once")
  | none =>
    (p.repeatedFields.find? (· ≠ "")).map fun name =>
      "field '" ++ name ++ "' is matched more than once"

/-- What a pattern is called when it repeats another. -/
def noun : Pattern → String
  | .literal .. => "literal"
  | _ => "pattern"

/-- Patterns that contradict themselves, and patterns whose text is that of an earlier one. -/
def contradictionsFrom : List (String × Nat) → Nat → List Pattern → List Contradiction
  | _, _, [] => []
  | seen, i, p :: ps =>
    let own := (p.selfContradiction?.map fun reason => (⟨i, reason⟩ : Contradiction)).toList
    if p.isIrrefutable then own ++ contradictionsFrom seen (i + 1) ps
    else
      let key := (Space.ofPattern p).render
      match seen.lookup key with
      | some first =>
        own ++ ⟨i, "duplicate " ++ p.noun ++ " " ++ key ++ ", already matched by case "
          ++ toString first⟩ :: contradictionsFrom seen (i + 1) ps
      | none => own ++ contradictionsFrom ((key, i) :: seen) (i + 1) ps

def contradictions (patterns : List Pattern) : List Contradiction :=
  contradictionsFrom [] 0 patterns

end Pattern

namespace Analysis

/-- Analyses a match on a value of a type in normal form. -/
def ofMatch (t : Ty) (patterns : List Pattern) : Analysis :=
  { missing? := Pattern.uncovered? t patterns
    unreachable := Pattern.unreachable patterns
    contradictions := Pattern.contradictions patterns
    refinements := patterns.map (Pattern.refine t) }

/-- The values that no pattern matches; none when they could not be listed. -/
def missing (a : Analysis) : List String := a.missing?.getD []

def isDecided (a : Analysis) : Bool := a.missing?.isSome

def isExhaustive (a : Analysis) : Bool := a.missing.isEmpty

def warnings (a : Analysis) (patterns : List Pattern) : List Diagnostic :=
  let pattern (i : Nat) : Pattern := patterns.getD i .missing
  (a.unreachable.map fun i =>
      ⟨.unreachablePattern (pattern i).render i, (pattern i).span⟩)
    ++ a.contradictions.map fun c =>
      ⟨.contradictoryPattern (pattern c.index).render c.reason, (pattern c.index).span⟩

end Analysis

end RowTypes
