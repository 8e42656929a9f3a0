import RowTypes.Source.Pattern
import RowTypes.Ty.Hash
import RowTypes.Ty.Subst

/-!
# Constraints

Walking an expression produces requirements on types, which are discharged later.  A constraint
is such a demand together with where it comes from and why it was made.

Constraints are told apart by digests.  The digest of an equality does not depend on the order of
its sides; the digests of a branching and of a coverage demand include the place, because two
matches with the same patterns are still two matches.
-/

namespace RowTypes

/-- What a constraint demands. -/
inductive Demand where
  /-- Both types are one. -/
  | equal (left right : Ty)
  /-- The first type can be used where the second is expected. -/
  | subtype (sub super : Ty)
  /-- The type belongs to a type class. -/
  | ofClass (ty : Ty) (cls : String)
  /-- The type is a record. -/
  | recordShape (ty : Ty)
  /-- The first type is the record made of the spread records, overlaid with explicit fields. -/
  | merge (result : Ty) (spreads : List Ty) (explicit : RecordTy)
  /-- The type of a match's scrutinee can hold a value of each pattern's type. -/
  | holds (scrutinee : Ty) (patterns : List Ty)
  /-- The patterns of a match cover every value of the scrutinee. -/
  | exhaustive (scrutinee : Ty) (patterns : List Pattern)
  /-- The first type is that of whichever branch is taken. -/
  | branch (result : Ty) (branches : List Ty)
  deriving Repr, Inhabited

/-- The kinds of demands, in the order of their numbers. -/
inductive DemandKind where
  | equality
  | subtyping
  | ofClass
  | recordShape
  | merge
  | holds
  | exhaustive
  | branch
  deriving Repr, DecidableEq, Inhabited

namespace DemandKind

/-- All kinds, in the order of their numbers. -/
def all : List DemandKind :=
  [.equality, .subtyping, .ofClass, .recordShape, .merge, .holds, .exhaustive, .branch]

def number (k : DemandKind) : Nat := k.ctorIdx

/-- The kind of a number, if there is one. -/
def ofNumber? (n : Int) : Option DemandKind := if n < 0 then none else all[n.toNat]?

theorem ofNumber?_number (k : DemandKind) : ofNumber? k.number = some k := by
  cases k <;> rfl

def name : DemandKind → String
  | .equality => "equality"
  | .subtyping => "subtyping"
  | .ofClass => "instance"
  | .recordShape => "record-shape"
  | .merge => "merge"
  | .holds => "union-compat"
  | .exhaustive => "exhaustive"
  | .branch => "branch"

/-- When demands of a kind are met: those of higher priority first. -/
def priority : DemandKind → Int
  | .equality | .recordShape => 3
  | .subtyping | .merge | .holds | .branch => 2
  | .ofClass => 1
  | .exhaustive => 0

/-- The name for a number, whether or not a kind has it. -/
def nameOfNumber (n : Int) : String :=
  match ofNumber? n with
  | some k => k.name
  | none => "Kind(" ++ toString n ++ ")"

/-- The priority for a number; numbers that no kind has come last. -/
def priorityOfNumber (n : Int) : Int :=
  match ofNumber? n with
  | some k => k.priority
  | none => 0

end DemandKind

/-- Why a constraint was made. -/
inductive Origin where
  | unification
  | inference
  | subtyping
  | typeClass
  | written
  /-- A number that no origin has. -/
  | other (code : Int)
  deriving Repr, DecidableEq, Inhabited

namespace Origin

/-- The origin of a number. -/
def ofCode : Int → Origin
  | 0 => .unification
  | 1 => .inference
  | 2 => .subtyping
  | 3 => .typeClass
  | 4 => .written
  | n => .other n

def name : Origin → String
  | .unification => "unification"
  | .inference => "inference"
  | .subtyping => "subtyping"
  | .typeClass => "type-class"
  | .written => "user-annotation"
  | .other n => "Origin(" ++ toString n ++ ")"

end Origin

namespace Demand

/-- The class of types that can be printed, which is every type. -/
def printable : String := "Printable"

/-- The class of types that can be compared. -/
def comparable : String := "Comparable"

def kind : Demand → DemandKind
  | .equal .. => .equality
  | .subtype .. => .subtyping
  | .ofClass .. => .ofClass
  | .recordShape .. => .recordShape
  | .merge .. => .merge
  | .holds .. => .holds
  | .exhaustive .. => .exhaustive
  | .branch .. => .branch

/-- The types that a demand is about. -/
def types : Demand → List Ty
  | .equal a b | .subtype a b => [a, b]
  | .ofClass t _ | .recordShape t | .exhaustive t _ => [t]
  | .merge result spreads explicit => result :: explicit.toTy :: spreads
  | .holds t ts | .branch t ts => t :: ts

def applyRecord (s : Subst) (r : RecordTy) : RecordTy := ((s.apply r.toTy).record?).getD r

def apply (s : Subst) : Demand → Demand
  | .equal a b => .equal (s.apply a) (s.apply b)
  | .subtype a b => .subtype (s.apply a) (s.apply b)
  | .ofClass t cls => .ofClass (s.apply t) cls
  | .recordShape t => .recordShape (s.apply t)
  | .merge result spreads explicit =>
    .merge (s.apply result) (s.applyAll spreads) (applyRecord s explicit)
  | .holds t ts => .holds (s.apply t) (s.applyAll ts)
  | .exhaustive t ps => .exhaustive (s.apply t) ps
  | .branch t ts => .branch (s.apply t) (s.applyAll ts)

def render : Demand → String
  | .equal a b => a.render ++ " ~ " ++ b.render
  | .subtype a b => a.render ++ " <: " ++ b.render
  | .ofClass t cls => cls ++ "[" ++ t.render ++ "]"
  | .recordShape t => "record[" ++ t.render ++ "]"
  | .merge result spreads explicit =>
    result.render ++ " = merge("
      ++ Text.commas (spreads.map (fun t => "..." ++ t.render) ++ [explicit.toTy.render]) ++ ")"
  | .holds t ts => t.render ++ " ⊇ " ++ " | ".intercalate (ts.map Ty.render)
  | .exhaustive t ps =>
    "exhaustive[" ++ t.render ++ "](" ++ "; ".intercalate (ps.map Pattern.render) ++ ")"
  | .branch t ts => t.render ++ " = branch(" ++ Text.commas (ts.map Ty.render) ++ ")"

/-- The digests of a demand's parts, in the order in which they are digested. -/
def digestParts : Demand → List Digest
  | .equal a b => Digest.sorted [a.digest, b.digest]
  | .ofClass t cls => [t.digest, .ofText cls]
  | .exhaustive t ps => t.digest :: ps.map Pattern.digest
  | d => Ty.digestAll d.types

/-- Whether the place belongs to what the demand says. -/
def isPlaced : Demand → Bool
  | .exhaustive .. | .branch .. => true
  | _ => false

end Demand

/-- A demand, why it was made and where. -/
structure Constraint where
  demand : Demand
  origin : Origin := .inference
  span : Span := {}
  deriving Repr, Inhabited

namespace Constraint

def equal (a b : Ty) (origin : Origin) (span : Span) : Constraint := ⟨.equal a b, origin, span⟩

def subtype (a b : Ty) (origin : Origin) (span : Span) : Constraint := ⟨.subtype a b, origin, span⟩

def ofClass (t : Ty) (cls : String) (span : Span) : Constraint := ⟨.ofClass t cls, .typeClass, span⟩

def kind (c : Constraint) : DemandKind := c.demand.kind

/-- When the constraint is met. -/
def priority (c : Constraint) : Int := c.kind.priority

def types (c : Constraint) : List Ty := c.demand.types

def free (c : Constraint) : VarSet := Ty.frees c.types

def apply (s : Subst) (c : Constraint) : Constraint := { c with demand := c.demand.apply s }

def render (c : Constraint) : String := c.demand.render

/-- The digest by which constraints are told apart. -/
def digest (c : Constraint) : Digest :=
  .ofWords (.ofInt c.kind.number :: c.demand.digestParts
    ++ if c.demand.isPlaced then [c.span.digest] else [])

/-- Whether the constraint holds under every substitution, by its form alone. -/
def isTrivial (c : Constraint) : Bool :=
  match c.demand with
  | .equal a b | .subtype a b => a.equiv b
  | .ofClass _ cls => cls == Demand.printable
  | .recordShape (.record _ (some _)) => true
  | _ => false

end Constraint

end RowTypes
