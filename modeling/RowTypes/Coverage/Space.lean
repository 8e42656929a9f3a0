import RowTypes.Source.Pattern
import RowTypes.Text.Layout
import RowTypes.Ty.Subst

/-!
# Spaces of values

A space is a set of values, written like the pattern that matches all of them.  The values of a
type are listed as spaces that together make up all of them: the two truth values, the unit, the
one string of a literal type, the alternatives of a union, the products of the elements of a tuple
and of the fields of a record, and for everything else the space of anything.

A recursive type is unfolded once on each way down; inside its own unfolding it counts as anything.
The binders that are not being unfolded get fewer with each unfolding, which bounds how often that
happens.  A list of more than `spaceLimit` spaces is given up.
-/

namespace RowTypes

/-- A set of values. -/
inductive Space where
  /-- Values that are not told apart. -/
  | anything
  /-- One constant. -/
  | literal (kind : LiteralKind) (value : String)
  /-- Tuples of values of these spaces. -/
  | tuple (elems : List Space)
  /-- Records whose fields are in these spaces, and whose other fields are anything. -/
  | record (fields : List (String × Space))
  deriving Repr, Inhabited

namespace Space

/-- The most spaces that are listed for one type. -/
def spaceLimit : Nat := 256

def isAnything : Space → Bool
  | .anything => true
  | _ => false

/-- A record in braces, or anything when no field narrows it down. -/
def bracedOrAny (fields : List String) : String :=
  if fields.isEmpty then "_" else Text.braces (Text.commas fields)

mutual

/-- The pattern for the space, with only those fields of a record that narrow it down. -/
def render : Space → String
  | .anything => "_"
  | .literal kind value => kind.render value
  | .tuple ss => "(" ++ Text.commas (renderAll ss) ++ ")"
  | .record fs => bracedOrAny (renderFields fs)

def renderAll : List Space → List String
  | [] => []
  | s :: ss => s.render :: renderAll ss

def renderFields : List (String × Space) → List String
  | [] => []
  | (name, s) :: fs =>
    if s.isAnything then renderFields fs else (name ++ ": " ++ s.render) :: renderFields fs

end

/-- The space of a field; a field that is not named is anything. -/
def fieldOf (fields : List (String × Space)) (name : String) : Space :=
  (fields.lookup name).getD .anything

mutual

/-- The values that a pattern matches. -/
def ofPattern : Pattern → Space
  | .literal _ kind value => .literal kind value
  | .tuple _ ps => .tuple (ofPatterns ps)
  | .record _ fs => .record (ofFieldPatterns fs)
  | _ => .anything

def ofPatterns : List Pattern → List Space
  | [] => []
  | p :: ps => ofPattern p :: ofPatterns ps

def ofFieldPatterns : List (String × Pattern) → List (String × Space)
  | [] => []
  | (name, p) :: fs => (name, ofPattern p) :: ofFieldPatterns fs

end

/-- The products of some sequences with some spaces, unless there are too many. -/
def extend? (products : List (List Space)) (spaces : List Space) : Option (List (List Space)) :=
  if products.length * spaces.length > spaceLimit then none
  else some (products.flatMap fun front => spaces.map fun s => front ++ [s])

def truths : List Space := [.literal .bool "true", .literal .bool "false"]

/-- The spaces of a primitive type. -/
def ofPrimitive (name : String) : List Space :=
  if name = "Bool" then truths
  else if name = "Unit" then [.literal .unit "()"]
  else [.anything]

mutual

/-- The spaces of a type, given those of a recursive type. -/
def enumerateWith (onMu : TyVar → Ty → Option (List Space)) : Ty → Option (List Space)
  | .prim name => some (ofPrimitive name)
  | .lit value => some [.literal .string value]
  | .union ts => enumerateAlts onMu ts
  | .tuple ts => (productOf onMu [[]] ts).map fun rows => rows.map .tuple
  | .record fs _ => (productOfFields onMu [[]] fs).map fun rows =>
      rows.map fun row => .record ((Table.keys fs).zip row)
  | .mu v t => onMu v t
  | _ => some [.anything]

/-- The spaces of the alternatives of a union. -/
def enumerateAlts (onMu : TyVar → Ty → Option (List Space)) : List Ty → Option (List Space)
  | [] => some []
  | t :: ts => do
    let here ← enumerateWith onMu t
    let rest ← enumerateAlts onMu ts
    if (here ++ rest).length > spaceLimit then none else some (here ++ rest)

/-- The products of some sequences with the spaces of some types. -/
def productOf (onMu : TyVar → Ty → Option (List Space)) (front : List (List Space)) :
    List Ty → Option (List (List Space))
  | [] => some front
  | t :: ts => do
    let spaces ← enumerateWith onMu t
    let front ← extend? front spaces
    productOf onMu front ts

/-- The products of some sequences with the spaces of some fields. -/
def productOfFields (onMu : TyVar → Ty → Option (List Space)) (front : List (List Space)) :
    List (String × Ty) → Option (List (List Space))
  | [] => some front
  | (_, t) :: fs => do
    let spaces ← enumerateWith onMu t
    let front ← extend? front spaces
    productOfFields onMu front fs

end

/-- The spaces of a type, where some binders are being unfolded and so many more may be. -/
def enumerateWithin : Nat → List Int → Ty → Option (List Space)
  | 0, _, t => enumerateWith (fun _ _ => some [.anything]) t
  | n + 1, unfolding, t =>
    enumerateWith (fun v body =>
      if v.id ∈ unfolding then some [.anything]
      else enumerateWithin n (v.id :: unfolding) (.unfold v body)) t

end Space

namespace Ty

mutual

/-- The binders of the recursive types inside a type. -/
def binders : Ty → List Int
  | .var _ | .prim _ | .lit _ => []
  | .fn p r => p.binders ++ r.binders
  | .record fs _ => bindersFields fs
  | .tuple ts | .union ts | .inter ts | .named _ ts => bindersAll ts
  | .mu v t => v.id :: t.binders

def bindersAll : List Ty → List Int
  | [] => []
  | t :: ts => t.binders ++ bindersAll ts

def bindersFields : List (String × Ty) → List Int
  | [] => []
  | (_, t) :: fs => t.binders ++ bindersFields fs

end

end Ty

/-- The spaces that make up all values of a type, unless there are too many. -/
def Ty.spaces? (t : Ty) : Option (List Space) := Space.enumerateWithin t.binders.length [] t

mutual

/-- Whether a pattern matches every value of a space. -/
def Pattern.covers : Pattern → Space → Bool
  | .var .., _ | .wildcard _, _ => true
  | .literal _ kind value, .literal kind' value' => kind == kind' && value == value'
  | .tuple _ ps, .tuple ss => Pattern.coversAll ps ss
  | .record _ fs, .record ss => Pattern.coversFields fs ss
  | _, _ => false

/-- Whether patterns match every value of spaces, place by place. -/
def Pattern.coversAll : List Pattern → List Space → Bool
  | [], [] => true
  | p :: ps, s :: ss => p.covers s && Pattern.coversAll ps ss
  | _, _ => false

/-- Whether field patterns match every value of a record's fields. -/
def Pattern.coversFields : List (String × Pattern) → List (String × Space) → Bool
  | [], _ => true
  | (name, p) :: fs, ss => p.covers (Space.fieldOf ss name) && Pattern.coversFields fs ss

end

/-- Whether an earlier pattern matches every value that a later one matches. -/
def Pattern.subsumes (earlier later : Pattern) : Bool := earlier.covers (.ofPattern later)

end RowTypes
