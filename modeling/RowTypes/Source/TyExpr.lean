import RowTypes.Source.Span
import RowTypes.Text.Layout
import RowTypes.Text.Quoted

/-!
# Type annotations

Types as a program writes them.  A name is a primitive or a named type, possibly with arguments;
a reference is a type variable; a record may be left open with two dots.
-/

namespace RowTypes

inductive TyExpr where
  /-- An annotation that is not there. -/
  | missing
  /-- A primitive or a named type. -/
  | name (span : Span) (name : String) (args : List TyExpr)
  /-- A type variable. -/
  | ref (span : Span) (name : String)
  | fn (span : Span) (param result : TyExpr)
  /-- Records, with more fields allowed when open. -/
  | record (span : Span) (fields : List (String × TyExpr)) (isOpen : Bool)
  | tuple (span : Span) (elems : List TyExpr)
  /-- Any of the alternatives. -/
  | union (span : Span) (alts : List TyExpr)
  /-- All of the members. -/
  | inter (span : Span) (members : List TyExpr)
  | lit (span : Span) (value : String)
  deriving Repr, Inhabited

namespace TyExpr

def span : TyExpr → Span
  | .missing => .unknown
  | .name s .. | .ref s .. | .fn s .. | .record s .. | .tuple s .. | .union s .. | .inter s ..
  | .lit s .. => s

def relocate (s : Span) : TyExpr → TyExpr
  | .missing => .missing
  | .name _ n args => .name s n args
  | .ref _ n => .ref s n
  | .fn _ p r => .fn s p r
  | .record _ fs o => .record s fs o
  | .tuple _ ts => .tuple s ts
  | .union _ ts => .union s ts
  | .inter _ ts => .inter s ts
  | .lit _ v => .lit s v

/-- Where an annotation stands inside another, from the freest place to the tightest. -/
inductive Place where
  | top
  | param
  | member
  deriving Repr, DecidableEq

/-- Whether an annotation has to be put in parentheses at a place. -/
def needsParens : Place → TyExpr → Bool
  | .top, _ => false
  | _, .fn .. => true
  | .member, .union .. | .member, .inter .. => true
  | _, _ => false

mutual

/-- The annotation as a program writes it. -/
def render : TyExpr → String
  | .missing => "nil"
  | .name _ n [] => n
  | .name _ n args => n ++ "[" ++ Text.commas (renderAll .top args) ++ "]"
  | .ref _ n => n
  | .fn _ p r => Text.parens (needsParens .param p) p.render ++ " -> " ++ r.render
  | .record _ fs o =>
    Text.braces (Text.commas (renderFields fs ++ if o then [".."] else []))
  | .tuple _ ts => "(" ++ Text.commas (renderAll .top ts) ++ ")"
  | .union _ ts => " | ".intercalate (renderAll .member ts)
  | .inter _ ts => " & ".intercalate (renderAll .member ts)
  | .lit _ v => Text.quoted v

def renderAll (place : Place) : List TyExpr → List String
  | [] => []
  | t :: ts => Text.parens (needsParens place t) t.render :: renderAll place ts

def renderFields : List (String × TyExpr) → List String
  | [] => []
  | (label, t) :: fs => (label ++ ": " ++ t.render) :: renderFields fs

end

mutual

/-- The digest of an annotation, whatever its place. -/
def digest : TyExpr → Digest
  | .missing => 0
  | .name _ n args => .node "TypeName" [.ofText n, .node "list" (digestAll args)]
  | .ref _ n => .node "TypeVarRef" [.ofText n]
  | .fn _ p r => .node "FuncType" [p.digest, r.digest]
  | .record _ fs o => .node "RecordType" (digestFields fs ++ if o then [1] else [])
  | .tuple _ ts => .node "TupleType" [.node "list" (digestAll ts)]
  | .union _ ts => .node "UnionType" [.node "list" (digestAll ts)]
  | .inter _ ts => .node "IntersectionType" [.node "list" (digestAll ts)]
  | .lit _ v => .node "LiteralType" [.ofText v]

def digestAll : List TyExpr → List Digest
  | [] => []
  | t :: ts => t.digest :: digestAll ts

/-- The digests of names and annotations of fields, in turn. -/
def digestFields : List (String × TyExpr) → List Digest
  | [] => []
  | (label, t) :: fs => .ofText label :: t.digest :: digestFields fs

end

/-- The digest of an annotation that may be left out. -/
def digestOpt (a : Option TyExpr) : Digest := (a.map digest).getD 0

end TyExpr

end RowTypes
