import RowTypes.Source.Literal
import RowTypes.Source.Span
import RowTypes.Text.Layout

/-!
# Patterns

The left-hand side of a match case.  A pattern that an unfinished program leaves out is
`missing`; it matches nothing that could be said, and checking refuses it.
-/

namespace RowTypes

inductive Pattern where
  /-- A pattern that is not there. -/
  | missing
  | literal (span : Span) (kind : LiteralKind) (value : String)
  /-- Anything, under a name. -/
  | var (span : Span) (name : String)
  | wildcard (span : Span)
  /-- Tuples of this length, element by element. -/
  | tuple (span : Span) (elems : List Pattern)
  /-- Records that have at least these fields. -/
  | record (span : Span) (fields : List (String × Pattern))
  deriving Repr, Inhabited

namespace Pattern

def span : Pattern → Span
  | .missing => .unknown
  | .literal s _ _ | .var s _ | .wildcard s | .tuple s _ | .record s _ => s

def relocate (s : Span) : Pattern → Pattern
  | .missing => .missing
  | .literal _ kind value => .literal s kind value
  | .var _ name => .var s name
  | .wildcard _ => .wildcard s
  | .tuple _ ps => .tuple s ps
  | .record _ fs => .record s fs

/-- A bare name or a wildcard. -/
def isIrrefutable : Pattern → Bool
  | .var .. | .wildcard _ => true
  | _ => false

mutual

/-- The pattern as a program writes it. -/
def render : Pattern → String
  | .missing => "nil"
  | .literal _ kind value => kind.render value
  | .var _ name => name
  | .wildcard _ => "_"
  | .tuple _ ps => "(" ++ Text.commas (renderAll ps) ++ ")"
  | .record _ fs => Text.braces (Text.commas (renderFields fs))

def renderAll : List Pattern → List String
  | [] => []
  | p :: ps => p.render :: renderAll ps

def renderFields : List (String × Pattern) → List String
  | [] => []
  | (name, p) :: fs => (name ++ ": " ++ p.render) :: renderFields fs

end

mutual

/-- The names that a pattern binds, in order of appearance and with repetitions. -/
def vars : Pattern → List String
  | .var _ name => [name]
  | .tuple _ ps => varsAll ps
  | .record _ fs => varsFields fs
  | _ => []

def varsAll : List Pattern → List String
  | [] => []
  | p :: ps => p.vars ++ varsAll ps

def varsFields : List (String × Pattern) → List String
  | [] => []
  | (_, p) :: fs => p.vars ++ varsFields fs

end

mutual

/-- The digest of a pattern, whatever its place. -/
def digest : Pattern → Digest
  | .missing => 0
  | .literal _ kind value => .node "LiteralPattern" [.ofInt kind.code, .ofText value]
  | .var _ name => .node "VarPattern" [.ofText name]
  | .wildcard _ => .node "WildcardPattern" []
  | .tuple _ ps => .node "TuplePattern" [.node "list" (digestAll ps)]
  | .record _ fs => .node "RecordPattern" (digestFields fs)

def digestAll : List Pattern → List Digest
  | [] => []
  | p :: ps => p.digest :: digestAll ps

/-- The digests of names and patterns of fields, in turn. -/
def digestFields : List (String × Pattern) → List Digest
  | [] => []
  | (name, p) :: fs => .ofText name :: p.digest :: digestFields fs

end

/-- The pattern of a field: the first one under its name. -/
def field? (fields : List (String × Pattern)) (name : String) : Option Pattern :=
  fields.lookup name

end Pattern

end RowTypes
