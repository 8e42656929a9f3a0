import RowTypes.Digest

/-!
# Places in a source text

A position is a line and a column, both counted from one; a line that is not positive means that
the place is not known.  A span runs from a position to the one just behind its last character.
-/

namespace RowTypes

/-- A line and a column. -/
structure Position where
  line : Int := 0
  column : Int := 0
  deriving Repr, DecidableEq, Inhabited

namespace Position

def isKnown (p : Position) : Bool := 0 < p.line

/-- `line:column`, or a dash for a position that is not known. -/
def render (p : Position) : String :=
  if p.isKnown then toString p.line ++ ":" ++ toString p.column else "-"

end Position

/-- A stretch of a source text. -/
structure Span where
  start : Position := {}
  stop : Position := {}
  deriving Repr, DecidableEq, Inhabited

namespace Span

/-- The span of a node that nobody placed. -/
def unknown : Span := {}

/-- From the start of one span to the end of another. -/
def between (a b : Span) : Span := ⟨a.start, b.stop⟩

/-- Both ends, or one where they agree. -/
def render (s : Span) : String :=
  if s.start = s.stop then s.start.render else s.start.render ++ "-" ++ s.stop.render

/-- The digest of the four numbers. -/
def digest (s : Span) : Digest :=
  .ofWords [.ofInt s.start.line, .ofInt s.start.column, .ofInt s.stop.line, .ofInt s.stop.column]

end Span

end RowTypes
