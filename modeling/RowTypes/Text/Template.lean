/-!
# Templates

A template describes a whole text as a sequence of pieces, some of which capture the part they
match.  Where a piece can match in more than one way, the ways are tried in a fixed order, and
the first one under which the rest of the template matches the rest of the text is taken: a lazy
piece tries the shortest part first, every other piece the longest.

`capture` says this by search, piece by piece, each given the search for what follows it.
-/

namespace RowTypes.Text

/-- A piece of a template. -/
inductive Piece where
  /-- This text. -/
  | text (s : String)
  /-- One of these texts, the earlier ones first. -/
  | oneOf (ss : List String)
  /-- This text, in any mixture of upper and lower case. -/
  | folded (s : String)
  /-- This character, or nothing. -/
  | optional (c : Char)
  /-- A captured part of one line, as short as possible. -/
  | shortest
  /-- A captured part of one line, as long as possible. -/
  | longest
  /-- A captured word of letters, digits and underscores. -/
  | word
  /-- A captured run of digits. -/
  | digits
  /-- Anything up to a colon. -/
  | beforeColon
  /-- A colon, a blank and a captured rest of the line, or nothing, captured as the empty text. -/
  | tail
  deriving Repr, DecidableEq

/-- The parts of a text that a template captures, in the order of its pieces. -/
abbrev Parts := List (List Char)

/-- The ways to cut a text in two, the shortest first part first. -/
def cuts : List Char → List (List Char × List Char)
  | [] => [([], [])]
  | c :: cs => ([], c :: cs) :: (cuts cs).map fun cut => (c :: cut.1, cut.2)

/-- The ways to cut a text in two so that the first part holds only characters of a class. -/
def cutsWithin (p : Char → Bool) (cs : List Char) : List (List Char × List Char) :=
  (cuts cs).filter fun cut => cut.1.all p

/-- Letters, digits and the underscore. -/
def isWordChar (c : Char) : Bool := c.isAlphanum || c == '_'

/-- Whether a character is a lower case letter or another form of it. The long s is a form of
the letter s, and the sign of the kelvin one of the letter k. -/
def foldsTo (c lower : Char) : Bool :=
  c.toLower == lower || (lower == 's' && c == 'ſ') || (lower == 'k' && c == '\u212a')

/-- What follows a given beginning. -/
def dropStart (same : Char → Char → Bool) : List Char → List Char → Option (List Char)
  | [], cs => some cs
  | _ :: _, [] => none
  | s :: ss, c :: cs => if same c s then dropStart same ss cs else none

/-- A text that does not run over the end of a line. -/
def inLine (c : Char) : Bool := c != '\n'

/-- Captures a run of characters of a class in front of what `rest` matches, the shortest run
first. -/
def shortestRun (p : Char → Bool) (rest : List Char → Option Parts) (cs : List Char) :
    Option Parts :=
  (cutsWithin p cs).findSome? fun cut => (rest cut.2).map (cut.1 :: ·)

/-- Captures a run of characters of a class in front of what `rest` matches, the longest run
first. -/
def longestRun (p : Char → Bool) (rest : List Char → Option Parts) (cs : List Char) :
    Option Parts :=
  (cutsWithin p cs).reverse.findSome? fun cut => (rest cut.2).map (cut.1 :: ·)

/-- As `longestRun`, with at least one character in the run. -/
def nonemptyRun (p : Char → Bool) (rest : List Char → Option Parts) (cs : List Char) :
    Option Parts :=
  (cutsWithin p cs).reverse.findSome? fun cut =>
    if cut.1.isEmpty then none else (rest cut.2).map (cut.1 :: ·)

/-- Matches a piece at the start of a text where `rest` matches what follows it, and puts what
the piece captures in front. -/
def Piece.capture (rest : List Char → Option Parts) (cs : List Char) : Piece → Option Parts
  | .text s => (dropStart (· == ·) s.toList cs).bind rest
  | .oneOf ss => ss.findSome? fun s => (dropStart (· == ·) s.toList cs).bind rest
  | .folded s => (dropStart foldsTo s.toList cs).bind rest
  | .optional o => ((dropStart (· == ·) [o] cs).bind rest).or (rest cs)
  | .shortest => shortestRun inLine rest cs
  | .longest => longestRun inLine rest cs
  | .word => nonemptyRun isWordChar rest cs
  | .digits => nonemptyRun Char.isDigit rest cs
  | .beforeColon => (longestRun (· != ':') rest cs).map List.tail
  | .tail =>
    ((dropStart (· == ·) [':', ' '] cs).bind (longestRun inLine rest)).or
      ((rest cs).map ([] :: ·))

/-- Matches a whole text against a template and gives the captured parts. -/
def capture : List Piece → List Char → Option Parts
  | [], cs => if cs.isEmpty then some [] else none
  | piece :: pieces, cs => piece.capture (capture pieces) cs

end RowTypes.Text
