import RowTypes.Diagnostic.Basic
import RowTypes.Text.Blank
import RowTypes.Text.Matcher

/-!
# Recognising messages

Tools that only pass texts on lose the cause of a diagnostic.  The shapes of messages are listed
here, with a few older wordings, and a text is read back as the cause of the first shape that it
has.  A text of no known shape is an internal error that carries the text.
-/

namespace RowTypes

/-- A message shape: its wordings, and the cause that the captured parts stand for. -/
structure MessageShape where
  wordings : List (List Text.Piece)
  cause : List String → Option Cause

namespace MessageShape

open Text (Piece)

/-- The largest case number that is told apart. -/
def maxNumber : Nat := 0x7fffffffffffffff

/-- The number that digits stand for; numbers that are too large all count as the largest. -/
def number (s : String) : Int :=
  min (s.toList.foldl (fun n c => n * 10 + (c.toNat - 0x30)) 0) maxNumber

/-- Splits what is left of a text at a separator; `part` is the part that has begun, backwards.
Each step takes at least one character, so their number bounds the steps. -/
def splitFrom (separator : List Char) : Nat → List Char → List Char → List (List Char)
  | 0, part, _ => [part.reverse]
  | _ + 1, part, [] => [part.reverse]
  | n + 1, part, c :: cs =>
    match Text.dropStart (· == ·) separator (c :: cs) with
    | some behind => part.reverse :: splitFrom separator n [] behind
    | none => splitFrom separator n (c :: part) cs

/-- The parts of a text between the places where a separator stands. -/
def splitOn (separator : List Char) (cs : List Char) : List (List Char) :=
  splitFrom separator cs.length [] cs

/-- A list of texts as messages write it: set off by commas, each possibly in single quotes. -/
def items (s : String) : List String :=
  (splitOn [','] s.toList).filterMap fun item =>
    match Text.trimBlank item with
    | [] => none
    | item => some (String.ofList (Text.trimBy (· == '\'') item))

/-- The names on a cycle as messages write it. -/
def cycle (s : String) : List String :=
  if s = "" then [] else (splitOn " -> ".toList s.toList).map String.ofList

/-- A word after an undefined thing, with or without a colon and quotes. -/
def looseName (start : String) : List Piece :=
  [.folded start, .optional ':', .text " ", .optional '\'', .word, .optional '\'']

/-- Two types that do not go together, with or without quotes. -/
def looseUnify : List Piece :=
  [.oneOf ["cannot unify ", "could not unify "], .optional '\'', .shortest, .optional '\'',
    .oneOf [" with ", " and "], .optional '\'', .shortest, .optional '\'']

/-- All shapes, in the order in which they are tried. -/
def all : List MessageShape := [
  { wordings := [[.text "syntax error: ", .longest]]
    cause := fun
      | [m] => some (.syntaxError m)
      | _ => none },
  { wordings := [[.text "type mismatch: expected '", .shortest, .text "', found '", .shortest,
      .text "'", .tail]]
    cause := fun
      | [expected, found, reason] => some (.typeMismatch expected found reason)
      | _ => none },
  { wordings := [looseUnify]
    cause := fun
      | [expected, found] => some (.typeMismatch expected found "")
      | _ => none },
  { wordings := [[.text "variable '", .word, .text "' is not defined"],
      looseName "undefined variable", looseName "undefined name"]
    cause := fun
      | [name] => some (.undefinedVariable name)
      | _ => none },
  { wordings := [[.text "type variable '", .word, .text "' is not defined"],
      looseName "undefined type variable"]
    cause := fun
      | [name] => some (.undefinedTypeVariable name)
      | _ => none },
  { wordings := [[.text "type '", .word, .text "' is not defined"]]
    cause := fun
      | [name] => some (.undefinedConstructor name)
      | _ => none },
  { wordings := [[.folded "non-exhaustive", .beforeColon, .text ": ", .longest]]
    cause := fun
      | [missing] => some (.nonExhaustive (items missing))
      | _ => none },
  { wordings := [[.text "unreachable pattern '", .longest, .text "' in case ", .digits]]
    cause := fun
      | [pattern, case] => some (.unreachablePattern pattern (number case))
      | _ => none },
  { wordings := [[.text "overlapping pattern '", .longest, .text "': ", .longest]]
    cause := fun
      | [pattern, reason] => some (.contradictoryPattern pattern reason)
      | _ => none },
  { wordings := [[.text "occurs check: '", .shortest, .text "' occurs in '", .longest, .text "'"]]
    cause := fun
      | [var, type] => some (.occursCheck var type)
      | _ => none },
  { wordings := [[.text "'", .shortest, .text "' is not a subtype of '", .shortest, .text "'",
      .tail]]
    cause := fun
      | [sub, super, reason] => some (.subtypeFailure sub super reason)
      | _ => none },
  { wordings := [[.text "merge conflict on field '", .shortest, .text "': '", .shortest,
      .text "' and '", .shortest, .text "' are incompatible"]]
    cause := fun
      | [field, first, second] => some (.mergeConflict field first second)
      | _ => none },
  { wordings := [[.text "unknown type class '", .word, .text "'"]]
    cause := fun
      | [cls] => some (.typeClassFailure "" cls true)
      | _ => none },
  { wordings := [[.text "'", .shortest, .text "' is not an instance of '", .word, .text "'"]]
    cause := fun
      | [type, cls] => some (.typeClassFailure type cls false)
      | _ => none },
  { wordings := [[.text "duplicate definition of '", .word, .text "'"]]
    cause := fun
      | [name] => some (.duplicateDefinition name)
      | _ => none },
  { wordings := [[.text "circular type definition '", .word, .text "'", .tail],
      [.text "circular type alias '", .word, .text "'", .tail]]
    cause := fun
      | [name, path] => some (.circularTypeDefinition name (cycle path))
      | _ => none },
  { wordings := [[.text "not implemented: ", .longest]]
    cause := fun
      | [feature] => some (.unimplemented feature)
      | _ => none }]

/-- The cause that a text stands for, if it has the shape. -/
def recognize? (shape : MessageShape) (cs : List Char) : Option Cause :=
  (Text.captureFirst shape.wordings cs).bind shape.cause

end MessageShape

def Cause.ofMessage (message : String) : Cause :=
  let cs := Text.trimBlank message.toList
  (MessageShape.all.findSome? (·.recognize? cs)).getD (.internal (String.ofList cs) none)

def Diagnostic.ofMessage (message : String) (span : Span) : Diagnostic :=
  { cause := .ofMessage message, span }

end RowTypes
