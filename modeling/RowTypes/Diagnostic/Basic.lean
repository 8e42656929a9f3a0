import RowTypes.Diagnostic.Code
import RowTypes.Source.Span
import RowTypes.Text.Layout

/-!
# Diagnostics

A diagnostic is a cause with the texts that explain it, and the place it is about.  Its message
and the fields that tools read are both functions of the cause.
-/

namespace RowTypes

/-- Why checking complains. Types and patterns are given by their texts. -/
inductive Cause where
  | syntaxError (message : String)
  | typeMismatch (expected found reason : String)
  | undefinedVariable (name : String)
  | undefinedTypeVariable (name : String)
  | undefinedConstructor (name : String)
  | nonExhaustive (missing : List String)
  | incompleteMatch (missing : List String)
  | unreachablePattern (pattern : String) (case : Int)
  | contradictoryPattern (pattern reason : String)
  | unsupportedPattern (pattern : String)
  | occursCheck (var type : String)
  | invalidTyExpr (typed reason : String)
  | subtypeFailure (sub super reason : String)
  | unionFailure (type : String) (alternatives : List String)
  | intersectionFailure (type : String) (members : List String)
  | mergeConflict (field first second : String)
  | recordFieldMismatch (expected found : String) (missing extra : List String)
  | typeClassFailure (type cls : String) (unknown : Bool)
  | duplicateDefinition (name : String)
  | circularTypeDefinition (name : String) (cycle : List String)
  | invalidRecursion (name reason : String)
  /-- The checker itself went wrong, possibly because of something below it. -/
  | internal (message : String) (below : Option String)
  | unimplemented (feature : String)
  deriving Repr, DecidableEq, Inhabited

inductive FieldValue where
  | text (s : String)
  | texts (ss : List String)
  | number (n : Int)
  | flag (b : Bool)
  deriving Repr, DecidableEq, Inhabited

namespace Cause

def code : Cause → Code
  | .syntaxError .. => .syntaxError
  | .typeMismatch .. => .typeMismatch
  | .undefinedVariable .. => .undefinedVariable
  | .undefinedTypeVariable .. => .undefinedTypeVariable
  | .undefinedConstructor .. => .undefinedConstructor
  | .nonExhaustive .. => .nonExhaustive
  | .incompleteMatch .. => .incompleteMatch
  | .unreachablePattern .. => .unreachablePattern
  | .contradictoryPattern .. => .contradictoryPattern
  | .unsupportedPattern .. => .unsupportedPattern
  | .occursCheck .. => .occursCheck
  | .invalidTyExpr .. => .invalidTyExpr
  | .subtypeFailure .. => .subtypeFailure
  | .unionFailure .. => .unionFailure
  | .intersectionFailure .. => .intersectionFailure
  | .mergeConflict .. => .mergeConflict
  | .recordFieldMismatch .. => .recordFieldMismatch
  | .typeClassFailure .. => .typeClassFailure
  | .duplicateDefinition .. => .duplicateDefinition
  | .circularTypeDefinition .. => .circularTypeDefinition
  | .invalidRecursion .. => .invalidRecursion
  | .internal .. => .internal
  | .unimplemented .. => .unimplemented

def tick (s : String) : String := "'" ++ s ++ "'"

/-- A reason behind a message, when there is one. -/
def because (reason : String) : String := if reason = "" then "" else ": " ++ reason

/-- The text of an internal error: what was being done, then what went wrong below. -/
def internalText (message : String) (below : Option String) : String :=
  match below with
  | none => message
  | some cause => message ++ ": " ++ cause

def message : Cause → String
  | .syntaxError m => "syntax error: " ++ m
  | .typeMismatch expected found reason =>
    "type mismatch: expected " ++ tick expected ++ ", found " ++ tick found ++ because reason
  | .undefinedVariable name => "variable " ++ tick name ++ " is not defined"
  | .undefinedTypeVariable name => "type variable " ++ tick name ++ " is not defined"
  | .undefinedConstructor name => "type " ++ tick name ++ " is not defined"
  | .nonExhaustive missing =>
    "non-exhaustive match, missing patterns: " ++ Text.commas missing
  | .incompleteMatch missing => "match may not cover: " ++ Text.commas missing
  | .unreachablePattern pattern case =>
    "unreachable pattern " ++ tick pattern ++ " in case " ++ toString case
  | .contradictoryPattern pattern reason =>
    "overlapping pattern " ++ tick pattern ++ ": " ++ reason
  | .unsupportedPattern pattern => "unsupported pattern " ++ tick pattern
  | .occursCheck var type => "occurs check: " ++ tick var ++ " occurs in " ++ tick type
  | .invalidTyExpr typed reason =>
    "invalid annotation " ++ tick typed ++ ": " ++ reason
  | .subtypeFailure sub super reason =>
    tick sub ++ " is not a subtype of " ++ tick super ++ because reason
  | .unionFailure type alternatives =>
    tick type ++ " matches none of the union alternatives " ++ Text.commas (alternatives.map tick)
  | .intersectionFailure type members =>
    tick type ++ " does not satisfy the intersection members " ++ Text.commas (members.map tick)
  | .mergeConflict field first second =>
    "merge conflict on field " ++ tick field ++ ": " ++ tick first ++ " and " ++ tick second
      ++ " are incompatible"
  | .recordFieldMismatch expected found missing extra =>
    "record field mismatch between " ++ tick expected ++ " and " ++ tick found
      ++ (if missing.isEmpty then "" else "; missing fields: " ++ Text.commas missing)
      ++ (if extra.isEmpty then "" else "; unexpected fields: " ++ Text.commas extra)
  | .typeClassFailure _ cls true => "unknown type class " ++ tick cls
  | .typeClassFailure type cls false => tick type ++ " is not an instance of " ++ tick cls
  | .duplicateDefinition name => "duplicate definition of " ++ tick name
  | .circularTypeDefinition name cycle =>
    "circular type definition " ++ tick name ++ ": " ++ " -> ".intercalate cycle
  | .invalidRecursion name reason => "invalid recursion in " ++ tick name ++ ": " ++ reason
  | .internal m below => "internal error: " ++ internalText m below
  | .unimplemented feature => "not implemented: " ++ feature

/-- The fields that tools read. -/
def fields : Cause → List (String × FieldValue)
  | .syntaxError m => [("message", .text m)]
  | .typeMismatch expected found reason =>
    [("expected", .text expected), ("found", .text found), ("reason", .text reason)]
  | .undefinedVariable name | .undefinedTypeVariable name | .undefinedConstructor name
  | .duplicateDefinition name => [("name", .text name)]
  | .nonExhaustive missing | .incompleteMatch missing => [("missing", .texts missing)]
  | .unreachablePattern pattern case => [("pattern", .text pattern), ("case", .number case)]
  | .contradictoryPattern pattern reason => [("pattern", .text pattern), ("reason", .text reason)]
  | .unsupportedPattern pattern => [("pattern", .text pattern)]
  | .occursCheck var type => [("var", .text var), ("type", .text type)]
  | .invalidTyExpr typed reason =>
    [("annotation", .text typed), ("reason", .text reason)]
  | .subtypeFailure sub super reason =>
    [("sub", .text sub), ("super", .text super), ("reason", .text reason)]
  | .unionFailure type alternatives =>
    [("type", .text type), ("alternatives", .texts alternatives)]
  | .intersectionFailure type members => [("type", .text type), ("members", .texts members)]
  | .mergeConflict field first second =>
    [("field", .text field), ("first", .text first), ("second", .text second)]
  | .recordFieldMismatch expected found missing extra =>
    [("expected", .text expected), ("found", .text found), ("missing", .texts missing),
      ("extra", .texts extra)]
  | .typeClassFailure type cls unknown =>
    [("type", .text type), ("class", .text cls), ("unknown", .flag unknown)]
  | .circularTypeDefinition name cycle => [("name", .text name), ("cycle", .texts cycle)]
  | .invalidRecursion name reason => [("name", .text name), ("reason", .text reason)]
  | .internal m below =>
    [("cause", .text (below.getD m)), ("message", .text (internalText m below))]
  | .unimplemented feature => [("feature", .text feature)]

end Cause

/-- A cause and the place it is about. -/
structure Diagnostic where
  cause : Cause
  span : Span := {}
  deriving Repr, DecidableEq, Inhabited

namespace Diagnostic

def code (d : Diagnostic) : Code := d.cause.code

def message (d : Diagnostic) : String := d.cause.message

def fields (d : Diagnostic) : List (String × FieldValue) := d.cause.fields

def severity (d : Diagnostic) : Severity := d.code.severity

/-- A number in at least three digits. -/
def threeDigits (n : Nat) : String :=
  let digits := Nat.toDigits 10 n
  String.ofList (List.replicate (3 - digits.length) '0' ++ digits)

/-- The message behind the number of its kind. -/
def formatted (d : Diagnostic) : String :=
  "(E" ++ threeDigits d.code.number ++ ") " ++ d.message

def isInternal (d : Diagnostic) : Bool := d.code == .internal

end Diagnostic

end RowTypes
