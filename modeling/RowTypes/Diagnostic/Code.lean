/-!
# Numbered kinds of diagnostics

Each kind of diagnostic has a number and a name, belongs to a category and has a severity.
Tools may ask about any number, so each table also answers for numbers that no kind has.
-/

namespace RowTypes

/-- What part of checking a diagnostic comes from. -/
inductive Category where
  | syntactic
  | typing
  | semantic
  | internal
  deriving Repr, DecidableEq, Inhabited

namespace Category

/-- The category of a number; numbers beyond the last one count as internal. -/
def ofNumber : Int → Category
  | 0 => .syntactic
  | 1 => .typing
  | 2 => .semantic
  | _ => .internal

def name : Category → String
  | .syntactic => "syntax"
  | .typing => "type"
  | .semantic => "semantic"
  | .internal => "internal"

end Category

/-- How bad a diagnostic is. -/
inductive Severity where
  | error
  | warning
  | info
  deriving Repr, DecidableEq, Inhabited

namespace Severity

/-- The severity of a number; numbers beyond the last one count as errors. -/
def ofNumber : Int → Severity
  | 1 => .warning
  | 2 => .info
  | _ => .error

def name : Severity → String
  | .error => "error"
  | .warning => "warning"
  | .info => "info"

end Severity

/-- The kinds of diagnostics, in the order of their numbers. -/
inductive Code where
  | none
  | syntaxError
  | typeMismatch
  | undefinedVariable
  | undefinedTypeVariable
  | undefinedConstructor
  | nonExhaustive
  | unreachablePattern
  | contradictoryPattern
  | unsupportedPattern
  | occursCheck
  | invalidTyExpr
  | subtypeFailure
  | unionFailure
  | intersectionFailure
  | mergeConflict
  | recordFieldMismatch
  | typeClassFailure
  | duplicateDefinition
  | circularTypeDefinition
  | invalidRecursion
  | internal
  | unimplemented
  | incompleteMatch
  deriving Repr, DecidableEq, Inhabited

namespace Code

/-- All kinds, in the order of their numbers. -/
def all : List Code :=
  [.none, .syntaxError, .typeMismatch, .undefinedVariable, .undefinedTypeVariable,
    .undefinedConstructor, .nonExhaustive, .unreachablePattern, .contradictoryPattern,
    .unsupportedPattern, .occursCheck, .invalidTyExpr, .subtypeFailure, .unionFailure,
    .intersectionFailure, .mergeConflict, .recordFieldMismatch, .typeClassFailure,
    .duplicateDefinition, .circularTypeDefinition, .invalidRecursion, .internal, .unimplemented,
    .incompleteMatch]

def number (c : Code) : Nat := c.ctorIdx

/-- The kind of a number, if there is one. -/
def ofNumber? (n : Int) : Option Code := if n < 0 then Option.none else all[n.toNat]?

theorem ofNumber?_number (c : Code) : ofNumber? c.number = some c := by
  cases c <;> rfl

def name : Code → String
  | .none => "None"
  | .syntaxError => "Syntax"
  | .typeMismatch => "TypeMismatch"
  | .undefinedVariable => "UndefinedVariable"
  | .undefinedTypeVariable => "UndefinedTypeVariable"
  | .undefinedConstructor => "UndefinedConstructor"
  | .nonExhaustive => "NonExhaustive"
  | .unreachablePattern => "UnreachablePattern"
  | .contradictoryPattern => "ContradictoryPattern"
  | .unsupportedPattern => "UnsupportedPattern"
  | .occursCheck => "OccursCheck"
  | .invalidTyExpr => "InvalidAnnotation"
  | .subtypeFailure => "SubtypeFailure"
  | .unionFailure => "UnionFailure"
  | .intersectionFailure => "IntersectionFailure"
  | .mergeConflict => "MergeConflict"
  | .recordFieldMismatch => "RecordFieldMismatch"
  | .typeClassFailure => "TypeClassFailure"
  | .duplicateDefinition => "DuplicateDefinition"
  | .circularTypeDefinition => "CircularTypeDefinition"
  | .invalidRecursion => "InvalidRecursion"
  | .internal => "Internal"
  | .unimplemented => "Unimplemented"
  | .incompleteMatch => "IncompleteMatch"

def category : Code → Category
  | .syntaxError => .syntactic
  | .duplicateDefinition | .circularTypeDefinition | .invalidRecursion => .semantic
  | .none | .internal | .unimplemented => .internal
  | _ => .typing

def severity : Code → Severity
  | .unreachablePattern | .contradictoryPattern | .incompleteMatch => .warning
  | _ => .error

/-- The name for a number, whether or not a kind has it. -/
def nameOfNumber (n : Int) : String :=
  match ofNumber? n with
  | some c => c.name
  | Option.none => "ErrCode(" ++ toString n ++ ")"

def categoryOfNumber (n : Int) : Category :=
  match ofNumber? n with
  | some c => c.category
  | Option.none => .typing

def severityOfNumber (n : Int) : Severity :=
  match ofNumber? n with
  | some c => c.severity
  | Option.none => .error

end Code

end RowTypes
