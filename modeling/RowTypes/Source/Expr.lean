import RowTypes.Source.TyExpr
import RowTypes.Source.Pattern

/-!
# Expressions

The expressions of the language, each with its place.  An expression that an unfinished program
leaves out is `missing`.
-/

namespace RowTypes

/-- A parameter of a function, possibly annotated. -/
structure Param where
  span : Span := {}
  name : String
  typed : Option TyExpr := none
  deriving Repr, Inhabited

/-- A field of a record expression. -/
structure Labelled (α : Type) where
  span : Span := {}
  name : String
  value : α
  deriving Repr

/-- A case of a match. -/
structure Arm (α : Type) where
  span : Span := {}
  pattern : Pattern
  body : α
  deriving Repr

inductive Expr where
  /-- An expression that is not there. -/
  | missing
  | literal (span : Span) (kind : LiteralKind) (value : String)
  | var (span : Span) (name : String)
  /-- A call; the arguments are passed one by one, and a call without arguments passes unit. -/
  | call (span : Span) (fn : Expr) (args : List Expr)
  /-- An operator between two operands. -/
  | binary (span : Span) (op : String) (left right : Expr)
  /-- An operator before its operand. -/
  | unary (span : Span) (op : String) (operand : Expr)
  | cond (span : Span) (test thenBranch elseBranch : Expr)
  | lambda (span : Span) (params : List Param) (body : Expr)
  /-- A local definition, which is in scope in its own value if it is recursive. -/
  | letIn (span : Span) (name : String) (isRec : Bool) (typed : Option TyExpr)
      (value body : Expr)
  /-- A record: spread records, and fields laid over them. -/
  | record (span : Span) (fields : List (Labelled Expr)) (spreads : List Expr)
  | select (span : Span) (record : Expr) (field : String)
  | tuple (span : Span) (elems : List Expr)
  /-- The first case whose pattern matches. -/
  | caseOf (span : Span) (value : Expr) (arms : List (Arm Expr))
  | ascribe (span : Span) (expr : Expr) (typed : TyExpr)
  deriving Repr, Inhabited

namespace Expr

def span : Expr → Span
  | .missing => .unknown
  | .literal s .. | .var s .. | .call s .. | .binary s .. | .unary s .. | .cond s .. | .lambda s ..
  | .letIn s .. | .record s .. | .select s .. | .tuple s .. | .caseOf s .. | .ascribe s .. => s

def relocate (s : Span) : Expr → Expr
  | .missing => .missing
  | .literal _ kind value => .literal s kind value
  | .var _ name => .var s name
  | .call _ f args => .call s f args
  | .binary _ op l r => .binary s op l r
  | .unary _ op e => .unary s op e
  | .cond _ c t e => .cond s c t e
  | .lambda _ ps b => .lambda s ps b
  | .letIn _ n r a v b => .letIn s n r a v b
  | .record _ fs ss => .record s fs ss
  | .select _ e f => .select s e f
  | .tuple _ es => .tuple s es
  | .caseOf _ v arms => .caseOf s v arms
  | .ascribe _ e a => .ascribe s e a

/-- A short name for the kind of an expression, with what tells it apart. -/
def label : Expr → String
  | .missing => "nil"
  | .literal _ kind value => kind.render value
  | .var _ name => name
  | .call .. => "Call"
  | .binary _ op .. => "Binary(" ++ op ++ ")"
  | .unary _ op _ => "Unary(" ++ op ++ ")"
  | .cond .. => "If"
  | .lambda .. => "Func"
  | .letIn _ name .. => "Let(" ++ name ++ ")"
  | .record .. => "Record"
  | .select _ _ field => "Select(" ++ field ++ ")"
  | .tuple .. => "Tuple"
  | .caseOf .. => "Match"
  | .ascribe .. => "Ascribe"

/-- What an expression is, in words. -/
def describe : Expr → String
  | .missing => "nil"
  | .literal _ kind _ => kind.name ++ " literal"
  | .var .. => "variable"
  | .call .. => "function call"
  | .binary _ op .. => "operator " ++ op
  | .unary _ op _ => "operator " ++ op
  | .cond .. => "conditional"
  | .lambda .. => "function"
  | .letIn .. => "let binding"
  | .record .. => "record"
  | .select .. => "field selection"
  | .tuple .. => "tuple"
  | .caseOf .. => "match expression"
  | .ascribe .. => "type annotation"

/-- Whether an expression is put in parentheses as part of another. -/
def isLoose : Expr → Bool
  | .binary .. | .cond .. | .lambda .. | .letIn .. | .caseOf .. => true
  | _ => false

/-- The text of an optional annotation behind a name. -/
def renderTyExpr : Option TyExpr → String
  | none => ""
  | some a => ": " ++ a.render

mutual

def render : Expr → String
  | .missing => "nil"
  | .literal _ kind value => kind.render value
  | .var _ name => name
  | .call _ f args => Text.parens f.isLoose f.render ++ "(" ++ Text.commas (renderAll args) ++ ")"
  | .binary _ op l r =>
    Text.parens l.isLoose l.render ++ " " ++ op ++ " " ++ Text.parens r.isLoose r.render
  | .unary _ op e => op ++ Text.parens e.isLoose e.render
  | .cond _ c t e => "if " ++ c.render ++ " then " ++ t.render ++ " else " ++ e.render
  | .lambda _ ps b =>
    "\\" ++ Text.commas (ps.map fun p => p.name ++ renderTyExpr p.typed)
      ++ " => " ++ b.render
  | .letIn _ name isRec a v b =>
    "let " ++ (if isRec then "rec " else "") ++ name ++ renderTyExpr a ++ " = " ++ v.render
      ++ " in " ++ b.render
  | .record _ fs ss => Text.braces (Text.commas (renderSpreads ss ++ renderFields fs))
  | .select _ e field => Text.parens e.isLoose e.render ++ "." ++ field
  | .tuple _ es => "(" ++ Text.commas (renderAll es) ++ ")"
  | .caseOf _ v arms =>
    "match " ++ Text.parens v.isLoose v.render ++ " "
      ++ Text.braces (" " ++ "; ".intercalate (renderArms arms) ++ " ")
  | .ascribe _ e a => "(" ++ e.render ++ " : " ++ a.render ++ ")"

def renderAll : List Expr → List String
  | [] => []
  | e :: es => e.render :: renderAll es

def renderSpreads : List Expr → List String
  | [] => []
  | e :: es => ("..." ++ Text.parens e.isLoose e.render) :: renderSpreads es

def renderFields : List (Labelled Expr) → List String
  | [] => []
  | ⟨_, name, e⟩ :: fs => (name ++ " = " ++ e.render) :: renderFields fs

def renderArms : List (Arm Expr) → List String
  | [] => []
  | ⟨_, p, e⟩ :: arms => (p.render ++ " -> " ++ e.render) :: renderArms arms

end

def digestParam (p : Param) : Digest :=
  .node "Param" [.ofText p.name, TyExpr.digestOpt p.typed]

mutual

/-- The digest of an expression, whatever its place. -/
def digest : Expr → Digest
  | .missing => 0
  | .literal _ kind value => .node "Literal" [.ofInt kind.code, .ofText value]
  | .var _ name => .node "Var" [.ofText name]
  | .call _ f args => .node "Call" [f.digest, .node "list" (digestAll args)]
  | .binary _ op l r => .node "Binary" [.ofText op, l.digest, r.digest]
  | .unary _ op e => .node "Unary" [.ofText op, e.digest]
  | .cond _ c t e => .node "If" [c.digest, t.digest, e.digest]
  | .lambda _ ps b => .node "Func" [.node "list" (ps.map digestParam), b.digest]
  | .letIn _ name isRec a v b =>
    .node "Let" [.ofText name, if isRec then 1 else 0, TyExpr.digestOpt a, v.digest, b.digest]
  | .record _ fs ss =>
    .node "Record" [.node "list" (digestFields fs), .node "list" (digestAll ss)]
  | .select _ e field => .node "Select" [e.digest, .ofText field]
  | .tuple _ es => .node "Tuple" [.node "list" (digestAll es)]
  | .caseOf _ v arms => .node "Match" [v.digest, .node "list" (digestArms arms)]
  | .ascribe _ e a => .node "Ascribe" [e.digest, a.digest]

def digestAll : List Expr → List Digest
  | [] => []
  | e :: es => e.digest :: digestAll es

def digestFields : List (Labelled Expr) → List Digest
  | [] => []
  | ⟨_, name, e⟩ :: fs => .node "Field" [.ofText name, e.digest] :: digestFields fs

def digestArms : List (Arm Expr) → List Digest
  | [] => []
  | ⟨_, p, e⟩ :: arms => .node "Case" [p.digest, e.digest] :: digestArms arms

end

end Expr

end RowTypes
