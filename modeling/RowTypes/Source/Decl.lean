import RowTypes.Source.Expr

/-!
# Declarations and programs
-/

namespace RowTypes

/-- The declaration of a named type: its parameters and what it stands for. -/
structure TypeDecl where
  span : Span := {}
  name : String
  params : List String := []
  body : TyExpr
  deriving Repr, Inhabited

/-- A definition at the top of a program, which every later declaration sees. -/
structure LetDecl where
  span : Span := {}
  name : String
  isRec : Bool := false
  typed : Option TyExpr := none
  value : Expr
  deriving Repr, Inhabited

/-- The declarations of a program. -/
inductive Decl where
  /-- A declaration that is not there. -/
  | missing
  | type (d : TypeDecl)
  | define (d : LetDecl)
  /-- An expression that is checked for its type only. -/
  | expr (span : Span) (e : Expr)
  deriving Repr, Inhabited

/-- A program: declarations that are checked in order. -/
structure Program where
  span : Span := {}
  decls : List Decl := []
  deriving Repr, Inhabited

namespace Decl

def span : Decl → Span
  | .missing => .unknown
  | .type d => d.span
  | .define d => d.span
  | .expr s _ => s

def relocate (s : Span) : Decl → Decl
  | .missing => .missing
  | .type d => .type { d with span := s }
  | .define d => .define { d with span := s }
  | .expr _ e => .expr s e

/-- The digest of a declaration, whatever its place. -/
def digest : Decl → Digest
  | .missing => 0
  | .type d =>
    .node "TypeAliasDecl" (.ofText d.name :: d.body.digest :: d.params.map Digest.ofText)
  | .define d =>
    .node "LetDecl" [.ofText d.name, if d.isRec then 1 else 0,
      TyExpr.digestOpt d.typed, d.value.digest]
  | .expr _ e => .node "ExprDecl" [e.digest]

end Decl

/-- The digest of a program, whatever its place. -/
def Program.digest (p : Program) : Digest :=
  .node "Program" [.node "list" (p.decls.map Decl.digest)]

end RowTypes
