import RowTypes.Checker
import RowTypes.Constraint.Basic
import RowTypes.Constraint.Propagate
import RowTypes.Constraint.Set
import RowTypes.Coverage.Analysis
import RowTypes.Coverage.Ending
import RowTypes.Coverage.Narrow
import RowTypes.Coverage.Space
import RowTypes.Diagnostic.Basic
import RowTypes.Diagnostic.Code
import RowTypes.Diagnostic.Recognize
import RowTypes.Diagnostic.Report
import RowTypes.Digest
import RowTypes.Env
import RowTypes.Inference.Basic
import RowTypes.Inference.Generate
import RowTypes.Inference.Operator
import RowTypes.Journal
import RowTypes.Prelude
import RowTypes.Proofs.Approximations
import RowTypes.Proofs.BoundBinders
import RowTypes.Proofs.BranchResults
import RowTypes.Proofs.BuildingLaws
import RowTypes.Proofs.ClosedDefinitions
import RowTypes.Proofs.CoherentTypes
import RowTypes.Proofs.CoinductiveSubtyping
import RowTypes.Proofs.Composition
import RowTypes.Proofs.Conflicts
import RowTypes.Proofs.ConstraintSets
import RowTypes.Proofs.CycleSearch
import RowTypes.Proofs.DeclarationOrder
import RowTypes.Proofs.Digests
import RowTypes.Proofs.EnclosedTypes
import RowTypes.Proofs.EndingAnalysis
import RowTypes.Proofs.EvidentConstraints
import RowTypes.Proofs.Exhaustiveness
import RowTypes.Proofs.FaithfulForms
import RowTypes.Proofs.Forgetting
import RowTypes.Proofs.FreeUnknowns
import RowTypes.Proofs.GroundedForms
import RowTypes.Proofs.GuardedMatches
import RowTypes.Proofs.HeadExpansion
import RowTypes.Proofs.Idempotence
import RowTypes.Proofs.Inlining
import RowTypes.Proofs.Instantiation
import RowTypes.Proofs.IntersectionBounds
import RowTypes.Proofs.Limits
import RowTypes.Proofs.Listing
import RowTypes.Proofs.MergedRecords
import RowTypes.Proofs.Messages
import RowTypes.Proofs.MustBuild
import RowTypes.Proofs.MustRelate
import RowTypes.Proofs.MustSolve
import RowTypes.Proofs.Narrowing
import RowTypes.Proofs.NormalTypes
import RowTypes.Proofs.NormalizingTwice
import RowTypes.Proofs.OperandOrder
import RowTypes.Proofs.Programs
import RowTypes.Proofs.Propagation
import RowTypes.Proofs.Reachability
import RowTypes.Proofs.RealCycles
import RowTypes.Proofs.RecursiveSubtyping
import RowTypes.Proofs.RelatedSides
import RowTypes.Proofs.RowKinds
import RowTypes.Proofs.Scoping
import RowTypes.Proofs.Scrutinees
import RowTypes.Proofs.SoundUnification
import RowTypes.Proofs.Subsumption
import RowTypes.Proofs.Subtyping
import RowTypes.Proofs.Tentative
import RowTypes.Proofs.UnusedBindings
import RowTypes.Proofs.WidthSubtyping
import RowTypes.Registry.Basic
import RowTypes.Registry.Normalize
import RowTypes.Registry.Resolve
import RowTypes.Scheme
import RowTypes.Solver.Join
import RowTypes.Solver.Merge
import RowTypes.Solver.Relate
import RowTypes.Solver.Row
import RowTypes.Solver.Solve
import RowTypes.Solver.Subtype
import RowTypes.Solver.Unify
import RowTypes.Source.Decl
import RowTypes.Source.Expr
import RowTypes.Source.Literal
import RowTypes.Source.Pattern
import RowTypes.Source.Span
import RowTypes.Source.TyExpr
import RowTypes.Supply
import RowTypes.Table
import RowTypes.Text.Blank
import RowTypes.Text.Layout
import RowTypes.Text.Matcher
import RowTypes.Text.Names
import RowTypes.Text.Printable
import RowTypes.Text.Quoted
import RowTypes.Text.Template
import RowTypes.Text.Track
import RowTypes.Trail
import RowTypes.Ty.Basic
import RowTypes.Ty.Equiv
import RowTypes.Ty.Free
import RowTypes.Ty.Hash
import RowTypes.Ty.Normal
import RowTypes.Ty.Render
import RowTypes.Ty.Subst
