import RowTypes.Inference.Basic
import RowTypes.Inference.Operator

/-!
# Inference

Each expression gets a type and the constraints under which it has that type.  The walk is by
recursion on the expression: the environment grows under binders, and levels under definitions.
-/

namespace RowTypes

namespace Expr

/-- The kind and the text of a constant. -/
def constant? : Expr → Option (Span × LiteralKind × String)
  | .literal span kind value => some (span, kind, value)
  | _ => none

end Expr

namespace Generate

/-- The parts of a match that its cases have given so far. -/
structure Cases where
  constraints : ConstraintSet := .empty
  patterns : List Ty := []
  results : List Ty := []

/-- The constraints of an operator between two operands. -/
def operatorConstraints (rule : BinaryRule) (l r ret : Ty) (lspan rspan span : Span) :
    List Constraint :=
  match rule with
  | .typed operand result =>
    [equality l operand lspan, equality r operand rspan, equality ret result span]
  | .comparison =>
    [equality l r span, .ofClass l Demand.comparable span, equality ret .bool span]

/-- The constraints that a match adds to those of its cases, and its type. -/
def closeMatch (level : Int) (span : Span) (scrutinee : Ty) (patterns : List Pattern)
    (cases : Cases) : Generate Typed := do
  let cs := cases.constraints
  let cs := if cases.patterns.isEmpty then cs
    else cs.add ⟨.holds scrutinee cases.patterns, .inference, span⟩
  let cs := cs.add ⟨.exhaustive scrutinee patterns, .inference, span⟩
  if cases.results.isEmpty then pure ⟨.unit, cs⟩
  else
    let ret ← fresh level
    pure ⟨.var ret, cs.add ⟨.branch (.var ret) cases.results, .inference, span⟩⟩

mutual

/-- The type of an expression in an environment. -/
def infer (limit : Nat) (e : Env) (level : Int) : Expr → Generate Typed
  | .missing => throw ⟨.internal "nil expression" none, {}⟩
  | .literal span kind value => literal level span kind value false
  | .var span name =>
    match e.lookup? name with
    | none => throw ⟨.undefinedVariable name, span⟩
    | some scheme => do
      let ret ← fresh level
      let t ← ofSession (modifyGet fun s =>
        let (t, supply) := scheme.instantiate level s.supply
        (t, { s with supply }))
      pure ⟨.var ret, ConstraintSet.empty.add (equality (.var ret) t span)⟩
  | .call span f args => do
    let ⟨ft, cs⟩ ← infer limit e level f
    let (ts, cs) ← inferAll limit e level args cs
    let ret ← fresh level
    pure ⟨.var ret, cs.add (equality ft (.curried ts (.var ret)) span)⟩
  | .binary span op l r =>
    match binaryRule? op with
    | none => throw ⟨.unimplemented ("binary operator " ++ op), span⟩
    | some rule => do
      let ⟨lt, cs⟩ ← infer limit e level l
      let ⟨rt, rcs⟩ ← infer limit e level r
      let ret ← fresh level
      pure ⟨.var ret, (operatorConstraints rule lt rt (.var ret) l.span r.span span).foldl
        ConstraintSet.add (cs.union rcs)⟩
  | .unary span op x => do
    let ⟨t, cs⟩ ← infer limit e level x
    match unaryType? op with
    | none => throw ⟨.unimplemented ("unary operator " ++ op), span⟩
    | some u =>
      let ret ← fresh level
      pure ⟨.var ret, (cs.add (equality t u span)).add (equality (.var ret) u span)⟩
  | .cond span c t f => do
    let ⟨ct, cs⟩ ← infer limit e level c
    let ⟨tt, tcs⟩ ← infer limit e level t
    let ⟨ft, fcs⟩ ← infer limit e level f
    let ret ← fresh level
    pure ⟨.var ret, (((cs.union tcs).union fcs).add (equality ct .bool c.span)).add
      ⟨.branch (.var ret) [tt, ft], .inference, span⟩⟩
  | .lambda span ps body => do
    let (ts, bodyEnv) ← params level ps [] e
    let ⟨t, cs⟩ ← infer limit bodyEnv level body
    let ret ← fresh level
    pure ⟨.var ret, cs.add (equality (.var ret) (.curried ts t) span)⟩
  | .letIn span name isRec written value body => do
    let (scheme, cs) ← binding limit e level ⟨span, name, isRec, written⟩
      fun valueEnv => infer limit valueEnv (level + 1) value
    let ⟨t, bcs⟩ ← infer limit (e.bind name scheme) level body
    pure ⟨t, cs.union bcs⟩
  | .record span fields spreads => do
    let (fs, cs) ← inferFields limit e level fields [] .empty
    if spreads.isEmpty then pure ⟨.record fs none, cs⟩
    else
      let (ts, cs) ← inferSpreads limit e level spreads cs
      let ret ← fresh level
      pure ⟨.var ret, cs.add ⟨.merge (.var ret) ts ⟨fs, none⟩, .inference, span⟩⟩
  | .select span x field => do
    let ⟨t, cs⟩ ← infer limit e level x
    let ret ← fresh level
    let row ← fresh level
    pure ⟨.var ret, cs.add (equality t (.record [(field, .var ret)] (some row)) span)⟩
  | .tuple span xs => do
    let (ts, cs) ← inferAll limit e level xs .empty
    let ret ← fresh level
    pure ⟨.var ret, cs.add (equality (.var ret) (.tuple ts) span)⟩
  | .caseOf span value arms => do
    let ⟨t, cs⟩ ← infer limit e level value
    let patterns := arms.map (·.pattern)
    let known ← knownShape limit t cs
    let analysis ← analyse span known patterns
    let cases ← inferArms limit e level t analysis.refinements arms { constraints := cs }
    closeMatch level span t patterns cases
  | .ascribe span x written => do
    let ⟨t, cs⟩ ← infer limit e level x
    let (declared, _) ← resolve level [] written
    pure ⟨declared, cs.add (.subtype t declared .written span)⟩

def inferAll (limit : Nat) (e : Env) (level : Int) :
    List Expr → ConstraintSet → Generate (List Ty × ConstraintSet)
  | [], cs => pure ([], cs)
  | x :: xs, cs => do
    let ⟨t, xcs⟩ ← infer limit e level x
    let (ts, cs) ← inferAll limit e level xs (cs.union xcs)
    pure (t :: ts, cs)

/-- The types of spread records, each of which has to be one. -/
def inferSpreads (limit : Nat) (e : Env) (level : Int) :
    List Expr → ConstraintSet → Generate (List Ty × ConstraintSet)
  | [], cs => pure ([], cs)
  | x :: xs, cs => do
    let ⟨t, xcs⟩ ← infer limit e level x
    let (ts, cs) ← inferSpreads limit e level xs
      ((cs.union xcs).add ⟨.recordShape t, .inference, x.span⟩)
    pure (t :: ts, cs)

/-- The types of fields, none of which may appear twice. A string that is a field's value can
serve as a tag. -/
def inferFields (limit : Nat) (e : Env) (level : Int) :
    List (Labelled Expr) → Table String Ty → ConstraintSet →
      Generate (Table String Ty × ConstraintSet)
  | [], done, cs => pure (done, cs)
  | ⟨span, name, x⟩ :: fs, done, cs => do
    if Table.has name done then throw ⟨.duplicateDefinition name, span⟩
    let ⟨t, xcs⟩ ← match x.constant? with
      | some (span, kind, value) => literal level span kind value true
      | none => infer limit e level x
    inferFields limit e level fs (Table.insert name t done) (cs.union xcs)

/-- The results of cases, each in the scope of its pattern's names. -/
def inferArms (limit : Nat) (e : Env) (level : Int) (scrutinee : Ty)
    (refinements : List (Table String Ty)) : List (Arm Expr) → Cases → Generate Cases
  | [], cases => pure cases
  | ⟨_, p, x⟩ :: arms, cases => do
    let (caseEnv, pt) ← caseScope level scrutinee (refinements.headD []) e p
    let ⟨t, cs⟩ ← infer limit caseEnv level x
    inferArms limit e level scrutinee refinements.tail arms
      { constraints := cases.constraints.union cs
        patterns := cases.patterns ++ pt.toList
        results := cases.results ++ [t] }

end

end Generate

namespace Session

/-- Runs a step of inference, and gives what it came to beside its warnings. -/
def generating {α : Type} (m : Generate α) :
    StateM Session (Except Diagnostic α × List Diagnostic) := fun s =>
  let (result, g) := m.run { session := s }
  ((result, g.warnings), g.session)

/-- The type of an expression, with the constraints under which it has that type, and the
warnings about it. -/
def generate (limit : Nat) (e : Env) (x : Expr) :
    StateM Session (Except Diagnostic Typed × List Diagnostic) :=
  generating (Generate.infer limit e 0 x)

/-- The scheme of a definition at the top of a program. -/
def generateDecl (limit : Nat) (e : Env) (d : LetDecl) :
    StateM Session (Except Diagnostic (Scheme × ConstraintSet) × List Diagnostic) :=
  generating (Generate.binding limit e 0 ⟨d.span, d.name, d.isRec, d.typed⟩
    fun valueEnv => Generate.infer limit valueEnv 1 d.value)

end Session

end RowTypes
