import RowTypes.Solver.Subtype

/-!
# Joins

The branches of a conditional or a match, and the patterns of a match, are joined into one type.
Records that share a field with two different string literals are told apart by it and join into a
union, whatever their other fields are; tuples join element by element; everything else is unified.

For patterns the join always exists: what cannot be unified becomes a union.  For branches it
does not: types that neither unify nor are told apart are an error.

Joins of tuples recurse under the substitutions found on the way, so their depth is not that of
the types at the start.  Binding an unknown takes it away and at most doubles the heights of the
types it stands in, so heights stay below what `joinDepth` allows as long as types hold no names
and no rows.  Names are expanded on the way and rows are filled, and a join may go deeper by the
heights of what they bring in; `joinLimit` leaves room for that.
-/

namespace RowTypes

/-- How deep joins of tuples may nest at least. -/
def joinLimit : Nat := 100000

/-- A number doubled some times. -/
def doubled : Nat → Nat → Nat
  | 0, h => h
  | n + 1, h => doubled n (2 * h)

/-- How deep joins of some types may nest. -/
def joinDepth (ts : List Ty) : Nat :=
  joinLimit + doubled (Ty.frees ts).length (Ty.heightAll ts)

namespace RecordTy

/-- Whether two records share a field with two different string literals. -/
def toldApart (a b : RecordTy) : Bool :=
  a.fields.any fun (name, t) =>
    match t, b.field? name with
    | .lit v, some (.lit w) => v != w
    | _, _ => false

end RecordTy

namespace Relate

/-- Of a literal and the type it was unified with, that type. -/
def widest (a b : Ty) : Ty :=
  match a with
  | .lit _ => b
  | a => a

/-- A type, and the substitution under which it was found. -/
abbrev Joined := Ty × Subst

/-- Joins pairs one after the other, each under what was found before it. -/
def joinAll {m : Type → Type} [Monad m] (join : Ty → Ty → m Joined) :
    List (Ty × Ty) → List Ty → Subst → m Joined
  | [], done, s => pure (.tuple (s.applyAll done), s)
  | (a, b) :: pairs, done, s => do
    let (t, next) ← join (s.apply a) (s.apply b)
    joinAll join pairs (done ++ [t]) (next.after s)

/-- Unifies two types and keeps the wider one. -/
def joinUnified (unify : Relation) (a b : Ty) : Relate Joined := do
  let s ← unify a b
  pure (s.apply (widest a b), s)

/-- Joins a type with a union: it goes with an alternative, or a tag tells it apart from all. -/
def joinIntoUnion (ctx : Context) (unify : Relation) (alts : List Ty) (b : Ty) :
    Relate Joined := do
  match ← firstOf (fun alt => unify alt b) alts with
  | some s => pure (s.apply (.union alts), s)
  | none =>
    let apart : Bool := match b.record? with
      | some rb => alts.all fun alt => (alt.record?).any fun ra => ra.toldApart rb
      | none => false
    if apart then pure (Ty.unionOf (alts ++ [b]), .empty)
    else throw (mismatch ctx (.union alts) b "branches have different types")

/-- Joins two branches, given the join for the elements of tuples. -/
def joinBranchesStep (ctx : Context) (unify : Relation) (join : Ty → Ty → Relate Joined)
    (a b : Ty) : Relate Joined :=
  match a, b with
  | .var v, b => joinUnified unify (.var v) b
  | a, .var v => joinUnified unify a (.var v)
  | .record fs row, .record gs row' =>
    if RecordTy.toldApart ⟨fs, row⟩ ⟨gs, row'⟩ then
      pure (Ty.unionOf [.record fs row, .record gs row'], .empty)
    else joinUnified unify (.record fs row) (.record gs row')
  | .union alts, b => joinIntoUnion ctx unify alts b
  | .tuple as, .tuple bs =>
    if as.length = bs.length then joinAll join (as.zip bs) [] .empty
    else joinUnified unify (.tuple as) (.tuple bs)
  | .lit v, .lit w =>
    if v = w then joinUnified unify (.lit v) (.lit w) else pure (.string, .empty)
  | a, b => joinUnified unify a b

/-- The type of a value of either branch. -/
def joinBranches (ctx : Context) (unify : Relation) : Nat → Ty → Ty → Relate Joined
  | 0, a, b => throw (tooDeep ctx a b)
  | n + 1, a, b => joinBranchesStep ctx unify (joinBranches ctx unify n) a b

/-- Joins two patterns' types if they unify, and puts them side by side if not. -/
def joinOrUnion (unify : Relation) (a b : Ty) : StateM Progress Joined := do
  match ← attempt (unify a b) with
  | some s => pure (s.apply (widest a b), s)
  | none => pure (Ty.unionOf [a, b], .empty)

/-- Joins two patterns' types, given the join for the elements of tuples. -/
def joinPatternsStep (unify : Relation) (join : Ty → Ty → StateM Progress Joined)
    (a b : Ty) : StateM Progress Joined :=
  match a, b with
  | .record fs row, .record gs row' =>
    if RecordTy.toldApart ⟨fs, row⟩ ⟨gs, row'⟩ then
      pure (Ty.unionOf [.record fs row, .record gs row'], .empty)
    else joinOrUnion unify (.record fs row) (.record gs row')
  | .tuple as, .tuple bs =>
    if as.length = bs.length then joinAll join (as.zip bs) [] .empty
    else joinOrUnion unify (.tuple as) (.tuple bs)
  | .lit v, .lit w =>
    if v = w then joinOrUnion unify (.lit v) (.lit w)
    else pure (Ty.unionOf [.lit v, .lit w], .empty)
  | .union alts, b => do
    match ← firstOf (fun alt => unify alt b) alts with
    | some s => pure (s.apply (.union alts), s)
    | none => pure (Ty.unionOf (alts ++ [b]), .empty)
  | a, b => joinOrUnion unify a b

/-- The smallest type that both patterns' types fit in. -/
def joinPatterns (unify : Relation) : Nat → Ty → Ty → StateM Progress Joined
  | 0, a, b => joinOrUnion unify a b
  | n + 1, a, b => joinPatternsStep unify (joinPatterns unify n) a b

/-- Joins a list of types into the first one. -/
def joinList {m : Type → Type} [Monad m] (join : Ty → Ty → m Joined) :
    List Ty → Joined → m Joined
  | [], (t, s) => pure (s.apply t, s)
  | b :: bs, (t, s) => do
    let (t, next) ← join (s.apply t) (s.apply b)
    joinList join bs (t, next.after s)

/-- Makes every branch fit a result whose type is settled. -/
def fitBranches (ctx : Context) (subtype : Relation) (result : Ty) :
    List Ty → Subst → Relate Subst
  | [], s => pure s
  | b :: bs, s => do
    let expected := s.apply result
    let found := s.apply b
    let next ← orElseThrow (subtype found expected) fun _ =>
      mismatch ctx expected found "a branch does not fit how the result is used"
    fitBranches ctx subtype result bs (next.after s)

/-- Gives the result of branches its type. If its use settles it already, every branch has to be
a subtype of it; otherwise it is the join of the branches. -/
def branch (ctx : Context) (limit : Nat) (result : Ty) (branches : List Ty) : Relate Subst :=
  match branches with
  | [] => pure .empty
  | first :: others =>
    match result with
    | .var _ => do
      let (joined, s) ← joinList
        (joinBranches ctx (unify ctx limit) (joinDepth (first :: others))) others (first, .empty)
      let bound ← unify ctx limit (s.apply result) joined
      pure (bound.after s)
    | result => fitBranches ctx (subtype ctx limit) result (first :: others) .empty

/-- Finds the alternative of a scrutinee that a pattern of a type can match. -/
def matchAlternative (ctx : Context) (unify : Relation) (p scrutinee : Ty) : Relate Subst :=
  match p with
  | .var v => bindVar ctx v scrutinee
  | p =>
    match scrutinee with
    | .union alts => absorb ctx unify p alts
    | scrutinee => unify p scrutinee

/-- Makes a scrutinee able to hold a value of each pattern. A scrutinee that is not known yet
becomes the join of the patterns; a union must have an alternative for each; anything else must
unify with each. -/
def holds (ctx : Context) (limit : Nat) (scrutinee : Ty) (patterns : List Ty) : Relate Subst :=
  match scrutinee with
  | .var v =>
    match patterns with
    | [] => pure .empty
    | first :: others => do
      let (joined, s) ← joinList (m := StateM Progress)
        (joinPatterns (unify ctx limit) (joinDepth (first :: others))) others (first, .empty)
      let bound ← bindVar ctx v joined
      pure (bound.after s)
  | .union alts =>
    thread (matchAlternative ctx (unify ctx limit)) (patterns.map fun p => (p, .union alts)) .empty
  | t => thread (unify ctx limit) (patterns.map fun p => (p, t)) .empty

end Relate

end RowTypes
