import RowTypes.Ty.Basic

/-!
# The supply of unknowns

Unknowns are numbered from one, and no number is given out twice.
-/

namespace RowTypes

/-- How many unknowns have been given out. -/
structure Supply where
  count : Nat := 0
  deriving Repr, DecidableEq, Inhabited

namespace Supply

def fresh (level : Int) (s : Supply) : TyVar × Supply :=
  (⟨(s.count : Int) + 1, level⟩, ⟨s.count + 1⟩)

/-- The next `n` unknowns, all at one level. -/
def freshMany (level : Int) : Nat → Supply → List TyVar × Supply
  | 0, s => ([], s)
  | n + 1, s =>
    let (v, s) := s.fresh level
    let (vs, s) := freshMany level n s
    (v :: vs, s)

@[simp] theorem count_fresh (level : Int) (s : Supply) : (s.fresh level).2.count = s.count + 1 :=
  rfl

end Supply

end RowTypes
