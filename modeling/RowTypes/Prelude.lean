import RowTypes.Env

/-!
# The prelude

The names that programs are checked with by default.
-/

namespace RowTypes

/-- A scheme over one fresh unknown. -/
def Scheme.forAll (body : TyVar → Ty) (supply : Supply) : Scheme × Supply :=
  let (v, supply) := supply.fresh 0
  (⟨[v], body v⟩, supply)

/-- The environment of the prelude, with quantified unknowns from a supply. -/
def Env.prelude (supply : Supply) : Env × Supply :=
  let (print, supply) := Scheme.forAll (fun v => .fn (.var v) .unit) supply
  let (shown, supply) := Scheme.forAll (fun v => .fn (.var v) .string) supply
  let (identity, supply) := Scheme.forAll (fun v => .fn (.var v) (.var v)) supply
  (Env.empty
    |>.bind "print" print
    |>.bind "show" shown
    |>.bind "identity" identity
    |>.bindMono "length" (.fn .string .int)
    |>.bindMono "not" (.fn .bool .bool),
    supply)

end RowTypes
