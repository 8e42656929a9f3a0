import RowTypes.Supply
import RowTypes.Ty.Subst

/-!
# Type schemes

A scheme is a type together with the unknowns it is closed over.  Each use of a name whose
scheme quantifies unknowns gets fresh ones in their place.
-/

namespace RowTypes

/-- A type closed over some of its unknowns. -/
structure Scheme where
  vars : List TyVar := []
  body : Ty
  deriving Repr, Inhabited

namespace Scheme

/-- The scheme that quantifies nothing. -/
def mono (t : Ty) : Scheme := ⟨[], t⟩

def isMono (s : Scheme) : Bool := s.vars.isEmpty

/-- Closes a type over its free unknowns apart from the given ones. -/
def generalize (t : Ty) (except : VarSet) : Scheme :=
  ⟨t.free.filter (fun v => !except.has v), t⟩

/-- Gives fresh unknowns to quantified ones. -/
def refresh (level : Int) : List TyVar → Subst → Supply → Subst × Supply
  | [], s, supply => (s, supply)
  | v :: vs, s, supply =>
    let (w, supply) := supply.fresh level
    refresh level vs (s.bind v (.var w)) supply

def instantiate (s : Scheme) (level : Int) (supply : Supply) : Ty × Supply :=
  if s.isMono then (s.body, supply)
  else
    let (fresh, supply) := refresh level s.vars .empty supply
    (fresh.apply s.body, supply)

/-- The unknowns of the body that are not quantified. -/
def free (s : Scheme) : VarSet := s.vars.foldl VarSet.erase s.body.free

/-- Replaces unknowns that are not quantified. -/
def apply (s : Scheme) (subst : Subst) : Scheme := ⟨s.vars, (subst.without s.vars).apply s.body⟩

def render (s : Scheme) : String :=
  if s.isMono then s.body.render
  else "∀" ++ " ".intercalate (s.vars.map TyVar.render) ++ ". " ++ s.body.render

end Scheme

end RowTypes
