import RowTypes.Scheme

/-!
# Environments

An environment gives the schemes of the names in scope, in the order of the names.
-/

namespace RowTypes

/-- The schemes of the names in scope. -/
structure Env where
  schemes : Table String Scheme := []
  deriving Repr, Inhabited

namespace Env

def empty : Env := {}

def bind (e : Env) (name : String) (s : Scheme) : Env := ⟨Table.insert name s e.schemes⟩

/-- Gives a name a type, without quantifying anything. -/
def bindMono (e : Env) (name : String) (t : Ty) : Env := e.bind name (.mono t)

def lookup? (e : Env) (name : String) : Option Scheme := Table.get? name e.schemes

def size (e : Env) : Nat := e.schemes.length

def names (e : Env) : List String := Table.keys e.schemes

/-- The unknowns that are free in some scheme. -/
def free (e : Env) : VarSet := e.schemes.foldl (fun s entry => s.union entry.2.free) []

/-- Closes a type over the unknowns that are not free in the environment. -/
def generalize (e : Env) (t : Ty) : Scheme := .generalize t e.free

def apply (e : Env) (s : Subst) : Env :=
  if s.isEmpty then e else ⟨e.schemes.map fun entry => (entry.1, entry.2.apply s)⟩

def render (e : Env) : String :=
  Text.braces (Text.commas (e.schemes.map fun entry => entry.1 ++ ": " ++ entry.2.render))

end Env

end RowTypes
