import RowTypes.Diagnostic.Basic

/-!
# Collections of diagnostics

A report holds diagnostics of every severity in the order in which they were found.
-/

namespace RowTypes

/-- Diagnostics in the order in which they were found. -/
structure Report where
  entries : List Diagnostic := []
  deriving Repr, DecidableEq, Inhabited

namespace Report

/-- Adds diagnostics at the end. -/
def add (r : Report) (ds : List Diagnostic) : Report := ⟨r.entries ++ ds⟩

/-- Adds the diagnostics of another report at the end. -/
def merge (r s : Report) : Report := r.add s.entries

def size (r : Report) : Nat := r.entries.length

def hasError (r : Report) : Bool := r.entries.any fun d => d.severity == .error

def ofSeverity (r : Report) (s : Severity) : List Diagnostic :=
  r.entries.filter fun d => d.severity == s

/-- One line for each diagnostic. -/
def render (r : Report) : String := "\n".intercalate (r.entries.map Diagnostic.formatted)

/-- The attributes of the `i`th diagnostic in a journal. -/
def journalEntry (d : Diagnostic) (i : Nat) : String × List (String × String) :=
  ("e" ++ toString i,
    [("msg", d.formatted), ("kind", d.code.name), ("severity", d.severity.name),
      ("at", d.span.start.render)])

/-- The attributes of all diagnostics, as a journal groups them. -/
def journalEntries (r : Report) : List (String × List (String × String)) :=
  r.entries.zipIdx.map fun (d, i) => journalEntry d i

end Report

end RowTypes
