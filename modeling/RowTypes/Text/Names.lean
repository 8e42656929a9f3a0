/-!
# Sorted sets of names

Messages and record rules list field names in ascending order of their characters and without
repetition.  The set operations here take lists in any order and give such lists.
-/

namespace RowTypes.Text.Names

/-- Puts a name into a sorted list, unless it is there already. -/
def insert (name : String) : List String → List String
  | [] => [name]
  | n :: rest =>
    if name = n then n :: rest
    else if name < n then name :: n :: rest
    else n :: insert name rest

/-- The names in ascending order, each once. -/
def sorted (names : List String) : List String := names.foldr insert []

/-- The sorted names of `a` that are not in `b`. -/
def diff (a b : List String) : List String := sorted (a.filter (· ∉ b))

/-- The sorted names of `a` or `b`. -/
def union (a b : List String) : List String := sorted (a ++ b)

/-- The sorted names that are in both `a` and `b`. -/
def inter (a b : List String) : List String := sorted (a.filter (· ∈ b))

theorem mem_insert {x name : String} {names : List String} :
    x ∈ insert name names ↔ x = name ∨ x ∈ names := by
  induction names with
  | nil => simp [insert]
  | cons n rest ih =>
    simp only [insert]
    split
    · subst_vars; simp
    · split
      · simp
      · simp [ih, or_left_comm]

theorem mem_sorted {x : String} {names : List String} : x ∈ sorted names ↔ x ∈ names := by
  induction names with
  | nil => simp [sorted]
  | cons n rest ih =>
    show x ∈ insert n (sorted rest) ↔ _
    simp [mem_insert, ih]

end RowTypes.Text.Names
