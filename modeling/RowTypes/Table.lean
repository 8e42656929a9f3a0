/-!
# Ordered association lists

Record fields, environments and substitutions are finite maps that are printed and walked in the
order of their keys.  A `Table` is the plain list of such a map, kept in ascending order of keys
by `insert`; it is a list, and not a search tree, because types nest inside record fields and the
recursion over a type has to see through the container.

The lookup laws hold of every list, ordered or not, since `insert` stops at the first key that is
not below the new one.
-/

namespace RowTypes

/-- Association list in ascending order of keys. -/
abbrev Table (κ α : Type) := List (κ × α)

namespace Table

variable {κ α : Type}

def get? [DecidableEq κ] (k : κ) : Table κ α → Option α
  | [] => none
  | (k', a) :: rest => if k = k' then some a else get? k rest

/-- Sets the entry of a key, in its place by order. -/
def insert [LT κ] [DecidableLT κ] [DecidableEq κ] (k : κ) (a : α) : Table κ α → Table κ α
  | [] => [(k, a)]
  | (k', a') :: rest =>
    if k = k' then (k, a) :: rest
    else if k < k' then (k, a) :: (k', a') :: rest
    else (k', a') :: insert k a rest

def erase [DecidableEq κ] (k : κ) (t : Table κ α) : Table κ α :=
  t.filter fun entry => entry.1 ≠ k

def has [DecidableEq κ] (k : κ) (t : Table κ α) : Bool := (get? k t).isSome

def keys (t : Table κ α) : List κ := t.map (·.1)

/-- Adds the entries of another table under the keys that have none. -/
def underlay [LT κ] [DecidableLT κ] [DecidableEq κ] (t more : Table κ α) : Table κ α :=
  more.foldl (fun t entry => if has entry.1 t then t else insert entry.1 entry.2 t) t

/-- Builds a table from any list of entries; of two entries of one key the later one stays. -/
def ofList [LT κ] [DecidableLT κ] [DecidableEq κ] (entries : List (κ × α)) : Table κ α :=
  entries.foldl (fun t entry => insert entry.1 entry.2 t) []

section Laws

variable [LT κ] [DecidableLT κ] [DecidableEq κ]

@[simp] theorem get?_insert_self (k : κ) (a : α) (t : Table κ α) :
    get? k (insert k a t) = some a := by
  induction t with
  | nil => simp [insert, get?]
  | cons entry rest ih =>
    obtain ⟨k', a'⟩ := entry
    simp only [insert]
    split
    · simp [get?]
    · split
      · simp [get?]
      · simp [get?, *]

theorem get?_insert_of_ne {k j : κ} (h : j ≠ k) (a : α) (t : Table κ α) :
    get? j (insert k a t) = get? j t := by
  induction t with
  | nil => simp [insert, get?, h]
  | cons entry rest ih =>
    obtain ⟨k', a'⟩ := entry
    simp only [insert]
    split
    · subst_vars; simp [get?, h]
    · split
      · simp [get?, h]
      · simp [get?, ih]

end Laws

end Table

end RowTypes
