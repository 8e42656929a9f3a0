/-!
# The path of a depth-first walk

A walk that looks for cycles keeps the names between its start and the place where it is.  When
it meets a name a second time, the part of the trail from that name on is the cycle.
-/

namespace RowTypes

/-- The places on the way from the start of a walk to where it is now, the start first. -/
structure Trail (α : Type) where
  items : List α := []
  deriving Repr, DecidableEq

namespace Trail

variable {α : Type}

def push (t : Trail α) (a : α) : Trail α := ⟨t.items ++ [a]⟩

/-- One step back: the last place and the trail without it, unless the trail is empty. -/
def pop? (t : Trail α) : Option (α × Trail α) :=
  t.items.getLast?.map fun a => (a, ⟨t.items.dropLast⟩)

def length (t : Trail α) : Nat := t.items.length

/-- Whether the walk is below `a`. -/
def contains [DecidableEq α] (t : Trail α) (a : α) : Bool := decide (a ∈ t.items)

/-- The places from the first visit of `a` on; none when `a` was not visited. -/
def since [DecidableEq α] (t : Trail α) (a : α) : List α := t.items.dropWhile fun b => b ≠ a

/-- A step back undoes a step down. -/
theorem pop?_push (t : Trail α) (a : α) : (t.push a).pop? = some (a, t) := by
  simp [push, pop?]

end Trail

end RowTypes
