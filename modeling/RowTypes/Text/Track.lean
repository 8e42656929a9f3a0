/-!
# Tracks

A search that asks the same question at many places of one text answers it once for each place
and keeps the answers.  A track is a text with an answer at each of its places: in front of each
character, and at the end.  `Track.of f cs` holds what `f` says of the text that starts at each
place of `cs`, and every operation below has its law on such tracks: it gives the track of a
function again.
-/

namespace RowTypes.Text

/-- A text with an answer at each of its places. -/
inductive Track (α : Type) where
  /-- The end of the text. -/
  | last (answer : α)
  /-- A place in front of a character, and the places behind it. -/
  | next (answer : α) (c : Char) (behind : Track α)

namespace Track

variable {α β γ : Type}

/-- What a function says of the text that starts at each place. -/
def of (f : List Char → α) : List Char → Track α
  | [] => .last (f [])
  | c :: cs => .next (f (c :: cs)) c (of f cs)

/-- The answer at the first place. -/
def here : Track α → α
  | .last answer => answer
  | .next answer _ _ => answer

@[simp]
theorem here_of (f : List Char → α) (cs : List Char) : (of f cs).here = f cs := by
  cases cs <;> rfl

/-- Answers anew at each place from the track that starts there. -/
def everywhere (g : Track α → β) : Track α → Track β
  | .last answer => .last (g (.last answer))
  | .next answer c behind => .next (g (.next answer c behind)) c (everywhere g behind)

theorem everywhere_of (g : Track α → β) (f : List Char → α) (cs : List Char) :
    everywhere g (of f cs) = of (fun cs => g (of f cs)) cs := by
  induction cs with
  | nil => rfl
  | cons c cs ih => simp only [of, everywhere, ih]

/-- Joins the answers of two tracks of one text, place by place. -/
def zipWith (g : α → β → γ) : Track α → Track β → Track γ
  | .next a c behind, .next b _ behind' => .next (g a b) c (zipWith g behind behind')
  | t, u => .last (g t.here u.here)

theorem zipWith_of (g : α → β → γ) (f : List Char → α) (h : List Char → β) (cs : List Char) :
    zipWith g (of f cs) (of h cs) = of (fun cs => g (f cs) (h cs)) cs := by
  induction cs with
  | nil => rfl
  | cons c cs ih => simp only [of, zipWith, ih]

end Track

end RowTypes.Text
