import RowTypes.Text.Template
import RowTypes.Text.Track

/-!
# Matching at every place at once

A search that follows `capture` to the letter matches the end of a template again and again at
the same place of the text, once for each way in which the pieces in front of it lead there.
The matcher here starts with the last piece and keeps, as a track, what the pieces so far
capture from each place on.  One more piece then takes one walk along the track, so that the work
grows with the length of the text and not with a power of it.  What is captured is the same:
`captureOnce_eq` says so, and rests on one law for each piece (`Piece.track_of`).
-/

namespace RowTypes.Text

/-- Puts a character in front of the first captured part. -/
def addToFirst (c : Char) : Parts → Parts
  | [] => []
  | part :: parts => (c :: part) :: parts

theorem cutsWithin_nil (p : Char → Bool) : cutsWithin p [] = [([], [])] := rfl

/-- A run is empty, or its first character is of the class and the others are a run. -/
theorem cutsWithin_cons (p : Char → Bool) (c : Char) (cs : List Char) :
    cutsWithin p (c :: cs) =
      ([], c :: cs) ::
        if p c then (cutsWithin p cs).map fun cut => (c :: cut.1, cut.2) else [] := by
  cases h : p c <;>
    simp [cutsWithin, cuts, List.filter_cons, List.filter_map, Function.comp_def, h]

theorem findSome?_addToFirst (c : Char) (rest : List Char → Option Parts)
    (ways : List (List Char × List Char)) :
    (ways.findSome? fun cut => (rest cut.2).map ((c :: cut.1) :: ·)) =
      (ways.findSome? fun cut => (rest cut.2).map (cut.1 :: ·)).map (addToFirst c) := by
  induction ways with
  | nil => rfl
  | cons cut ways ih =>
    cases h : rest cut.2 <;> simp [h, ih, addToFirst]

theorem shortestRun_nil (p : Char → Bool) (rest : List Char → Option Parts) :
    shortestRun p rest [] = (rest []).map ([] :: ·) := by
  cases h : rest [] <;> simp [shortestRun, cutsWithin_nil, h]

theorem shortestRun_cons (p : Char → Bool) (rest : List Char → Option Parts) (c : Char)
    (cs : List Char) :
    shortestRun p rest (c :: cs) =
      ((rest (c :: cs)).map ([] :: ·)).or
        (if p c then (shortestRun p rest cs).map (addToFirst c) else none) := by
  cases hp : p c <;> cases hr : rest (c :: cs) <;>
    simp [shortestRun, cutsWithin_cons, List.findSome?_map, Function.comp_def, hp, hr,
      findSome?_addToFirst]

theorem longestRun_nil (p : Char → Bool) (rest : List Char → Option Parts) :
    longestRun p rest [] = (rest []).map ([] :: ·) := by
  cases h : rest [] <;> simp [longestRun, cutsWithin_nil, h]

theorem longestRun_cons (p : Char → Bool) (rest : List Char → Option Parts) (c : Char)
    (cs : List Char) :
    longestRun p rest (c :: cs) =
      (if p c then (longestRun p rest cs).map (addToFirst c) else none).or
        ((rest (c :: cs)).map ([] :: ·)) := by
  cases hp : p c <;> cases hr : rest (c :: cs) <;>
    simp [longestRun, cutsWithin_cons, List.findSome?_append, ← List.map_reverse,
      List.findSome?_map, Function.comp_def, hp, hr, findSome?_addToFirst]

theorem nonemptyRun_nil (p : Char → Bool) (rest : List Char → Option Parts) :
    nonemptyRun p rest [] = none := by
  simp [nonemptyRun, cutsWithin_nil]

theorem nonemptyRun_cons (p : Char → Bool) (rest : List Char → Option Parts) (c : Char)
    (cs : List Char) :
    nonemptyRun p rest (c :: cs) =
      if p c then (longestRun p rest cs).map (addToFirst c) else none := by
  cases hp : p c <;>
    simp [nonemptyRun, longestRun, cutsWithin_cons, List.findSome?_append, ← List.map_reverse,
      List.findSome?_map, Function.comp_def, hp, findSome?_addToFirst]

namespace Track

/-- The answer behind a text that has to stand here. -/
def behindText (same : Char → Char → Bool) : List Char → Track (Option Parts) → Option Parts
  | [], t => t.here
  | _ :: _, .last _ => none
  | s :: ss, .next _ c behind => if same c s then behindText same ss behind else none

theorem behindText_of (same : Char → Char → Bool) (s : List Char)
    (rest : List Char → Option Parts) (cs : List Char) :
    behindText same s (of rest cs) = (dropStart same s cs).bind rest := by
  induction s generalizing cs with
  | nil => simp [behindText, dropStart]
  | cons a s ih =>
    cases cs with
    | nil => rfl
    | cons c cs => cases h : same c a <;> simp [of, behindText, dropStart, h, ih]

/-- The shortest runs: each place ends the run, or else adds its character to the run behind. -/
def shortestRun (p : Char → Bool) : Track (Option Parts) → Track (Option Parts)
  | .last answer => .last (answer.map ([] :: ·))
  | .next answer c behind =>
    let runs := shortestRun p behind
    .next ((answer.map ([] :: ·)).or (if p c then runs.here.map (addToFirst c) else none)) c runs

theorem shortestRun_of (p : Char → Bool) (rest : List Char → Option Parts) (cs : List Char) :
    shortestRun p (of rest cs) = of (Text.shortestRun p rest) cs := by
  induction cs with
  | nil => simp [of, shortestRun, shortestRun_nil]
  | cons c cs ih => simp [of, shortestRun, ih, shortestRun_cons]

/-- The longest runs: each place adds its character to the run behind, or else ends the run. -/
def longestRun (p : Char → Bool) : Track (Option Parts) → Track (Option Parts)
  | .last answer => .last (answer.map ([] :: ·))
  | .next answer c behind =>
    let runs := longestRun p behind
    .next ((if p c then runs.here.map (addToFirst c) else none).or (answer.map ([] :: ·))) c runs

theorem longestRun_of (p : Char → Bool) (rest : List Char → Option Parts) (cs : List Char) :
    longestRun p (of rest cs) = of (Text.longestRun p rest) cs := by
  induction cs with
  | nil => simp [of, longestRun, longestRun_nil]
  | cons c cs ih => simp [of, longestRun, ih, longestRun_cons]

/-- The runs that start with the character at the first place; the track holds the runs that
may be empty. -/
def addHere (p : Char → Bool) : Track (Option Parts) → Option Parts
  | .last _ => none
  | .next _ c behind => if p c then behind.here.map (addToFirst c) else none

theorem addHere_of (p : Char → Bool) (rest : List Char → Option Parts) (cs : List Char) :
    addHere p (of (Text.longestRun p rest) cs) = nonemptyRun p rest cs := by
  cases cs with
  | nil => simp [of, addHere, nonemptyRun_nil]
  | cons c cs => simp [of, addHere, nonemptyRun_cons]

end Track

/-- What a piece and the pieces behind it capture from each place on; the track that is given
says it of the pieces behind. -/
def Piece.track (t : Track (Option Parts)) : Piece → Track (Option Parts)
  | .text s =>
    let s := s.toList
    t.everywhere (·.behindText (· == ·) s)
  | .oneOf ss =>
    let ss := ss.map String.toList
    t.everywhere fun t => ss.findSome? fun s => t.behindText (· == ·) s
  | .folded s =>
    let s := s.toList
    t.everywhere (·.behindText foldsTo s)
  | .optional o => t.everywhere fun t => (t.behindText (· == ·) [o]).or t.here
  | .shortest => t.shortestRun inLine
  | .longest => t.longestRun inLine
  | .word => (t.longestRun isWordChar).everywhere (·.addHere isWordChar)
  | .digits => (t.longestRun Char.isDigit).everywhere (·.addHere Char.isDigit)
  | .beforeColon => (t.longestRun (· != ':')).everywhere (·.here.map List.tail)
  | .tail =>
    ((t.longestRun inLine).everywhere (·.behindText (· == ·) [':', ' '])).zipWith
      (fun line answer => line.or (answer.map ([] :: ·))) t

theorem Piece.track_of (piece : Piece) (rest : List Char → Option Parts) (cs : List Char) :
    piece.track (.of rest cs) = .of (piece.capture rest) cs := by
  cases piece <;>
    simp [Piece.track, Piece.capture, Track.everywhere_of, Track.zipWith_of, Track.behindText_of,
      Track.shortestRun_of, Track.longestRun_of, Track.addHere_of, List.findSome?_map,
      Function.comp_def]

/-- What a template captures from each place of a text on. -/
def captureTrack (cs : List Char) : List Piece → Track (Option Parts)
  | [] => .of (capture []) cs
  | piece :: pieces => piece.track (captureTrack cs pieces)

theorem captureTrack_eq (cs : List Char) (pieces : List Piece) :
    captureTrack cs pieces = .of (capture pieces) cs := by
  induction pieces with
  | nil => rfl
  | cons piece pieces ih => rw [captureTrack, ih, Piece.track_of]; rfl

/-- Matches a whole text against a template, each piece once at each place. Texts at the start
of the template are looked for first, since most templates fail there. -/
def captureOnce : List Piece → List Char → Option Parts
  | .text s :: pieces, cs => (dropStart (· == ·) s.toList cs).bind (captureOnce pieces)
  | .folded s :: pieces, cs => (dropStart foldsTo s.toList cs).bind (captureOnce pieces)
  | pieces, cs => (captureTrack cs pieces).here

/-- The matcher captures what the template says. -/
theorem captureOnce_eq (pieces : List Piece) (cs : List Char) :
    captureOnce pieces cs = capture pieces cs := by
  induction pieces generalizing cs with
  | nil => rw [captureOnce, captureTrack_eq, Track.here_of] <;> simp
  | cons piece pieces ih =>
    cases piece with
    | text s => simp [captureOnce, capture, Piece.capture, funext ih]
    | folded s => simp [captureOnce, capture, Piece.capture, funext ih]
    | _ => rw [captureOnce, captureTrack_eq, Track.here_of] <;> simp

/-- The captured parts of the first template that matches. -/
def captureFirst (templates : List (List Piece)) (cs : List Char) : Option (List String) :=
  templates.findSome? fun t => (captureOnce t cs).map fun parts => parts.map String.ofList

end RowTypes.Text
