import RowTypes.Text.Matcher

/-!
# What templates capture

A part of a message that stands in quotes, and holds none itself, ends at the next quote.  So a
template that goes on with a quote behind a captured part captures that part and nothing else,
whether it looks for the shortest or for the longest one.  A word ends at the quote as well, and
what a template captures last ends with the text.

A template says nothing about texts that do not begin as it does.  How both begin is compared
without looking at what is behind, so that a whole list of templates can be passed over at once.
-/

namespace RowTypes.Text

variable {p : Char → Bool} {rest : List Char → Option Parts} {part cs : List Char} {parts : Parts}
  {s : String} {ps : List Piece} {q : Char}

/-! ## Texts that have to stand where they are -/

theorem dropStart_append (s cs : List Char) : dropStart (· == ·) s (s ++ cs) = some cs := by
  induction s with
  | nil => rfl
  | cons c s ih => simpa [dropStart] using ih

theorem capture_text (s : String) (ps : List Piece) (cs : List Char) :
    capture (.text s :: ps) (s.toList ++ cs) = capture ps cs := by
  rw [capture, Piece.capture, dropStart_append, Option.bind_some]

theorem capture_folded (hs : ∀ c ∈ s.toList, foldsTo c c = true) (ps : List Piece)
    (cs : List Char) : capture (.folded s :: ps) (s.toList ++ cs) = capture ps cs := by
  have hdrop : ∀ s : List Char, (∀ c ∈ s, foldsTo c c = true) →
      dropStart foldsTo s (s ++ cs) = some cs := by
    intro s hs
    induction s with
    | nil => rfl
    | cons c s ih =>
        obtain ⟨hc, hs⟩ := List.forall_mem_cons.1 hs
        rw [List.cons_append, dropStart, if_pos hc, ih hs]
  rw [capture, Piece.capture, hdrop _ hs, Option.bind_some]

/-- A text that begins with a character is not found where another one stands. -/
theorem capture_text_of_ne {c : Char} (hs : s.toList.head? = some q) (hc : c ≠ q) :
    capture (.text s :: ps) (c :: cs) = none := by
  obtain ⟨tail, hs⟩ := List.head?_eq_some_iff.1 hs
  rw [capture, Piece.capture, hs, dropStart, if_neg (by simpa using hc), Option.bind_none]

theorem capture_text_nil (hs : s.toList.head? = some q) : capture (.text s :: ps) [] = none := by
  obtain ⟨tail, hs⟩ := List.head?_eq_some_iff.1 hs
  rw [capture, Piece.capture, hs, dropStart, Option.bind_none]

/-! ## Runs up to a mark -/

/-- Where nothing fits at a character the run goes on. -/
theorem shortestRun_skip {c : Char} (hc : p c = true) (hrest : rest (c :: cs) = none) :
    shortestRun p rest (c :: cs) = (shortestRun p rest cs).map (addToFirst c) := by
  rw [shortestRun_cons, hrest, if_pos hc, Option.map_none, Option.none_or]

/-- The shortest run ends at the first mark if what follows fits there, and nothing fits before. -/
theorem shortestRun_until (hrest : ∀ c cs, c ≠ q → rest (c :: cs) = none)
    (hpart : ∀ c ∈ part, c ≠ q ∧ p c = true) (h : rest (q :: cs) = some parts) :
    shortestRun p rest (part ++ q :: cs) = some (part :: parts) := by
  induction part with
  | nil => rw [List.nil_append, shortestRun_cons, h, Option.map_some, Option.some_or]
  | cons c part ih =>
      obtain ⟨hc, hpart⟩ := List.forall_mem_cons.1 hpart
      rw [List.cons_append, shortestRun_skip hc.2 (hrest _ _ hc.1), ih hpart]
      rfl

/-- There is no run where nothing fits behind it. -/
theorem shortestRun_pass (hrest : ∀ c cs, c ≠ q → rest (c :: cs) = none)
    (hpart : ∀ c ∈ part, c ≠ q) (h : shortestRun p rest cs = none) :
    shortestRun p rest (part ++ cs) = none := by
  induction part with
  | nil => exact h
  | cons c part ih =>
      obtain ⟨hc, hpart⟩ := List.forall_mem_cons.1 hpart
      rw [List.cons_append, shortestRun_cons, hrest _ _ hc, ih hpart]
      split <;> rfl

theorem shortestRun_pass_mark (hq : rest (q :: cs) = none) (h : shortestRun p rest cs = none) :
    shortestRun p rest (q :: cs) = none := by
  rw [shortestRun_cons, hq, h]
  split <;> rfl

/-- There is no run in front of a mark where no mark stands. -/
theorem longestRun_none (hrest : ∀ c cs, c ≠ q → rest (c :: cs) = none) (hnil : rest [] = none)
    (hcs : ∀ c ∈ cs, c ≠ q) : longestRun p rest cs = none := by
  induction cs with
  | nil => rw [longestRun_nil, hnil, Option.map_none]
  | cons c cs ih =>
      obtain ⟨hc, hcs⟩ := List.forall_mem_cons.1 hcs
      rw [longestRun_cons, hrest _ _ hc, ih hcs]
      split <;> rfl

/-- The longest run ends at the last mark if what follows fits there. -/
theorem longestRun_until (hrest : ∀ c cs, c ≠ q → rest (c :: cs) = none) (hnil : rest [] = none)
    (hpart : ∀ c ∈ part, p c = true) (hcs : ∀ c ∈ cs, c ≠ q) (h : rest (q :: cs) = some parts) :
    longestRun p rest (part ++ q :: cs) = some (part :: parts) := by
  induction part with
  | nil =>
      rw [List.nil_append, longestRun_cons, longestRun_none hrest hnil hcs, h]
      split <;> rfl
  | cons c part ih =>
      obtain ⟨hc, hpart⟩ := List.forall_mem_cons.1 hpart
      rw [List.cons_append, longestRun_cons, if_pos hc, ih hpart]
      rfl

/-- The longest run ends where its class does. -/
theorem longestRun_stop (hpart : ∀ c ∈ part, p c = true) (hq : p q = false)
    (h : rest (q :: cs) = some parts) :
    longestRun p rest (part ++ q :: cs) = some (part :: parts) := by
  induction part with
  | nil => rw [List.nil_append, longestRun_cons, hq, h]; rfl
  | cons c part ih =>
      obtain ⟨hc, hpart⟩ := List.forall_mem_cons.1 hpart
      rw [List.cons_append, longestRun_cons, if_pos hc, ih hpart]
      rfl

/-- The longest run takes the whole text if nothing has to follow it. -/
theorem longestRun_all (hcs : ∀ c ∈ cs, p c = true) (h : rest [] = some parts) :
    longestRun p rest cs = some (cs :: parts) := by
  induction cs with
  | nil => rw [longestRun_nil, h]; rfl
  | cons c cs ih =>
      obtain ⟨hc, hcs⟩ := List.forall_mem_cons.1 hcs
      rw [longestRun_cons, if_pos hc, ih hcs]
      rfl

/-- A run that may not be empty is a longest run, unless it would be empty. -/
theorem nonemptyRun_eq (h : longestRun p rest cs = some (part :: parts)) (hpart : part ≠ []) :
    nonemptyRun p rest cs = some (part :: parts) := by
  cases cs with
  | nil =>
      rw [longestRun_nil] at h
      obtain ⟨_, -, heq⟩ := Option.map_eq_some_iff.1 h
      exact absurd (List.cons.inj heq).1.symm hpart
  | cons c cs =>
      rw [longestRun_cons] at h
      rw [nonemptyRun_cons]
      split at h
      · next hc =>
          rw [if_pos hc]
          rcases Option.or_eq_some_iff.1 h with h | ⟨-, h⟩
          · exact h
          · obtain ⟨_, -, heq⟩ := Option.map_eq_some_iff.1 h
            exact absurd (List.cons.inj heq).1.symm hpart
      · obtain ⟨_, -, heq⟩ := Option.map_eq_some_iff.1 (Option.none_or.symm.trans h)
        exact absurd (List.cons.inj heq).1.symm hpart

/-! ## Parts in quotes -/

/-- A part of a message in one line and without quotes. -/
def Unquoted (cs : List Char) : Prop := ∀ c ∈ cs, c ≠ '\'' ∧ inLine c = true

/-- What follows a captured part in quotes: a text that begins with the quote. -/
def closes (s : String) : Bool := s.toList.head? == some '\''

theorem exists_of_closes (hs : closes s = true) : ∃ tail, s.toList = '\'' :: tail :=
  List.head?_eq_some_iff.1 (beq_iff_eq.1 hs)

theorem capture_closing_of_ne (hs : closes s = true) (ps : List Piece) (c : Char)
    (cs : List Char) (hc : c ≠ '\'') : capture (.text s :: ps) (c :: cs) = none :=
  capture_text_of_ne (beq_iff_eq.1 hs) hc

/-- The shortest part up to a quote. -/
theorem capture_shortest (hs : closes s = true) (hpart : Unquoted part)
    (h : capture ps cs = some parts) :
    capture (.shortest :: .text s :: ps) (part ++ (s.toList ++ cs)) = some (part :: parts) := by
  obtain ⟨tail, htail⟩ := exists_of_closes hs
  rw [← capture_text s] at h
  rw [htail] at h ⊢
  exact shortestRun_until (capture_closing_of_ne hs ps) hpart h

/-- The longest part up to a quote, if no quote follows behind it. -/
theorem capture_longest (hs : closes s = true) (hpart : ∀ c ∈ part, inLine c = true)
    (htail : ∀ c ∈ s.toList.tail ++ cs, c ≠ '\'') (h : capture ps cs = some parts) :
    capture (.longest :: .text s :: ps) (part ++ (s.toList ++ cs)) = some (part :: parts) := by
  obtain ⟨tail, heq⟩ := exists_of_closes hs
  rw [← capture_text s] at h
  rw [heq] at h htail ⊢
  exact longestRun_until (capture_closing_of_ne hs ps) (capture_text_nil (beq_iff_eq.1 hs)) hpart
    htail h

/-- A word up to a quote. -/
theorem capture_word (hs : closes s = true) (hpart : ∀ c ∈ part, isWordChar c = true)
    (hne : part ≠ []) (h : capture ps cs = some parts) :
    capture (.word :: .text s :: ps) (part ++ (s.toList ++ cs)) = some (part :: parts) := by
  obtain ⟨tail, htail⟩ := exists_of_closes hs
  rw [← capture_text s] at h
  rw [htail] at h ⊢
  exact nonemptyRun_eq (longestRun_stop hpart (by decide) h) hne

/-- What stands in front of the first colon is passed over. -/
theorem capture_beforeColon (hpart : ∀ c ∈ part, c ≠ ':')
    (h : capture ps (':' :: cs) = some parts) :
    capture (.beforeColon :: ps) (part ++ ':' :: cs) = some parts := by
  have hrun : longestRun (· != ':') (capture ps) (part ++ ':' :: cs) = some (part :: parts) :=
    longestRun_stop (fun c hc => bne_iff_ne.2 (hpart c hc)) rfl h
  rw [capture, Piece.capture, hrun]
  rfl

/-! ## Parts at the end -/

theorem capture_longest_end (h : ∀ c ∈ cs, inLine c = true) :
    capture [.longest] cs = some [cs] := longestRun_all h rfl

theorem capture_digits_end (h : ∀ c ∈ cs, c.isDigit = true) (hne : cs ≠ []) :
    capture [.digits] cs = some [cs] := nonemptyRun_eq (longestRun_all h rfl) hne

theorem capture_tail_end (h : ∀ c ∈ cs, inLine c = true) :
    capture [.tail] (':' :: ' ' :: cs) = some [cs] := by
  have hline : longestRun inLine (capture []) cs = some [cs] := longestRun_all h rfl
  show ((some cs).bind (longestRun inLine (capture []))).or _ = _
  rw [Option.bind_some, hline, Option.some_or]

/-! ## Templates for other texts -/

/-- Whether two texts can begin alike: neither differs from the other before its end. -/
def agrees (same : Char → Char → Bool) : List Char → List Char → Bool
  | s :: ss, c :: cs => same c s && agrees same ss cs
  | _, _ => true

theorem dropStart_of_not_agrees {same : Char → Char → Bool} : ∀ {s opening : List Char},
    agrees same s opening = false → dropStart same s (opening ++ cs) = none
  | [], _, h => by simp [agrees] at h
  | _ :: _, [], h => by simp [agrees] at h
  | a :: s, c :: opening, h => by
      rw [agrees, Bool.and_eq_false_iff] at h
      rw [List.cons_append, dropStart]
      split
      · next hc => exact dropStart_of_not_agrees (h.resolve_left (by simp [hc]))
      · rfl

/-- Whether a piece may match at the start of a text that begins as given. -/
def Piece.mayOpen (opening : List Char) : Piece → Bool
  | .text s => agrees (· == ·) s.toList opening
  | .oneOf ss => ss.any fun s => agrees (· == ·) s.toList opening
  | .folded s => agrees foldsTo s.toList opening
  | _ => true

/-- Whether a template may match a text that begins as given. -/
def mayMatch (opening : List Char) (template : List Piece) : Bool :=
  template.head?.all (·.mayOpen opening)

theorem capture_of_not_mayMatch {opening : List Char} (h : mayMatch opening ps = false) :
    capture ps (opening ++ cs) = none := by
  cases ps with
  | nil => cases h
  | cons piece ps =>
      have hpiece : piece.mayOpen opening = false := h
      rw [capture]
      cases piece with
      | text s =>
          rw [Piece.capture, dropStart_of_not_agrees hpiece, Option.bind_none]
      | folded s =>
          rw [Piece.capture, dropStart_of_not_agrees hpiece, Option.bind_none]
      | oneOf ss =>
          refine List.findSome?_eq_none_iff.2 fun s hs => ?_
          have hdisagree := List.any_eq_false.1 hpiece s hs
          rw [dropStart_of_not_agrees (Bool.eq_false_iff.2 hdisagree), Option.bind_none]
      | _ => cases hpiece

end RowTypes.Text
