import Mathlib.Data.List.Basic
import Mathlib.Data.List.TakeWhile
import Mathlib.Tactic.NormNum
import RowTypes.Diagnostic.Recognize
import RowTypes.Proofs.Templates

/-!
# Messages are read back

The message of a diagnostic names its parts in quotes, and quotes are what a text is read back by.
So a cause can be read back from its message if no part holds a quote, each part is there, and
nothing of it is lost at its ends.  Parts that are written in a list must not hold what lists are
set off by: a comma between missing patterns, an arrow between the names on a cycle.

The shapes of messages are tried in order.  That no earlier shape takes a message is seen from how
the message begins, with one exception: both failures of subtyping and failures of classes begin
with a type in quotes, and are told apart by what comes behind it.
-/

namespace RowTypes

namespace Text

variable {p : Char → Bool} {cs ds : List Char} {s : String}

/-! ## Tidy texts -/

/-- A text that is there, in one line, without quotes, and without white space at its ends. -/
structure Tidy (s : String) : Prop where
  unquoted : Unquoted s.toList
  trimmed : trimBlank s.toList = s.toList
  ne : s ≠ ""

/-- A text that is a word. -/
structure IsWord (s : String) : Prop where
  chars : ∀ c ∈ s.toList, isWordChar c = true
  ne : s ≠ ""

theorem toList_ne_nil (h : s ≠ "") : s.toList ≠ [] := fun hnil =>
  h (String.toList_eq_nil_iff.1 hnil)

/-- No white space ends a text. -/
def Solid (cs : List Char) : Prop := ∀ c, cs.getLast? = some c → isBlank c = false

theorem dropWhile_of_head (h : ∀ c, cs.head? = some c → p c = false) : cs.dropWhile p = cs := by
  cases cs with
  | nil => rfl
  | cons c cs => rw [List.dropWhile_cons, if_neg (by simp [h c rfl])]

theorem trimBy_of_ends (hhead : ∀ c, cs.head? = some c → p c = false)
    (hlast : ∀ c, cs.getLast? = some c → p c = false) : trimBy p cs = cs := by
  have hreverse : cs.reverse.dropWhile p = cs.reverse :=
    dropWhile_of_head fun c hc => hlast c (List.head?_reverse.symm.trans hc)
  rw [trimBy, dropWhile_of_head hhead, hreverse, List.reverse_reverse]

theorem trimBlank_cons {c : Char} (hc : isBlank c = false) (hcs : Solid (c :: cs)) :
    trimBlank (c :: cs) = c :: cs :=
  trimBy_of_ends (by rintro _ ⟨⟩; exact hc) hcs

theorem trimBlank_blank : trimBlank (' ' :: cs) = trimBlank cs := rfl

/-- What trimming leaves as it is ends without white space. -/
theorem solid_of_trimBlank (h : trimBlank cs = cs) : Solid cs := by
  have hdrop : cs.dropWhile isBlank = cs := by
    refine (List.dropWhile_suffix _).eq_of_length_le ?_
    calc cs.length = (trimBlank cs).length := by rw [h]
      _ ≤ (cs.dropWhile isBlank).reverse.length := by
          rw [trimBlank, trimBy, List.length_reverse]
          exact (List.dropWhile_sublist _).length_le
      _ = (cs.dropWhile isBlank).length := List.length_reverse
  have hreverse : cs.reverse.dropWhile isBlank = cs.reverse := by
    rw [trimBlank, trimBy, hdrop] at h
    exact (List.reverse_reverse _).symm.trans (congrArg List.reverse h)
  intro c hc
  obtain ⟨tail, htail⟩ := List.head?_eq_some_iff.1 (List.head?_reverse.trans hc)
  rw [htail, List.dropWhile_eq_self_iff] at hreverse
  exact Bool.eq_false_iff.2 (hreverse (Nat.succ_pos _))

theorem Solid.append (h : Solid ds) (hne : ds ≠ []) (cs : List Char) : Solid (cs ++ ds) := by
  intro c hc
  rw [List.getLast?_append_of_ne_nil cs hne] at hc
  exact h c hc

theorem isBlank_of_isWordChar {c : Char} (h : isWordChar c = true) : isBlank c = false := by
  have hword : (decide (65 ≤ c.val ∧ c.val ≤ 90) || (decide (97 ≤ c.val) && decide (c.val ≤ 122)) ||
      (decide (48 ≤ c.val) && decide (c.val ≤ 57)) || c == '_') = true := h
  have hnat : c.toNat = c.val.toNat := rfl
  have hrange : 48 ≤ c.toNat ∧ c.toNat ≤ 122 := by
    simp only [Bool.or_eq_true, Bool.and_eq_true, decide_eq_true_eq, beq_iff_eq,
      UInt32.le_iff_toNat_le] at hword
    rcases hword with ((h | h) | h) | rfl
    · simp at h
      omega
    · simp at h
      omega
    · simp at h
      omega
    · decide
  simp [isBlank]
  omega

theorem solid_of_word (h : ∀ c ∈ cs, isWordChar c = true) : Solid cs :=
  fun c hc => isBlank_of_isWordChar (h c (List.mem_of_getLast? hc))

theorem Tidy.solid (h : Tidy s) : Solid s.toList := solid_of_trimBlank h.trimmed

theorem Tidy.toList_ne_nil (h : Tidy s) : s.toList ≠ [] := Text.toList_ne_nil h.ne

theorem Tidy.inLine (h : Tidy s) : ∀ c ∈ s.toList, Text.inLine c = true :=
  fun c hc => (h.unquoted c hc).2

theorem IsWord.toList_ne_nil (h : IsWord s) : s.toList ≠ [] := Text.toList_ne_nil h.ne

end Text

namespace MessageShape

open Text

variable {a : Char} {sep : List Char}

/-! ## Lists in messages -/

theorem splitFrom_nil (n : Nat) (part : List Char) : splitFrom sep n part [] = [part.reverse] := by
  cases n <;> rfl

/-- The part that has begun takes up what does not hold the start of the separator. -/
theorem splitFrom_append {cs : List Char} : ∀ (item part : List Char) (n : Nat),
    (∀ c ∈ item, c ≠ a) → item.length ≤ n →
    splitFrom (a :: sep) n part (item ++ cs) =
      splitFrom (a :: sep) (n - item.length) (item.reverse ++ part) cs
  | [], part, n, _, _ => rfl
  | c :: item, part, n + 1, hitem, hn => by
      obtain ⟨hc, hitem⟩ := List.forall_mem_cons.1 hitem
      have hno : dropStart (· == ·) (a :: sep) (c :: (item ++ cs)) = none := by
        rw [dropStart, if_neg (by simpa using hc)]
      rw [List.cons_append, splitFrom, hno]
      dsimp only
      rw [splitFrom_append item (c :: part) n hitem (Nat.le_of_succ_le_succ hn)]
      simp

/-- A separator ends a part. -/
theorem splitFrom_separator (n : Nat) (part cs : List Char) :
    splitFrom (a :: sep) (n + 1) part (a :: (sep ++ cs)) =
      part.reverse :: splitFrom (a :: sep) n [] cs := by
  have hyes : dropStart (· == ·) (a :: sep) (a :: (sep ++ cs)) = some cs :=
    dropStart_append (a :: sep) cs
  rw [splitFrom, hyes]

/-- Parts that do not hold the start of a separator are told apart where it stands. -/
theorem splitFrom_intercalate : ∀ (part : List Char) (parts : List (List Char)) (n : Nat),
    (∀ part' ∈ part :: parts, ∀ c ∈ part', c ≠ a) →
    ((a :: sep).intercalate (part :: parts)).length ≤ n →
    splitFrom (a :: sep) n [] ((a :: sep).intercalate (part :: parts)) = part :: parts
  | part, [], n, hparts, hn => by
      rw [List.intercalate_singleton] at hn ⊢
      have happend : splitFrom (a :: sep) n [] (part ++ []) = _ :=
        splitFrom_append part [] n (hparts part (.head _)) hn
      rw [List.append_nil] at happend
      rw [happend, splitFrom_nil]
      simp
  | part, next :: parts, n, hparts, hn => by
      rw [List.intercalate_cons_cons, List.append_assoc] at hn ⊢
      rw [List.length_append] at hn
      rw [splitFrom_append part [] n (hparts part (.head _)) (by omega)]
      obtain ⟨m, hm⟩ : ∃ m, n - part.length = m + 1 :=
        ⟨n - part.length - 1, by simp at hn; omega⟩
      rw [hm, List.cons_append, splitFrom_separator,
        splitFrom_intercalate next parts m (fun part' h => hparts part' (.tail _ h))
          (by simp at hn ⊢; omega)]
      simp

theorem splitOn_intercalate {parts : List (List Char)} (hne : parts ≠ [])
    (hparts : ∀ part ∈ parts, ∀ c ∈ part, c ≠ a) :
    splitOn (a :: sep) ((a :: sep).intercalate parts) = parts := by
  obtain ⟨part, parts, rfl⟩ := List.exists_cons_of_ne_nil hne
  exact splitFrom_intercalate part parts _ hparts (Nat.le_refl _)

theorem intercalate_cons_head (c : Char) (part : List Char) (parts : List (List Char)) :
    sep.intercalate ((c :: part) :: parts) = c :: sep.intercalate (part :: parts) := by
  cases parts <;> simp [List.intercalate_cons_cons]

/-- A list is set off by commas alone if the blanks behind them count as part of what follows. -/
theorem intercalate_blank : ∀ (part : List Char) (parts : List (List Char)),
    [',', ' '].intercalate (part :: parts) =
      [','].intercalate (part :: parts.map (' ' :: ·))
  | _, [] => rfl
  | part, next :: parts => by
      rw [List.map_cons, List.intercalate_cons_cons, List.intercalate_cons_cons,
        intercalate_blank next parts, intercalate_cons_head]
      simp

theorem forall_mem_intercalate {P : Char → Prop} (hsep : ∀ c ∈ sep, P c) :
    ∀ {parts : List (List Char)}, (∀ part ∈ parts, ∀ c ∈ part, P c) →
      ∀ c ∈ sep.intercalate parts, P c
  | [], _ => by simp
  | [part], h => by simpa using h
  | part :: next :: parts, h => by
      intro c hc
      rw [List.intercalate_cons_cons, List.mem_append, List.mem_append] at hc
      rcases hc with (hc | hc) | hc
      · exact h part (.head _) c hc
      · exact hsep c hc
      · exact forall_mem_intercalate hsep (fun part' h' => h part' (.tail _ h')) c hc

/-- A list ends as its last part does. -/
theorem solid_intercalate {sep : List Char} : ∀ {parts : List (List Char)}, parts ≠ [] →
    (∀ part ∈ parts, Solid part ∧ part ≠ []) →
    Solid (sep.intercalate parts) ∧ sep.intercalate parts ≠ []
  | [part], _, h => by simpa using h
  | part :: next :: parts, _, h => by
      have hrest : Solid (sep.intercalate (next :: parts)) ∧
          sep.intercalate (next :: parts) ≠ [] :=
        solid_intercalate (List.cons_ne_nil next parts) fun part' h' => h part' (.tail _ h')
      rw [List.intercalate_cons_cons]
      exact ⟨hrest.1.append hrest.2 _, by simp [hrest.2]⟩

/-- One text of a list, as it is read. -/
def item? (item : List Char) : Option String :=
  match trimBlank item with
  | [] => none
  | item => some (String.ofList (trimBy (· == '\'') item))

theorem items_eq (s : String) : items s = (splitOn [','] s.toList).filterMap item? := rfl

theorem item?_of_tidy {s : String} {item : List Char} (hs : Tidy s)
    (hitem : trimBlank item = s.toList) : item? item = some s := by
  have hquotes : trimBy (· == '\'') s.toList = s.toList :=
    trimBy_of_ends (fun c hc => beq_false_of_ne (hs.unquoted c (List.mem_of_head? hc)).1)
      fun c hc => beq_false_of_ne (hs.unquoted c (List.mem_of_getLast? hc)).1
  rw [item?, hitem]
  split
  · next hnil => exact absurd hnil hs.toList_ne_nil
  · rw [hquotes, String.ofList_toList]

/-- A list of tidy texts without commas is read back. -/
theorem items_commas {missing : List String} (hne : missing ≠ [])
    (hmissing : ∀ s ∈ missing, Tidy s ∧ ',' ∉ s.toList) : items (commas missing) = missing := by
  obtain ⟨s, missing, rfl⟩ := List.exists_cons_of_ne_nil hne
  obtain ⟨hs, hmissing⟩ := List.forall_mem_cons.1 hmissing
  have hsplit : splitOn [','] (commas (s :: missing)).toList =
      s.toList :: missing.map fun s => ' ' :: s.toList := by
    rw [commas, String.toList_intercalate, List.map_cons,
      show ", ".toList = [',', ' '] from rfl, intercalate_blank, List.map_map]
    refine splitOn_intercalate (List.cons_ne_nil _ _) (List.forall_mem_cons.2 ⟨?_, ?_⟩)
    · rintro c hc rfl
      exact hs.2 hc
    · intro part hpart c hc
      obtain ⟨s', hs', rfl⟩ := List.mem_map.1 hpart
      rcases List.mem_cons.1 hc with rfl | hc
      · decide
      · rintro rfl
        exact (hmissing s' hs').2 hc
  have hrest : (missing.map fun s => ' ' :: s.toList).filterMap item? = missing := by
    have hitem : ∀ s' ∈ missing, item? (' ' :: s'.toList) = some s' := fun s' h =>
      item?_of_tidy (hmissing s' h).1 (trimBlank_blank.trans (hmissing s' h).1.trimmed)
    rw [List.filterMap_map]
    exact (List.filterMap_congr hitem).trans List.filterMap_some
  rw [items_eq, hsplit, List.filterMap_cons_some (item?_of_tidy hs.1 hs.1.trimmed), hrest]

/-- The names on a cycle are read back. -/
theorem cycle_arrows {names : List String} (hne : names ≠ []) (hnames : ∀ s ∈ names, IsWord s) :
    cycle (" -> ".intercalate names) = names := by
  have hsplit : splitOn " -> ".toList (" -> ".intercalate names).toList =
      names.map String.toList := by
    rw [String.toList_intercalate]
    refine splitOn_intercalate (a := ' ') (by simpa using hne) fun part hpart c hc => ?_
    obtain ⟨s, hs, rfl⟩ := List.mem_map.1 hpart
    rintro rfl
    exact absurd ((hnames s hs).chars _ hc) (by decide)
  have hnonempty : " -> ".intercalate names ≠ "" := by
    intro hempty
    obtain ⟨s, names, rfl⟩ := List.exists_cons_of_ne_nil hne
    rw [hempty] at hsplit
    have hhead : s.toList = [] := (List.cons.inj hsplit).1.symm
    exact (hnames s (.head _)).toList_ne_nil hhead
  rw [cycle, if_neg hnonempty, hsplit, List.map_map]
  simp

theorem toList_toString (n : Nat) : (toString (n : Int)).toList = Nat.toDigits 10 n := by
  show (Nat.repr n).toList = _
  rw [Nat.repr, String.toList_ofList]

theorem isDigit_of_mem_toString {n : Nat} {d : Char} (hd : d ∈ (toString (n : Int)).toList) :
    d.isDigit = true := by
  rw [toList_toString] at hd
  exact Nat.isDigit_of_mem_toDigits (by decide) (by decide) hd

/-- The number of a case is read back. -/
theorem number_toString {n : Nat} (hn : n ≤ maxNumber) : number (toString (n : Int)) = n := by
  have hfold : ∀ (ds : List Char) (m : Nat), (∀ d ∈ ds, d.isDigit = true) →
      ds.foldl (fun (n : Int) c => n * 10 + ((c.toNat : Int) - 48)) m =
        (Nat.ofDigitChars 10 ds m : Int) := by
    intro ds
    induction ds with
    | nil => exact fun _ _ => rfl
    | cons d ds ih =>
        intro m hds
        obtain ⟨hd, hds⟩ := List.forall_mem_cons.1 hds
        have hge : 48 ≤ d.toNat := by
          simp [Char.isDigit, UInt32.le_iff_toNat_le] at hd
          exact hd.1
        have hstep : (m : Int) * 10 + ((d.toNat : Int) - 48) =
            ((10 * m + (d.toNat - '0'.toNat) : Nat) : Int) := by
          have hzero : '0'.toNat = 48 := rfl
          omega
        rw [List.foldl_cons, hstep, ih _ hds]
        rfl
  have hread := hfold (toString (n : Int)).toList 0 fun d hd => isDigit_of_mem_toString hd
  have hvalue : Nat.ofDigitChars 10 (toString (n : Int)).toList 0 = n := by
    rw [toList_toString, Nat.ofDigitChars_toDigits (by decide) (by decide)]
  rw [hvalue] at hread
  have hle : (n : Int) ≤ (maxNumber : Int) := Int.ofNat_le.2 hn
  rw [number]
  exact (congrArg (min · (maxNumber : Int)) hread).trans (min_eq_left hle)

/-! ## Finding the shape -/

theorem captureFirst_of {wording : List Piece} {wordings : List (List Piece)} {cs : List Char}
    {texts : List String} (h : capture wording cs = some (texts.map String.toList)) :
    captureFirst (wording :: wordings) cs = some texts := by
  have htexts : (texts.map String.toList).map String.ofList = texts := by
    rw [List.map_map]
    exact (List.map_congr_left fun _ _ => String.ofList_toList).trans (List.map_id texts)
  have hfirst : (captureOnce wording cs).map (·.map String.ofList) = some texts := by
    rw [captureOnce_eq, h, Option.map_some, htexts]
  rw [captureFirst, List.findSome?_cons, hfirst]

theorem recognize?_of_captures {shape : MessageShape} {cs : List Char}
    (h : ∀ wording ∈ shape.wordings, capture wording cs = none) : shape.recognize? cs = none := by
  have hnone : captureFirst shape.wordings cs = none :=
    List.findSome?_eq_none_iff.2 fun wording hwording => by
      rw [captureOnce_eq, h wording hwording, Option.map_none]
  rw [recognize?, hnone, Option.bind_none]

/-- Whether some wording of a shape may match a text that begins as given. -/
def mayTake (opening : String) (shape : MessageShape) : Bool :=
  shape.wordings.any (mayMatch opening.toList)

theorem recognize?_of_not_mayTake {shape : MessageShape} {opening : String} {cs : List Char}
    (h : shape.mayTake opening = false) : shape.recognize? (opening.toList ++ cs) = none :=
  recognize?_of_captures fun wording hwording =>
    capture_of_not_mayMatch (Bool.eq_false_iff.2 (List.any_eq_false.1 h wording hwording))

/-- Whether a shape of the list takes no text that begins as given. -/
def passes (opening : String) (k : Nat) : Bool := (all[k]?).all (!mayTake opening ·)

theorem recognize?_of_passes {shape : MessageShape} {opening : String} {cs : List Char} {k : Nat}
    (h : passes opening k = true) (hshape : all[k]? = some shape) :
    shape.recognize? (opening.toList ++ cs) = none := by
  rw [passes, hshape] at h
  exact recognize?_of_not_mayTake (by simpa using h)

/-- A message is read by the first shape that takes it. -/
theorem ofMessage_of_first (n : Nat) (texts : List String) {message opening : String}
    {cs : List Char} {wording : List Piece} {wordings : List (List Piece)}
    {cause : List String → Option Cause} {c : Cause}
    (hmessage : message.toList = opening.toList ++ cs)
    (hsolid : Solid (opening.toList ++ cs))
    (hopening : opening.toList.head?.any (!isBlank ·) = true)
    (hshape : all[n]? = some ⟨wording :: wordings, cause⟩)
    (hpassed : ∀ k < n, ∀ shape, all[k]? = some shape →
      shape.recognize? (opening.toList ++ cs) = none)
    (hcapture : capture wording (opening.toList ++ cs) = some (texts.map String.toList))
    (hcause : cause texts = some c) : Cause.ofMessage message = c := by
  have htrim : trimBlank message.toList = opening.toList ++ cs := by
    obtain ⟨first, hfirst, hblank⟩ := (Option.any_eq_true _ _).1 hopening
    obtain ⟨tail, htail⟩ := List.head?_eq_some_iff.1 hfirst
    rw [htail] at hmessage hsolid ⊢
    rw [hmessage]
    exact trimBlank_cons (by simpa using hblank) hsolid
  have hfound : (⟨wording :: wordings, cause⟩ : MessageShape).recognize? (opening.toList ++ cs) =
      some c := by
    rw [recognize?, captureFirst_of hcapture]
    exact hcause
  have hlt : n < all.length := (List.getElem?_eq_some_iff.1 hshape).1
  have hsplit : all = all.take n ++ ⟨wording :: wordings, cause⟩ :: all.drop (n + 1) := by
    have hget : all[n] = ⟨wording :: wordings, cause⟩ := (List.getElem?_eq_some_iff.1 hshape).2
    rw [← hget, List.getElem_cons_drop, List.take_append_drop]
  have hbefore : (all.take n).findSome? (·.recognize? (opening.toList ++ cs)) = none := by
    refine List.findSome?_eq_none_iff.2 fun shape hmem => ?_
    obtain ⟨k, hk, hget⟩ := List.mem_iff_getElem.1 hmem
    rw [List.length_take] at hk
    refine hpassed k (lt_of_lt_of_le hk (min_le_left _ _)) shape ?_
    rw [← hget, List.getElem_take]
    exact List.getElem?_eq_getElem _
  have hsome : all.findSome? (·.recognize? (opening.toList ++ cs)) = some c := by
    rw [hsplit, List.findSome?_append, hbefore, Option.none_or, List.findSome?_cons, hfound]
  rw [Cause.ofMessage, htrim, hsome, Option.getD_some]

/-- The text that the first wording of a shape begins with. -/
def opening (shape : MessageShape) : String :=
  match shape.wordings with
  | (.text s :: _) :: _ | (.folded s :: _) :: _ => s
  | _ => ""

/-- Texts that begin like a shape are passed on by the shapes before it.  Only messages about
classes begin like those about subtyping. -/
theorem passes_opening {n k : Nat} {s : String} (hshape : (all[n]?).map opening = some s)
    (hne : s ≠ "") (hk : k < n) (hclass : n = 13 → k ≠ 10) : passes s k = true := by
  have hall : ∀ n < all.length, ∀ k < n, (n = 13 → k ≠ 10) →
      ((all[n]?).all fun shape => shape.opening == "" || passes shape.opening k) = true := by
    decide
  obtain ⟨shape, hget, rfl⟩ := Option.map_eq_some_iff.1 hshape
  have hpasses := hall n (List.getElem?_eq_some_iff.1 hget).1 k hk hclass
  rw [hget] at hpasses
  simpa [hne] using hpasses

/-- A message is read by the first shape that begins like it. -/
theorem ofMessage_of (n : Nat) (texts : List String) {message opening : String}
    {cs : List Char} {wording : List Piece} {wordings : List (List Piece)}
    {cause : List String → Option Cause} {c : Cause}
    (hmessage : message.toList = opening.toList ++ cs) (hsolid : Solid (opening.toList ++ cs))
    (hopening : opening.toList.head?.any (!isBlank ·) = true)
    (hshape : all[n]? = some ⟨wording :: wordings, cause⟩)
    (hopens : MessageShape.opening ⟨wording :: wordings, cause⟩ = opening) (hn : n ≠ 13)
    (hcapture : capture wording (opening.toList ++ cs) = some (texts.map String.toList))
    (hcause : cause texts = some c) : Cause.ofMessage message = c := by
  have hne : opening ≠ "" := by
    rintro rfl
    simp at hopening
  have hpassed : ∀ k < n, passes opening k = true := fun k hk =>
    passes_opening (by rw [hshape, Option.map_some, hopens]) hne hk fun h => absurd h hn
  exact ofMessage_of_first n texts hmessage hsolid hopening hshape
    (fun k hk _ hk' => recognize?_of_passes (hpassed k hk) hk') hcapture hcause

end MessageShape

namespace Cause

open Text MessageShape

/-- The texts of a cause can be told from what stands around them in its message. -/
inductive Legible : Cause → Prop where
  | syntaxError {m : String} : Tidy m → Legible (.syntaxError m)
  | typeMismatch {expected found reason : String} : Tidy expected → Tidy found →
      (reason = "" ∨ Tidy reason) → Legible (.typeMismatch expected found reason)
  | undefinedVariable {name : String} : IsWord name → Legible (.undefinedVariable name)
  | undefinedTypeVariable {name : String} : IsWord name → Legible (.undefinedTypeVariable name)
  | undefinedConstructor {name : String} : IsWord name → Legible (.undefinedConstructor name)
  | nonExhaustive {missing : List String} : missing ≠ [] →
      (∀ p ∈ missing, Tidy p ∧ ',' ∉ p.toList) → Legible (.nonExhaustive missing)
  | unreachablePattern {pattern : String} {case : Nat} : Tidy pattern → case ≤ maxNumber →
      Legible (.unreachablePattern pattern case)
  | contradictoryPattern {pattern reason : String} : Tidy pattern → Tidy reason →
      Legible (.contradictoryPattern pattern reason)
  | occursCheck {var type : String} : Tidy var → Tidy type → Legible (.occursCheck var type)
  | subtypeFailure {sub super reason : String} : Tidy sub → Tidy super →
      (reason = "" ∨ Tidy reason) → Legible (.subtypeFailure sub super reason)
  | mergeConflict {field first second : String} : Tidy field → Tidy first → Tidy second →
      Legible (.mergeConflict field first second)
  | notOfClass {type cls : String} : Tidy type → IsWord cls →
      Legible (.typeClassFailure type cls false)
  | unknownClass {cls : String} : IsWord cls → Legible (.typeClassFailure "" cls true)
  | duplicateDefinition {name : String} : IsWord name → Legible (.duplicateDefinition name)
  | circularTypeDefinition {name : String} {cycle : List String} : IsWord name → cycle ≠ [] →
      (∀ n ∈ cycle, IsWord n) → Legible (.circularTypeDefinition name cycle)
  | unimplemented {feature : String} : Tidy feature → Legible (.unimplemented feature)

/-! ## Kind by kind -/

variable {name pattern reason : String}

theorem ofMessage_syntaxError {m : String} (hm : Tidy m) :
    ofMessage (syntaxError m).message = .syntaxError m := by
  have hmessage : (syntaxError m).message.toList = "syntax error: ".toList ++ m.toList :=
    String.toList_append
  have hsolid := hm.solid.append hm.toList_ne_nil "syntax error: ".toList
  refine ofMessage_of 0 [m] hmessage hsolid rfl rfl rfl (by decide) ?_ rfl
  rw [capture_text]
  exact capture_longest_end hm.inLine

theorem solid_because {cs : List Char} (hcs : Solid cs) (hr : reason = "" ∨ Tidy reason) :
    Solid (cs ++ (because reason).toList) := by
  rw [because]
  split
  · simpa using hcs
  · next hne =>
      have hr := hr.resolve_left hne
      rw [String.toList_append]
      exact (hr.solid.append hr.toList_ne_nil _).append (by simp) cs

theorem capture_because (hr : reason = "" ∨ Tidy reason) :
    capture [.tail] (because reason).toList = some [reason.toList] := by
  rw [because]
  split
  · next heq =>
      subst heq
      rfl
  · next hne =>
      rw [String.toList_append]
      exact capture_tail_end (hr.resolve_left hne).inLine

theorem solid_quote (cs : List Char) : Solid (cs ++ "'".toList) :=
  Solid.append (by rintro c ⟨⟩; rfl) (by simp) cs

theorem ofMessage_typeMismatch {expected found : String} (he : Tidy expected) (hf : Tidy found)
    (hr : reason = "" ∨ Tidy reason) :
    ofMessage (typeMismatch expected found reason).message =
      .typeMismatch expected found reason := by
  have hmessage : (typeMismatch expected found reason).message.toList =
      "type mismatch: expected '".toList ++ (expected.toList ++ ("', found '".toList ++
        (found.toList ++ ("'".toList ++ (because reason).toList)))) := by
    show ("type mismatch: expected " ++ tick expected ++ ", found " ++ tick found ++
      because reason).toList = _
    simp [tick]
  refine ofMessage_of 1 [expected, found, reason] hmessage ?_ rfl rfl rfl (by decide) ?_ rfl
  · have hsolid := solid_because (solid_quote ("type mismatch: expected '".toList ++
      (expected.toList ++ ("', found '".toList ++ found.toList)))) hr
    simpa only [List.append_assoc] using hsolid
  · rw [capture_text]
    exact capture_shortest rfl he.unquoted (capture_shortest rfl hf.unquoted (capture_because hr))

/-- A message that names one thing by a word in quotes. -/
theorem ofMessage_named (n : Nat) {message opening closing : String}
    {wordings : List (List Piece)} {cause : List String → Option Cause} {c : Cause}
    (hname : IsWord name)
    (hmessage : message.toList = opening.toList ++ (name.toList ++ closing.toList))
    (hopening : opening.toList.head?.any (!isBlank ·) = true) (hcloses : closes closing = true)
    (hclosing : closing.toList.getLast?.any (!isBlank ·) = true)
    (hshape : all[n]? = some ⟨[.text opening, .word, .text closing] :: wordings, cause⟩)
    (hopens : MessageShape.opening ⟨[.text opening, .word, .text closing] :: wordings, cause⟩ =
      opening) (hn : n ≠ 13) (hcause : cause [name] = some c) : ofMessage message = c := by
  refine ofMessage_of n [name] hmessage ?_ hopening hshape hopens hn ?_ hcause
  · obtain ⟨last, hlast, hblank⟩ := (Option.any_eq_true _ _).1 hclosing
    have hsolid : Solid closing.toList := by
      intro d hd
      obtain rfl := Option.some.inj (hlast.symm.trans hd)
      simpa using hblank
    have hne : closing.toList ≠ [] := by
      rintro hnil
      rw [hnil] at hlast
      cases hlast
    exact (hsolid.append hne _).append (by simp [hne]) _
  · rw [capture_text, ← List.append_nil closing.toList]
    exact capture_word hcloses hname.chars hname.toList_ne_nil rfl

theorem ofMessage_undefinedVariable (h : IsWord name) :
    ofMessage (undefinedVariable name).message = .undefinedVariable name := by
  have hmessage : (undefinedVariable name).message.toList =
      "variable '".toList ++ (name.toList ++ "' is not defined".toList) := by
    show ("variable " ++ tick name ++ " is not defined").toList = _
    simp [tick]
  exact ofMessage_named 3 h hmessage rfl rfl rfl rfl rfl (by decide) rfl

theorem ofMessage_undefinedTypeVariable (h : IsWord name) :
    ofMessage (undefinedTypeVariable name).message = .undefinedTypeVariable name := by
  have hmessage : (undefinedTypeVariable name).message.toList =
      "type variable '".toList ++ (name.toList ++ "' is not defined".toList) := by
    show ("type variable " ++ tick name ++ " is not defined").toList = _
    simp [tick]
  exact ofMessage_named 4 h hmessage rfl rfl rfl rfl rfl (by decide) rfl

theorem ofMessage_undefinedConstructor (h : IsWord name) :
    ofMessage (undefinedConstructor name).message = .undefinedConstructor name := by
  have hmessage : (undefinedConstructor name).message.toList =
      "type '".toList ++ (name.toList ++ "' is not defined".toList) := by
    show ("type " ++ tick name ++ " is not defined").toList = _
    simp [tick]
  exact ofMessage_named 5 h hmessage rfl rfl rfl rfl rfl (by decide) rfl

theorem ofMessage_unknownClass {cls : String} (h : IsWord cls) :
    ofMessage (typeClassFailure "" cls true).message = .typeClassFailure "" cls true := by
  have hmessage : (typeClassFailure "" cls true).message.toList =
      "unknown type class '".toList ++ (cls.toList ++ "'".toList) := by
    show ("unknown type class " ++ tick cls).toList = _
    simp [tick]
  exact ofMessage_named 12 h hmessage rfl rfl rfl rfl rfl (by decide) rfl

theorem ofMessage_duplicateDefinition (h : IsWord name) :
    ofMessage (duplicateDefinition name).message = .duplicateDefinition name := by
  have hmessage : (duplicateDefinition name).message.toList =
      "duplicate definition of '".toList ++ (name.toList ++ "'".toList) := by
    show ("duplicate definition of " ++ tick name).toList = _
    simp [tick]
  exact ofMessage_named 14 h hmessage rfl rfl rfl rfl rfl (by decide) rfl

theorem ofMessage_nonExhaustive {missing : List String} (hne : missing ≠ [])
    (h : ∀ p ∈ missing, Tidy p ∧ ',' ∉ p.toList) :
    ofMessage (nonExhaustive missing).message = .nonExhaustive missing := by
  have hmessage : (nonExhaustive missing).message.toList =
      "non-exhaustive".toList ++ (" match, missing patterns".toList ++
        ':' :: ' ' :: (commas missing).toList) := by
    show ("non-exhaustive match, missing patterns: " ++ commas missing).toList = _
    simp
  have htexts : (commas missing).toList = [',', ' '].intercalate (missing.map String.toList) :=
    String.toList_intercalate
  have hline : ∀ c ∈ (commas missing).toList, inLine c = true := by
    rw [htexts]
    refine forall_mem_intercalate (List.all_eq_true.1 rfl) fun part hpart => ?_
    obtain ⟨p, hp, rfl⟩ := List.mem_map.1 hpart
    exact (h p hp).1.inLine
  have hsolid : Solid (commas missing).toList ∧ (commas missing).toList ≠ [] := by
    rw [htexts]
    refine solid_intercalate (by simpa using hne) fun part hpart => ?_
    obtain ⟨p, hp, rfl⟩ := List.mem_map.1 hpart
    exact ⟨(h p hp).1.solid, (h p hp).1.toList_ne_nil⟩
  have hcause : (some (nonExhaustive (items (commas missing)))) = some (nonExhaustive missing) := by
    rw [items_commas hne h]
  refine ofMessage_of 6 [commas missing] hmessage ?_ rfl rfl rfl (by decide) ?_ hcause
  · have hlast := hsolid.1.append hsolid.2 [':', ' ']
    exact (hlast.append (by simp) _).append (by simp) _
  · have hrest : capture [.text ": ", .longest] (':' :: ' ' :: (commas missing).toList) =
        some [(commas missing).toList] :=
      (capture_text ": " _ _).trans (capture_longest_end hline)
    rw [capture_folded (List.all_eq_true.1 rfl)]
    exact capture_beforeColon (by simp) hrest

theorem ofMessage_unreachablePattern {case : Nat} (hp : Tidy pattern) (hcase : case ≤ maxNumber) :
    ofMessage (unreachablePattern pattern case).message = .unreachablePattern pattern case := by
  have hmessage : (unreachablePattern pattern case).message.toList =
      "unreachable pattern '".toList ++ (pattern.toList ++ ("' in case ".toList ++
        (toString (case : Int)).toList)) := by
    show ("unreachable pattern " ++ tick pattern ++ " in case " ++ toString (case : Int)).toList = _
    simp [tick]
  have hcause : (some (unreachablePattern pattern (number (toString (case : Int))))) =
      some (unreachablePattern pattern case) := by rw [number_toString hcase]
  have hne : (toString (case : Int)).toList ≠ [] := by
    rw [toList_toString]
    exact Nat.toDigits_ne_nil
  have hword : ∀ c ∈ (toString (case : Int)).toList, isWordChar c = true := fun c hc => by
    simp [isWordChar, Char.isAlphanum, isDigit_of_mem_toString hc]
  refine ofMessage_of 7 [pattern, toString (case : Int)] hmessage ?_ rfl rfl rfl (by decide) ?_
    hcause
  · exact (((solid_of_word hword).append hne _).append (by simp) _).append (by simp) _
  · rw [capture_text]
    have htail : ∀ c ∈ "' in case ".toList.tail, c ≠ '\'' := by simp
    refine capture_longest rfl hp.inLine (fun c hc => ?_)
      (capture_digits_end (fun _ => isDigit_of_mem_toString) hne)
    refine (List.mem_append.1 hc).elim (htail c) fun hc => ?_
    rintro rfl
    exact absurd (hword _ hc) (by decide)

theorem ofMessage_contradictoryPattern (hp : Tidy pattern) (hr : Tidy reason) :
    ofMessage (contradictoryPattern pattern reason).message =
      .contradictoryPattern pattern reason := by
  have hmessage : (contradictoryPattern pattern reason).message.toList =
      "overlapping pattern '".toList ++ (pattern.toList ++ ("': ".toList ++ reason.toList)) := by
    show ("overlapping pattern " ++ tick pattern ++ ": " ++ reason).toList = _
    simp [tick]
  refine ofMessage_of 8 [pattern, reason] hmessage ?_ rfl rfl rfl (by decide) ?_ rfl
  · exact ((hr.solid.append hr.toList_ne_nil _).append (by simp) _).append (by simp) _
  · rw [capture_text]
    have htail : ∀ c ∈ "': ".toList.tail, c ≠ '\'' := by simp
    refine capture_longest rfl hp.inLine (fun c hc => ?_) (capture_longest_end hr.inLine)
    exact (List.mem_append.1 hc).elim (htail c) fun hc => (hr.unquoted c hc).1

theorem ofMessage_occursCheck {var type : String} (hv : Tidy var) (ht : Tidy type) :
    ofMessage (occursCheck var type).message = .occursCheck var type := by
  have hmessage : (occursCheck var type).message.toList =
      "occurs check: '".toList ++ (var.toList ++ ("' occurs in '".toList ++
        (type.toList ++ ("'".toList ++ [])))) := by
    show ("occurs check: " ++ tick var ++ " occurs in " ++ tick type).toList = _
    simp [tick]
  refine ofMessage_of 9 [var, type] hmessage ?_ rfl rfl rfl (by decide) ?_ rfl
  · have hsolid := solid_quote ("occurs check: '".toList ++ (var.toList ++
      ("' occurs in '".toList ++ type.toList)))
    simpa only [List.append_assoc, List.append_nil] using hsolid
  · rw [capture_text]
    refine capture_shortest rfl hv.unquoted (capture_longest rfl ht.inLine ?_ rfl)
    simp

theorem ofMessage_subtypeFailure {sub super : String} (hsub : Tidy sub) (hsuper : Tidy super)
    (hr : reason = "" ∨ Tidy reason) :
    ofMessage (subtypeFailure sub super reason).message = .subtypeFailure sub super reason := by
  have hmessage : (subtypeFailure sub super reason).message.toList =
      "'".toList ++ (sub.toList ++ ("' is not a subtype of '".toList ++
        (super.toList ++ ("'".toList ++ (because reason).toList)))) := by
    show (tick sub ++ " is not a subtype of " ++ tick super ++ because reason).toList = _
    simp [tick]
  refine ofMessage_of 10 [sub, super, reason] hmessage ?_ rfl rfl rfl (by decide) ?_ rfl
  · have hsolid := solid_because (solid_quote ("'".toList ++ (sub.toList ++
      ("' is not a subtype of '".toList ++ super.toList)))) hr
    simpa only [List.append_assoc] using hsolid
  · rw [capture_text]
    exact capture_shortest rfl hsub.unquoted
      (capture_shortest rfl hsuper.unquoted (capture_because hr))

theorem ofMessage_mergeConflict {field first second : String} (hf : Tidy field)
    (h₁ : Tidy first) (h₂ : Tidy second) :
    ofMessage (mergeConflict field first second).message = .mergeConflict field first second := by
  have hmessage : (mergeConflict field first second).message.toList =
      "merge conflict on field '".toList ++ (field.toList ++ ("': '".toList ++ (first.toList ++
        ("' and '".toList ++ (second.toList ++ ("' are incompatible".toList ++ [])))))) := by
    show ("merge conflict on field " ++ tick field ++ ": " ++ tick first ++ " and " ++
      tick second ++ " are incompatible").toList = _
    simp [tick]
  refine ofMessage_of 11 [field, first, second] hmessage ?_ rfl rfl rfl (by decide) ?_ rfl
  · have hclosing : Solid ("' are incompatible".toList ++ []) := by
      rintro c ⟨⟩
      rfl
    exact (((((hclosing.append (by simp) _).append (by simp) _).append (by simp) _).append
      (by simp) _).append (by simp) _).append (by simp) _
  · rw [capture_text]
    exact capture_shortest rfl hf.unquoted (capture_shortest rfl h₁.unquoted
      (capture_shortest rfl h₂.unquoted rfl))

/-- Nowhere in the message about a class does a quote stand in front of what subtyping says. -/
theorem capture_subtype_of_notOfClass {type cls : List Char} (ht : Unquoted type)
    (hc : ∀ c ∈ cls, isWordChar c = true) (hne : cls ≠ []) (ps : List Piece) :
    capture (.shortest :: .text "' is not a subtype of '" :: ps)
      (type ++ ("' is not an instance of '".toList ++ (cls ++ ("'".toList ++ [])))) = none := by
  have hother := capture_closing_of_ne (s := "' is not a subtype of '") rfl ps
  have hlast : shortestRun inLine (capture (.text "' is not a subtype of '" :: ps)) ['\''] = none :=
    shortestRun_pass_mark rfl (by rw [shortestRun_nil, capture_text_nil rfl, Option.map_none])
  have hquote : ∀ c ∈ cls, c ≠ '\'' := by
    rintro c hmem rfl
    exact absurd (hc _ hmem) (by decide)
  have hcls : capture (.text "' is not a subtype of '" :: ps) ('\'' :: (cls ++ ['\''])) = none := by
    obtain ⟨c, cls, rfl⟩ := List.exists_cons_of_ne_nil hne
    have hblank : c ≠ ' ' := by
      rintro rfl
      exact absurd (hc _ (.head _)) (by decide)
    have hopening : mayMatch ['\'', c] (.text "' is not a subtype of '" :: ps) = false := by
      simp [mayMatch, Piece.mayOpen, agrees, hblank]
    exact capture_of_not_mayMatch hopening
  refine shortestRun_pass hother (fun c hmem => (ht c hmem).1) (shortestRun_pass_mark rfl ?_)
  have hbetween : ∀ c ∈ " is not an instance of ".toList, c ≠ '\'' := by simp
  show shortestRun _ _ (" is not an instance of ".toList ++ '\'' :: (cls ++ ['\''])) = none
  refine shortestRun_pass hother hbetween ?_
  exact shortestRun_pass_mark hcls (shortestRun_pass hother hquote hlast)

theorem ofMessage_notOfClass {type cls : String} (ht : Tidy type) (hc : IsWord cls) :
    ofMessage (typeClassFailure type cls false).message = .typeClassFailure type cls false := by
  have hmessage : (typeClassFailure type cls false).message.toList =
      "'".toList ++ (type.toList ++ ("' is not an instance of '".toList ++
        (cls.toList ++ ("'".toList ++ [])))) := by
    show (tick type ++ " is not an instance of " ++ tick cls).toList = _
    simp [tick]
  refine ofMessage_of_first 13 [type, cls] hmessage ?_ rfl rfl (fun k hk shape hshape => ?_) ?_ rfl
  · have hsolid := solid_quote ("'".toList ++ (type.toList ++
      ("' is not an instance of '".toList ++ cls.toList)))
    simpa only [List.append_assoc, List.append_nil] using hsolid
  · by_cases hsubtype : k = 10
    · subst hsubtype
      obtain rfl := Option.some.inj hshape
      refine recognize?_of_captures fun wording hwording => ?_
      obtain rfl := List.mem_singleton.1 hwording
      rw [capture_text]
      exact capture_subtype_of_notOfClass ht.unquoted hc.chars hc.toList_ne_nil _
    · exact recognize?_of_passes (passes_opening rfl (by simp) hk fun _ => hsubtype) hshape
  · rw [capture_text]
    exact capture_shortest rfl ht.unquoted (capture_word rfl hc.chars hc.toList_ne_nil rfl)

theorem ofMessage_circularTypeDefinition {cycle : List String} (hname : IsWord name)
    (hne : cycle ≠ []) (hcycle : ∀ n ∈ cycle, IsWord n) :
    ofMessage (circularTypeDefinition name cycle).message =
      .circularTypeDefinition name cycle := by
  have hmessage : (circularTypeDefinition name cycle).message.toList =
      "circular type definition '".toList ++ (name.toList ++ ("'".toList ++
        (": ".toList ++ (" -> ".intercalate cycle).toList))) := by
    show ("circular type definition " ++ tick name ++ ": " ++ " -> ".intercalate cycle).toList = _
    simp [tick]
  have hcause : (some (circularTypeDefinition name
      (MessageShape.cycle (" -> ".intercalate cycle)))) =
        some (circularTypeDefinition name cycle) := by rw [cycle_arrows hne hcycle]
  have hsolid : Solid (" -> ".intercalate cycle).toList ∧
      (" -> ".intercalate cycle).toList ≠ [] := by
    rw [String.toList_intercalate]
    refine solid_intercalate (by simpa using hne) fun part hpart => ?_
    obtain ⟨n, hn, rfl⟩ := List.mem_map.1 hpart
    exact ⟨solid_of_word (hcycle n hn).chars, (hcycle n hn).toList_ne_nil⟩
  have hline : ∀ c ∈ (" -> ".intercalate cycle).toList, inLine c = true := by
    rw [String.toList_intercalate]
    refine forall_mem_intercalate (List.all_eq_true.1 rfl) fun part hpart c hc => ?_
    obtain ⟨n, hn, rfl⟩ := List.mem_map.1 hpart
    refine bne_iff_ne.2 ?_
    rintro rfl
    exact absurd ((hcycle n hn).chars _ hc) (by decide)
  refine ofMessage_of 15 [name, " -> ".intercalate cycle] hmessage ?_ rfl rfl rfl (by decide)
    ?_ hcause
  · refine Solid.append ?_ (by simp) _
    refine Solid.append ?_ (by simp) _
    exact (hsolid.1.append hsolid.2 _).append (by simp) _
  · rw [capture_text]
    exact capture_word rfl hname.chars hname.toList_ne_nil (capture_tail_end hline)

theorem ofMessage_unimplemented {feature : String} (h : Tidy feature) :
    ofMessage (unimplemented feature).message = .unimplemented feature := by
  have hmessage : (unimplemented feature).message.toList =
      "not implemented: ".toList ++ feature.toList := String.toList_append
  have hsolid := h.solid.append h.toList_ne_nil "not implemented: ".toList
  refine ofMessage_of 16 [feature] hmessage hsolid rfl rfl rfl (by decide) ?_ rfl
  rw [capture_text]
  exact capture_longest_end h.inLine

/-- A cause with legible texts is read back from its message. -/
theorem ofMessage_message {c : Cause} (h : c.Legible) : ofMessage c.message = c := by
  cases h with
  | syntaxError hm => exact ofMessage_syntaxError hm
  | typeMismatch he hf hr => exact ofMessage_typeMismatch he hf hr
  | undefinedVariable hname => exact ofMessage_undefinedVariable hname
  | undefinedTypeVariable hname => exact ofMessage_undefinedTypeVariable hname
  | undefinedConstructor hname => exact ofMessage_undefinedConstructor hname
  | nonExhaustive hne hmissing => exact ofMessage_nonExhaustive hne hmissing
  | unreachablePattern hp hcase => exact ofMessage_unreachablePattern hp hcase
  | contradictoryPattern hp hr => exact ofMessage_contradictoryPattern hp hr
  | occursCheck hv ht => exact ofMessage_occursCheck hv ht
  | subtypeFailure hsub hsuper hr => exact ofMessage_subtypeFailure hsub hsuper hr
  | mergeConflict hf h₁ h₂ => exact ofMessage_mergeConflict hf h₁ h₂
  | notOfClass ht hc => exact ofMessage_notOfClass ht hc
  | unknownClass hc => exact ofMessage_unknownClass hc
  | duplicateDefinition hname => exact ofMessage_duplicateDefinition hname
  | circularTypeDefinition hname hne hcycle =>
      exact ofMessage_circularTypeDefinition hname hne hcycle
  | unimplemented hfeature => exact ofMessage_unimplemented hfeature

end Cause

/-- A diagnostic with legible texts keeps its kind and its fields when only its message is passed
on. -/
theorem Diagnostic.code_fields_ofMessage (d : Diagnostic) (span : Span) (h : d.cause.Legible) :
    (Diagnostic.ofMessage d.message span).code = d.code ∧
      (Diagnostic.ofMessage d.message span).fields = d.fields := by
  have hcause : (Diagnostic.ofMessage d.message span).cause = d.cause := Cause.ofMessage_message h
  exact ⟨congrArg Cause.code hcause, congrArg Cause.fields hcause⟩

/-- Two patterns are missing from a match. -/
def twoMissing : Diagnostic where
  cause := .nonExhaustive ["False", "\x7bage: _\x7d"]

/-- Both patterns are read back. -/
theorem Diagnostic.code_fields_twoMissing : twoMissing.cause.Legible ∧
    (Diagnostic.ofMessage twoMissing.message {}).code = .nonExhaustive ∧
      (Diagnostic.ofMessage twoMissing.message {}).fields =
        [("missing", .texts ["False", "\x7bage: _\x7d"])] := by
  have hlegible : twoMissing.cause.Legible := by
    refine .nonExhaustive (by simp) fun p hp => ?_
    obtain rfl | rfl : p = "False" ∨ p = "\x7bage: _\x7d" := by simpa using hp
    · exact ⟨⟨by simp [Text.Unquoted, Text.inLine], by decide, by decide⟩, by decide⟩
    · exact ⟨⟨by simp [Text.Unquoted, Text.inLine], by decide, by decide⟩, by decide⟩
  exact ⟨hlegible, code_fields_ofMessage twoMissing {} hlegible⟩

/-- Commas in a pattern are taken for those between patterns. -/
example : Cause.ofMessage (Cause.nonExhaustive ["(1, _)"]).message =
    .nonExhaustive ["(1", "_)"] := by rfl

end RowTypes
