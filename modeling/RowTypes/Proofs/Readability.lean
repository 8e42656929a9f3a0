import Mathlib.Algebra.Group.Nat.Defs
import Mathlib.Data.List.Basic
import RowTypes.Coverage.Space

/-!
# Texts that can be read back

The text of a space tells where each of its parts ends, so two spaces of one text have the same
parts.  What that rests on is that a part is followed by a comma, a closing bracket or nothing, and
that no part can be taken for a longer one up to such a place (`Text.Apart`).  Strings are apart
because the quotes inside them are escaped, and numbers because they are made of digits.

Some texts cannot be read back: a field name with a colon, a literal of no known kind, a number that
is not written in digits, and the text `()`, which stands for unit and for the empty tuple.
`Space.readable` leaves them out.
-/

namespace RowTypes

namespace Text

/-! ## Escaped characters -/

/-- The value of a hexadecimal digit. -/
def digitValue (c : Char) : Nat := if c.toNat < 0x3a then c.toNat - 0x30 else c.toNat - 0x57

/-- The number that hexadecimal digits write, after some that came before. -/
def ofHex (n : Nat) (cs : List Char) : Nat := cs.foldl (fun n c => n * 16 + digitValue c) n

theorem digitValue_hexDigit : ∀ n : Nat, n < 16 → digitValue (hexDigit n) = n := by decide

theorem length_hex : ∀ width n : Nat, (hex width n).length = width
  | 0, _ => rfl
  | width + 1, n => by rw [hex, List.length_append, length_hex width]; rfl

theorem ofHex_hex : ∀ width n : Nat, n < 16 ^ width → ofHex 0 (hex width n) = n
  | 0, n, h => by
      rw [Nat.pow_zero, Nat.lt_one_iff] at h
      rw [h]; rfl
  | width + 1, n, h => by
      have hhigh := ofHex_hex width (n / 16) (by rw [Nat.pow_succ] at h; omega)
      have hlow := digitValue_hexDigit (n % 16) (Nat.mod_lt _ (by decide))
      rw [ofHex] at hhigh
      rw [hex, ofHex, List.foldl_append, hhigh, List.foldl_cons, List.foldl_nil, hlow]
      omega

/-- Reads the character that so many hexadecimal digits write. -/
def readHex (width : Nat) (cs : List Char) : Char × List Char :=
  (Char.ofNat (ofHex 0 (cs.take width)), cs.drop width)

theorem readHex_hex {width : Nat} {c : Char} (h : c.toNat < 16 ^ width) (cs : List Char) :
    readHex width (hex width c.toNat ++ cs) = (c, cs) := by
  have hlen := length_hex width c.toNat
  rw [readHex, List.take_left' hlen, List.drop_left' hlen, ofHex_hex width _ h, Char.ofNat_toNat]

/-- Reads the first character of what stands between double quotes. -/
def readEscaped : List Char → Option (Char × List Char)
  | [] => none
  | '\\' :: mark :: cs => some (match mark with
    | 'a' => ('\x07', cs)
    | 'b' => ('\x08', cs)
    | 'f' => ('\x0c', cs)
    | 'n' => ('\n', cs)
    | 'r' => ('\r', cs)
    | 't' => ('\t', cs)
    | 'v' => ('\x0b', cs)
    | 'x' => readHex 2 cs
    | 'u' => readHex 4 cs
    | 'U' => readHex 8 cs
    | mark => (mark, cs))
  | c :: cs => some (c, cs)

theorem readEscaped_of_ne {c : Char} (h : c ≠ '\\') (cs : List Char) :
    readEscaped (c :: cs) = some (c, cs) := by
  rw [readEscaped]
  rintro mark cs' rfl
  exact absurd rfl h

theorem readEscaped_hex {c : Char} (cs : List Char) :
    (c.toNat < 16 ^ 2 → readEscaped ('\\' :: 'x' :: hex 2 c.toNat ++ cs) = some (c, cs)) ∧
      (c.toNat < 16 ^ 4 → readEscaped ('\\' :: 'u' :: hex 4 c.toNat ++ cs) = some (c, cs)) ∧
      (c.toNat < 16 ^ 8 → readEscaped ('\\' :: 'U' :: hex 8 c.toNat ++ cs) = some (c, cs)) := by
  refine ⟨fun h => ?_, fun h => ?_, fun h => ?_⟩
  · exact congrArg some (readHex_hex h cs)
  · exact congrArg some (readHex_hex h cs)
  · exact congrArg some (readHex_hex h cs)

theorem readEscaped_escape (c : Char) (cs : List Char) :
    readEscaped (escape c ++ cs) = some (c, cs) := by
  unfold escape
  split
  case h_10 _ hslash _ _ _ _ _ _ _ =>
    obtain ⟨hx, hu, hU⟩ := readEscaped_hex (c := c) cs
    split
    · exact readEscaped_of_ne hslash cs
    · split
      · next h => exact hx (Nat.lt_trans h (by decide))
      · split
        · next h => exact hu h
        · exact hU (Nat.lt_of_lt_of_eq c.val.toNat_lt (by decide))
  all_goals rfl

theorem escape_ne_quote (c : Char) (cs rest : List Char) : escape c ++ cs ≠ '"' :: rest := by
  intro h
  have hread := readEscaped_escape c cs
  rw [h, readEscaped_of_ne (by decide)] at hread
  cases hread
  simp [escape] at h

/-- What stands between double quotes ends at the first one that is not escaped. -/
theorem escaped_inj : ∀ {cs cs' r r' : List Char},
    cs.flatMap escape ++ '"' :: r = cs'.flatMap escape ++ '"' :: r' → cs = cs' ∧ r = r'
  | [], [], _, _, h => by simpa using h
  | [], c :: cs, _, _, h => by
      rw [List.flatMap_cons, List.append_assoc] at h
      exact absurd h.symm (escape_ne_quote _ _ _)
  | c :: cs, [], _, _, h => by
      rw [List.flatMap_cons, List.append_assoc] at h
      exact absurd h (escape_ne_quote _ _ _)
  | c :: cs, c' :: cs', r, r', h => by
      simp only [List.flatMap_cons, List.append_assoc] at h
      have hread := congrArg readEscaped h
      rw [readEscaped_escape, readEscaped_escape, Option.some.injEq, Prod.mk.injEq] at hread
      obtain ⟨rfl, hrest⟩ := hread
      obtain ⟨rfl, rfl⟩ := escaped_inj hrest
      exact ⟨rfl, rfl⟩

/-! ## Parts and their ends -/

/-- The characters that come behind a part. -/
def isEnd (c : Char) : Bool := c == ',' || c == ')' || c == '\x7d'

/-- A part ends in front of such a text. -/
def AtEnd (r : List Char) : Prop := ∀ c, r.head? = some c → isEnd c = true

theorem atEnd_cons {c : Char} (h : isEnd c = true) (r : List Char) : AtEnd (c :: r) := by
  simpa [AtEnd] using h

/-- Two texts are apart: wherever the one ends, the other one does not begin in its place. -/
def Apart (x y : List Char) : Prop :=
  ∀ r r', AtEnd r → AtEnd r' → x ++ r = y ++ r' → x = y ∧ r = r'

theorem apart_self (x : List Char) : Apart x x :=
  fun _ _ _ _ h => ⟨rfl, List.append_cancel_left h⟩

/-- Texts that begin differently are apart. -/
theorem apart_of_head_ne {c c' : Char} (h : c ≠ c') (x y : List Char) :
    Apart (c :: x) (c' :: y) := by
  intro r r' _ _ heq
  exact absurd (List.head_eq_of_cons_eq heq) h

/-- Texts in which no end occurs are apart: each is what comes before the first end. -/
theorem apart_of_forall_not_isEnd {x y : List Char} (hx : ∀ c ∈ x, isEnd c = false)
    (hy : ∀ c ∈ y, isEnd c = false) : Apart x y := by
  have before : ∀ {z r : List Char}, (∀ c ∈ z, isEnd c = false) → AtEnd r →
      (z ++ r).takeWhile (fun c => !isEnd c) = z := by
    intro z r hz hr
    rw [List.takeWhile_append_of_pos (by simpa using hz)]
    cases r with
    | nil => simp
    | cons c r => simp [hr c rfl]
  intro r r' hr hr' heq
  obtain rfl : x = y := by rw [← before hx hr, heq, before hy hr']
  exact ⟨rfl, List.append_cancel_left heq⟩

/-- A name without a colon is what comes before the first one. -/
theorem named_inj {name name' x y : List Char} (hname : ':' ∉ name) (hname' : ':' ∉ name')
    (heq : name ++ ':' :: ' ' :: x = name' ++ ':' :: ' ' :: y) : name = name' ∧ x = y := by
  have before : ∀ {z r : List Char}, ':' ∉ z → (z ++ ':' :: r).takeWhile (· != ':') = z := by
    intro z r hz
    rw [List.takeWhile_append_of_pos (by simpa using fun c hc => ne_of_mem_of_not_mem hc hz)]
    simp
  obtain rfl : name = name' := by rw [← before hname, heq, before hname']
  simpa using heq

theorem apart_named {name name' x y : List Char} (hname : ':' ∉ name) (hname' : ':' ∉ name')
    (h : Apart x y) : Apart (name ++ ':' :: ' ' :: x) (name' ++ ':' :: ' ' :: y) := by
  intro r r' hr hr' heq
  simp only [List.append_assoc, List.cons_append] at heq
  obtain ⟨rfl, hrest⟩ := named_inj hname hname' heq
  obtain ⟨rfl, rfl⟩ := h r r' hr hr' hrest
  exact ⟨rfl, rfl⟩

/-- Parts that are set off by commas, up to a closing bracket. -/
theorem joined_inj {close : Char} (hclose : isEnd close = true) (hcomma : close ≠ ',') :
    ∀ {xs ys : List (List Char)} {r r' : List Char}, xs ≠ [] → ys ≠ [] →
      (∀ x ∈ xs, ∀ y ∈ ys, Apart x y) →
      [',', ' '].intercalate xs ++ close :: r = [',', ' '].intercalate ys ++ close :: r' →
        xs = ys ∧ r = r'
  | [x], [y], r, r', _, _, hapart, h => by
      obtain ⟨rfl, hrest⟩ := hapart x (by simp) y (by simp) _ _ (atEnd_cons hclose r)
        (atEnd_cons hclose r') (by simpa using h)
      exact ⟨rfl, List.tail_eq_of_cons_eq hrest⟩
  | [x], y :: y' :: ys, r, r', _, _, hapart, h => by
      rw [List.intercalate_singleton, List.intercalate_cons_cons, List.append_assoc,
        List.append_assoc] at h
      obtain ⟨-, hrest⟩ := hapart x (by simp) y (by simp) _ _ (atEnd_cons hclose r)
        (atEnd_cons (by decide) _) h
      -- One list ends where the other goes on: a comma would be the closing character.
      exact absurd (List.head_eq_of_cons_eq hrest) hcomma
  | x :: x' :: xs, [y], r, r', _, _, hapart, h => by
      rw [List.intercalate_singleton, List.intercalate_cons_cons, List.append_assoc,
        List.append_assoc] at h
      obtain ⟨-, hrest⟩ := hapart x (by simp) y (by simp) _ _ (atEnd_cons (by decide) _)
        (atEnd_cons hclose r') h
      exact absurd (List.head_eq_of_cons_eq hrest).symm hcomma
  | x :: x' :: xs, y :: y' :: ys, r, r', _, _, hapart, h => by
      rw [List.intercalate_cons_cons, List.intercalate_cons_cons, List.append_assoc,
        List.append_assoc, List.append_assoc, List.append_assoc] at h
      obtain ⟨rfl, hrest⟩ := hapart x (by simp) y (by simp) _ _ (atEnd_cons (by decide) _)
        (atEnd_cons (by decide) _) h
      have hrest := (List.append_right_inj [',', ' ']).1 hrest
      obtain ⟨hxs, rfl⟩ := joined_inj hclose hcomma (by simp) (by simp)
        (fun x hx y hy => hapart x (List.mem_cons_of_mem _ hx) y (List.mem_cons_of_mem _ hy)) hrest
      exact ⟨by rw [hxs], rfl⟩

end Text

namespace Space

/-! ## Spaces whose texts can be read back -/

/-- The characters of numbers. -/
def isNumeral (c : Char) : Bool := c.isDigit || c == '-'

/-- Whether a literal's text is one of its kind; `units` says whether unit is used. -/
def readableLiteral (units : Bool) (text : String) : LiteralKind → Bool
  | .int => !text.toList.isEmpty && text.toList.all isNumeral
  | .string => true
  | .bool => text == "true" || text == "false"
  | .unit => units
  | .other _ => false

mutual

/-- Whether the text of a space can be read back.  Of unit and the empty tuple, which have one text,
only one may be used. -/
def readable (units : Bool) : Space → Bool
  | .anything => true
  | .literal kind text => readableLiteral units text kind
  | .tuple ss => (!units || !ss.isEmpty) && readableAll units ss
  | .record fs => readableFields units fs

/-- The same for several spaces. -/
def readableAll (units : Bool) : List Space → Bool
  | [] => true
  | s :: ss => s.readable units && readableAll units ss

/-- The same for the fields of a record. -/
def readableFields (units : Bool) : List (String × Space) → Bool
  | [] => true
  | (name, s) :: fs => !name.toList.contains ':' && s.readable units && readableFields units fs

end

/-- The characters of the text of a space. -/
def chars (s : Space) : List Char := s.render.toList

theorem chars_tuple (ss : List Space) : (Space.tuple ss).chars =
    '(' :: [',', ' '].intercalate ((renderAll ss).map String.toList) ++ [')'] := by
  simp [chars, render, Text.commas, String.toList_intercalate]

theorem chars_record (fs : List (String × Space)) : (Space.record fs).chars =
    if renderFields fs = [] then ['_']
    else '\x7b' :: [',', ' '].intercalate ((renderFields fs).map String.toList) ++ ['\x7d'] := by
  rw [chars, render, bracedOrAny]
  by_cases h : renderFields fs = []
  · simp [h]
  · simp [h, Text.braces, Text.commas, String.toList_intercalate]

theorem mem_renderAll {text : String} : ∀ {ss : List Space},
    text ∈ renderAll ss ↔ ∃ s ∈ ss, s.render = text
  | [] => by simp [renderAll]
  | s :: ss => by
      rw [renderAll, List.mem_cons, mem_renderAll, List.exists_mem_cons_iff, eq_comm]

theorem mem_renderFields {text : String} : ∀ {fs : List (String × Space)},
    text ∈ renderFields fs ↔
      ∃ f ∈ fs, f.2.isAnything = false ∧ f.1 ++ ": " ++ f.2.render = text
  | [] => by simp [renderFields]
  | (name, s) :: fs => by
      rw [renderFields, List.exists_mem_cons_iff]
      split
      · next h => simp [h, mem_renderFields]
      · next h => rw [List.mem_cons, mem_renderFields, eq_comm]; simp [h]

/-- The first character tells what kind of space a text is of. -/
inductive Lead where
  | any | number | string | truth | paren | brace
  deriving DecidableEq

def Lead.ofChar (c : Char) : Lead :=
  if c = '_' then .any else if c = '"' then .string else if c = 'T' ∨ c = 'F' then .truth
  else if c = '(' then .paren else if c = '\x7b' then .brace else .number

def lead : Space → Lead
  | .anything => .any
  | .literal .string _ => .string
  | .literal .bool _ => .truth
  | .literal .unit _ => .paren
  | .literal .int _ | .literal (.other _) _ => .number
  | .tuple _ => .paren
  | .record fs => if renderFields fs = [] then .any else .brace

theorem Lead.ofChar_of_isNumeral {c : Char} (h : isNumeral c = true) : ofChar c = .number := by
  have hne : ∀ d, isNumeral d = false → c ≠ d := by
    rintro d hd rfl
    rw [h] at hd
    cases hd
  simp [ofChar, hne '_' (by decide), hne '"' (by decide), hne 'T' (by decide), hne 'F' (by decide),
    hne '(' (by decide), hne '\x7b' (by decide)]

theorem not_isEnd_of_isNumeral {c : Char} (h : isNumeral c = true) : Text.isEnd c = false := by
  rw [Bool.eq_false_iff]
  intro hend
  simp only [Text.isEnd, Bool.or_eq_true, beq_iff_eq] at hend
  rcases hend with (rfl | rfl) | rfl <;> revert h <;> decide

theorem isNumeral_of_readable {units : Bool} {text : String}
    (h : readableLiteral units text .int = true) : ∀ c ∈ text.toList, isNumeral c = true := by
  rw [readableLiteral, Bool.and_eq_true, List.all_eq_true] at h
  exact h.2

/-- A text begins as its space says, and not with an end. -/
theorem exists_lead {units : Bool} {s : Space} (h : s.readable units = true) :
    ∃ c cs, s.chars = c :: cs ∧ Lead.ofChar c = s.lead ∧ Text.isEnd c = false := by
  cases s with
  | anything => exact ⟨'_', [], rfl, by decide, by decide⟩
  | literal kind text =>
      rw [readable] at h
      cases kind with
      | int =>
          have hall := isNumeral_of_readable h
          cases htext : text.toList with
          | nil => simp [readableLiteral, htext] at h
          | cons c cs =>
              have hc := hall c (htext ▸ List.mem_cons_self)
              exact ⟨c, cs, htext, Lead.ofChar_of_isNumeral hc, not_isEnd_of_isNumeral hc⟩
      | string =>
          refine ⟨'"', text.toList.flatMap Text.escape ++ ['"'], ?_, rfl, by decide⟩
          rw [chars, render, LiteralKind.render, Text.quoted, String.toList_ofList]
          rfl
      | bool =>
          rw [chars, render, LiteralKind.render]
          split
          · exact ⟨'T', "rue".toList, rfl, rfl, by decide⟩
          · exact ⟨'F', "alse".toList, rfl, rfl, by decide⟩
      | unit =>
          rw [chars, render, LiteralKind.render]
          exact ⟨'(', [')'], rfl, rfl, by decide⟩
      | other code => cases h
  | tuple ss => exact ⟨'(', _, chars_tuple ss, rfl, by decide⟩
  | record fs =>
      rw [chars_record, lead]
      split
      · exact ⟨'_', [], rfl, by decide, by decide⟩
      · exact ⟨_, _, rfl, by decide, by decide⟩

theorem apart_of_lead_ne {units : Bool} {s s' : Space} (h : s.readable units = true)
    (h' : s'.readable units = true) (hne : s.lead ≠ s'.lead) : Text.Apart s.chars s'.chars := by
  obtain ⟨c, cs, hs, hlead, -⟩ := exists_lead h
  obtain ⟨c', cs', hs', hlead', -⟩ := exists_lead h'
  rw [hs, hs']
  refine Text.apart_of_head_ne ?_ cs cs'
  rintro rfl
  exact hne (hlead.symm.trans hlead')

theorem chars_of_lead_any {s : Space} (h : s.lead = .any) : s.chars = ['_'] := by
  cases s with
  | anything => rfl
  | literal kind text => cases kind <;> cases h
  | tuple ss => cases h
  | record fs =>
      rw [lead] at h
      split at h
      · next hfs => rw [chars_record, if_pos hfs]
      · cases h

theorem apart_literal {units : Bool} {kind : LiteralKind} {text text' : String}
    (h : readableLiteral units text kind = true) (h' : readableLiteral units text' kind = true) :
    Text.Apart (Space.literal kind text).chars (Space.literal kind text').chars := by
  cases kind with
  | int =>
      exact Text.apart_of_forall_not_isEnd
        (fun c hc => not_isEnd_of_isNumeral (isNumeral_of_readable h c hc))
        (fun c hc => not_isEnd_of_isNumeral (isNumeral_of_readable h' c hc))
  | string =>
      intro r r' _ _ heq
      simp only [chars, render, LiteralKind.render, Text.quoted, String.toList_ofList,
        List.cons_append, List.append_assoc, List.nil_append, List.cons.injEq, true_and] at heq
      obtain ⟨htext, rfl⟩ := Text.escaped_inj heq
      rw [String.toList_inj.1 htext]
      exact ⟨rfl, rfl⟩
  | bool =>
      have hnone : ∀ text : String, ∀ c ∈ (Space.literal .bool text).chars,
          Text.isEnd c = false := by
        intro text
        rw [chars, render, LiteralKind.render]
        split
        · simp [Text.isEnd]
        · simp [Text.isEnd]
      exact Text.apart_of_forall_not_isEnd (hnone text) (hnone text')
  | unit => exact Text.apart_self _
  | other code => cases h

theorem exists_intercalate (c : Char) (cs : List Char) (xs : List (List Char)) :
    ∃ cs', [',', ' '].intercalate ((c :: cs) :: xs) = c :: cs' := by
  cases xs with
  | nil => exact ⟨cs, List.intercalate_singleton⟩
  | cons x xs => exact ⟨_, by rw [List.intercalate_cons_cons]; rfl⟩

/-- A tuple that has elements does not begin as unit does. -/
theorem exists_chars_tuple {units : Bool} {s : Space} (h : s.readable units = true)
    (ss : List Space) : ∃ c cs, (Space.tuple (s :: ss)).chars = '(' :: c :: cs ∧ c ≠ ')' := by
  obtain ⟨c, cs, hs, -, hend⟩ := exists_lead h
  rw [chars] at hs
  obtain ⟨cs', hcs'⟩ := exists_intercalate c cs ((renderAll ss).map String.toList)
  refine ⟨c, cs' ++ [')'], ?_, by rintro rfl; cases hend⟩
  rw [chars_tuple, renderAll, List.map_cons, hs, hcs']
  rfl

theorem unit_append_ne {units : Bool} {s : Space} (h : s.readable units = true) (ss : List Space)
    (r r' : List Char) : '(' :: ')' :: r ≠ (Space.tuple (s :: ss)).chars ++ r' := by
  obtain ⟨c, cs, hchars, hne⟩ := exists_chars_tuple h ss
  rw [hchars]
  intro heq
  simp only [List.cons_append, List.cons.injEq, true_and] at heq
  exact hne heq.1.symm

theorem kind_eq_of_lead {units : Bool} {kind kind' : LiteralKind} {text text' : String}
    (h : readableLiteral units text kind = true) (h' : readableLiteral units text' kind' = true)
    (hlead : (Space.literal kind text).lead = (Space.literal kind' text').lead) : kind = kind' := by
  cases kind <;> cases kind' <;> simp_all [lead, readableLiteral]

theorem kind_eq_unit {kind : LiteralKind} {text : String}
    (hlead : (Space.literal kind text).lead = .paren) : kind = .unit := by
  cases kind <;> simp_all [lead]

theorem lead_record_ne {fs : List (String × Space)} {l : Lead} (hany : l ≠ .any)
    (hbrace : l ≠ .brace) : (Space.record fs).lead ≠ l := by
  rw [lead]
  split
  · exact hany.symm
  · exact hbrace.symm

theorem lead_literal_ne_brace (kind : LiteralKind) (text : String) :
    (Space.literal kind text).lead ≠ .brace := by
  cases kind <;> simp [lead]

/-- Unit does not begin as a tuple does, where only one of unit and the empty tuple is used. -/
theorem literal_append_ne {units : Bool} {kind : LiteralKind} {text : String} {ss : List Space}
    (h : (Space.literal kind text).readable units = true)
    (h' : (Space.tuple ss).readable units = true)
    (hlead : (Space.literal kind text).lead = .paren) (r r' : List Char) :
    (Space.literal kind text).chars ++ r ≠ (Space.tuple ss).chars ++ r' := by
  obtain rfl := kind_eq_unit hlead
  obtain rfl : units = true := h
  cases ss with
  | nil => simp [readable] at h'
  | cons s ss =>
      simp only [readable, readableAll, Bool.and_eq_true] at h'
      rw [chars, render, LiteralKind.render]
      exact unit_append_ne h'.2.1 ss r r'

/-- The elements of a tuple can be read off its text, if their texts are apart. -/
theorem renderAll_eq_of_chars {units : Bool} {ss ss' : List Space} (h : readableAll units ss = true)
    (h' : readableAll units ss' = true)
    (hall : ∀ text ∈ renderAll ss, ∀ text' ∈ renderAll ss', Text.Apart text.toList text'.toList)
    {r r' : List Char} (heq : (Space.tuple ss).chars ++ r = (Space.tuple ss').chars ++ r') :
    renderAll ss = renderAll ss' ∧ r = r' := by
  cases ss with
  | nil =>
      cases ss' with
      | nil => exact ⟨rfl, List.append_cancel_left heq⟩
      | cons s' ss' =>
          rw [readableAll, Bool.and_eq_true] at h'
          exact absurd heq (unit_append_ne h'.1 ss' r r')
  | cons s ss =>
      cases ss' with
      | nil =>
          rw [readableAll, Bool.and_eq_true] at h
          exact absurd heq.symm (unit_append_ne h.1 ss r' r)
      | cons s' ss' =>
          simp only [chars_tuple, List.cons_append, List.append_assoc, List.nil_append,
            List.cons.injEq, true_and] at heq
          obtain ⟨htexts, hr⟩ := Text.joined_inj (by decide) (by decide) (by simp [renderAll])
            (by simp [renderAll]) (by simpa using hall) heq
          exact ⟨(List.map_inj_right fun _ _ => String.toList_inj.1).1 htexts, hr⟩

/-- The fields that narrow a record down can be read off its text, if their texts are apart. -/
theorem renderFields_eq_of_chars {fs fs' : List (String × Space)} (h : renderFields fs ≠ [])
    (h' : renderFields fs' ≠ [])
    (hall : ∀ text ∈ renderFields fs, ∀ text' ∈ renderFields fs',
      Text.Apart text.toList text'.toList)
    {r r' : List Char} (heq : (Space.record fs).chars ++ r = (Space.record fs').chars ++ r') :
    renderFields fs = renderFields fs' ∧ r = r' := by
  simp only [chars_record, if_neg h, if_neg h', List.cons_append, List.append_assoc,
    List.nil_append, List.cons.injEq, true_and] at heq
  obtain ⟨htexts, hr⟩ := Text.joined_inj (by decide) (by decide) (by simpa using h)
    (by simpa using h') (by simpa using hall) heq
  exact ⟨(List.map_inj_right fun _ _ => String.toList_inj.1).1 htexts, hr⟩

theorem readable_of_mem {units : Bool} : ∀ {ss : List Space}, readableAll units ss = true →
    ∀ s ∈ ss, s.readable units = true
  | [], _ => by simp
  | s :: ss, h => by
      rw [readableAll, Bool.and_eq_true] at h
      exact List.forall_mem_cons.2 ⟨h.1, readable_of_mem h.2⟩

theorem readable_of_mem_fields {units : Bool} : ∀ {fs : List (String × Space)},
    readableFields units fs = true → ∀ f ∈ fs, ':' ∉ f.1.toList ∧ f.2.readable units = true
  | [], _ => by simp
  | (name, s) :: fs, h => by
      simp only [readableFields, Bool.and_eq_true, Bool.not_eq_true', List.contains_eq_mem,
        decide_eq_false_iff_not] at h
      exact List.forall_mem_cons.2 ⟨h.1, readable_of_mem_fields h.2⟩

theorem toList_fieldText (name : String) (s : Space) :
    (name ++ ": " ++ s.render).toList = name.toList ++ ':' :: ' ' :: s.chars := by
  simp [chars]

/-- Only spaces that begin alike have to be told apart, and of those only spaces that are narrowed
down. -/
theorem apart_of_same_lead {units : Bool} {s s' : Space} (h : s.readable units = true)
    (h' : s'.readable units = true)
    (hsame : s.lead = s'.lead → s.lead ≠ .any → Text.Apart s.chars s'.chars) :
    Text.Apart s.chars s'.chars := by
  by_cases hlead : s.lead = s'.lead
  · by_cases hany : s.lead = .any
    · rw [chars_of_lead_any hany, chars_of_lead_any (hlead ▸ hany)]
      exact Text.apart_self _
    · exact hsame hlead hany
  · exact apart_of_lead_ne h h' hlead

mutual

/-- The texts of spaces are apart. -/
theorem apart_chars {units : Bool} : ∀ {s s' : Space}, s.readable units = true →
    s'.readable units = true → Text.Apart s.chars s'.chars
  | .anything, _, h, h' => apart_of_same_lead h h' fun _ hany => absurd rfl hany
  | _, .anything, h, h' => apart_of_same_lead h h' fun hlead hany => absurd hlead hany
  | .literal kind text, .literal kind' text', h, h' =>
      apart_of_same_lead h h' fun hlead _ => by
        rw [readable] at h h'
        obtain rfl := kind_eq_of_lead h h' hlead
        exact apart_literal h h'
  | .literal kind text, .tuple ss, h, h' =>
      apart_of_same_lead h h' fun hlead _ r r' _ _ heq =>
        absurd heq (literal_append_ne h h' hlead r r')
  | .tuple ss, .literal kind text, h, h' =>
      apart_of_same_lead h h' fun hlead _ r r' _ _ heq =>
        absurd heq.symm (literal_append_ne h' h hlead.symm r' r)
  | .tuple ss, .tuple ss', h, h' => by
      intro r r' _ _ heq
      rw [readable, Bool.and_eq_true] at h h'
      obtain ⟨htexts, hr⟩ := renderAll_eq_of_chars h.2 h'.2 (apart_renderAll h.2 h'.2) heq
      exact ⟨by rw [chars_tuple, chars_tuple, htexts], hr⟩
  | .record fs, .record fs', h, h' => by
      refine apart_of_same_lead h h' fun hlead hany r r' _ _ heq => ?_
      rw [readable] at h h'
      have hfs : renderFields fs ≠ [] := fun hnil => hany (by rw [lead, if_pos hnil])
      have hfs' : renderFields fs' ≠ [] := fun hnil =>
        hany (hlead.trans (by rw [lead, if_pos hnil]))
      obtain ⟨htexts, hr⟩ := renderFields_eq_of_chars hfs hfs' (apart_renderFields h h') heq
      exact ⟨by rw [chars_record, chars_record, htexts], hr⟩
  | .literal kind text, .record fs, h, h' =>
      apart_of_same_lead h h' fun hlead hany =>
        absurd hlead.symm (lead_record_ne hany (lead_literal_ne_brace kind text))
  | .record fs, .literal kind text, h, h' =>
      apart_of_same_lead h h' fun hlead hany =>
        absurd hlead (lead_record_ne (hlead ▸ hany) (lead_literal_ne_brace kind text))
  | .tuple ss, .record fs, h, h' =>
      apart_of_same_lead h h' fun hlead _ =>
        absurd hlead.symm (lead_record_ne (by simp [lead]) (by simp [lead]))
  | .record fs, .tuple ss, h, h' =>
      apart_of_same_lead h h' fun hlead _ =>
        absurd hlead (lead_record_ne (by simp [lead]) (by simp [lead]))

theorem apart_renderAll {units : Bool} : ∀ {ss ss' : List Space}, readableAll units ss = true →
    readableAll units ss' = true →
      ∀ text ∈ renderAll ss, ∀ text' ∈ renderAll ss', Text.Apart text.toList text'.toList
  | [], _, _, _ => by simp [renderAll]
  | s :: ss, ss', h, h' => by
      rw [readableAll, Bool.and_eq_true] at h
      rw [renderAll, List.forall_mem_cons]
      refine ⟨fun text' htext' => ?_, apart_renderAll h.2 h'⟩
      obtain ⟨s', hs', rfl⟩ := mem_renderAll.1 htext'
      exact apart_chars h.1 (readable_of_mem h' s' hs')

theorem apart_renderFields {units : Bool} : ∀ {fs fs' : List (String × Space)},
    readableFields units fs = true → readableFields units fs' = true →
      ∀ text ∈ renderFields fs, ∀ text' ∈ renderFields fs', Text.Apart text.toList text'.toList
  | [], _, _, _ => by simp [renderFields]
  | (name, s) :: fs, fs', h, h' => by
      have hall := readable_of_mem_fields h
      rw [readableFields, Bool.and_eq_true] at h
      have hrest := apart_renderFields h.2 h'
      rw [renderFields]
      split
      · exact hrest
      · refine List.forall_mem_cons.2 ⟨fun text' htext' => ?_, hrest⟩
        obtain ⟨f, hf, -, rfl⟩ := mem_renderFields.1 htext'
        obtain ⟨hname', hs'⟩ := readable_of_mem_fields h' f hf
        obtain ⟨hname, hs⟩ := hall _ List.mem_cons_self
        rw [toList_fieldText, toList_fieldText]
        exact Text.apart_named hname hname' (apart_chars hs hs')

end

/-! ## What spaces of one text have in common -/

section

variable {units : Bool} {s : Space}

theorem lead_eq_of_render {s' : Space} (h : s.readable units = true)
    (h' : s'.readable units = true) (heq : s.render = s'.render) : s.lead = s'.lead := by
  obtain ⟨c, cs, hs, hlead, -⟩ := exists_lead h
  obtain ⟨c', cs', hs', hlead', -⟩ := exists_lead h'
  rw [chars, heq, ← chars, hs'] at hs
  rw [← hlead, ← hlead', List.head_eq_of_cons_eq hs]

/-- A space with the text of a literal is that literal; of unit there is only one. -/
theorem eq_literal_of_render {kind : LiteralKind} {text : String}
    (h : (Space.literal kind text).readable units = true) (h' : s.readable units = true)
    (heq : (Space.literal kind text).render = s.render) :
    ∃ text', s = .literal kind text' ∧ (kind = .unit ∨ text = text') := by
  have hlead := lead_eq_of_render h h' heq
  cases s with
  | anything => cases kind <;> cases hlead
  | literal kind' text' =>
      rw [readable] at h h'
      obtain rfl := kind_eq_of_lead h h' hlead
      refine ⟨text', rfl, ?_⟩
      rw [render, render] at heq
      cases kind with
      | unit => exact .inl rfl
      | int | other => exact .inr heq
      | string =>
          have hchars := congrArg String.toList heq
          simp only [LiteralKind.render, Text.quoted, String.toList_ofList, List.cons_append,
            List.cons.injEq, true_and] at hchars
          exact .inr (String.toList_inj.1 (Text.escaped_inj hchars).1)
      | bool =>
          simp only [readableLiteral, Bool.or_eq_true, beq_iff_eq] at h h'
          rcases h with rfl | rfl <;> rcases h' with rfl | rfl <;>
            first | exact .inr rfl | (revert heq; decide)
  | tuple ss =>
      refine absurd (congrArg (fun text => text.toList ++ []) heq) ?_
      exact literal_append_ne h h' hlead [] []
  | record fs =>
      refine absurd hlead.symm (lead_record_ne ?_ (lead_literal_ne_brace kind text))
      cases kind <;> simp [lead]

/-- A space with the text of a tuple is a tuple, with elements of the same texts. -/
theorem eq_tuple_of_render {ss : List Space} (h : (Space.tuple ss).readable units = true)
    (h' : s.readable units = true) (heq : (Space.tuple ss).render = s.render) :
    ∃ ss', s = .tuple ss' ∧ renderAll ss = renderAll ss' := by
  have hlead := lead_eq_of_render h h' heq
  cases s with
  | anything => cases hlead
  | literal kind text =>
      refine absurd (congrArg (fun text => text.toList ++ []) heq.symm) ?_
      exact literal_append_ne h' h hlead.symm [] []
  | tuple ss' =>
      refine ⟨ss', rfl, ?_⟩
      rw [readable, Bool.and_eq_true] at h h'
      have hchars : (Space.tuple ss).chars ++ [] = (Space.tuple ss').chars ++ [] :=
        congrArg (fun text => text.toList ++ []) heq
      exact (renderAll_eq_of_chars h.2 h'.2 (apart_renderAll h.2 h'.2) hchars).1
  | record fs => exact absurd hlead.symm (lead_record_ne (by simp [lead]) (by simp [lead]))

/-- Records of one text are narrowed down by fields of the same texts. -/
theorem renderFields_eq_of_render {fs fs' : List (String × Space)}
    (h : (Space.record fs).readable units = true) (h' : (Space.record fs').readable units = true)
    (heq : (Space.record fs).render = (Space.record fs').render) :
    renderFields fs = renderFields fs' := by
  have hlead := lead_eq_of_render h h' heq
  rw [readable] at h h'
  rw [lead, lead] at hlead
  by_cases hfs : renderFields fs = []
  · by_cases hfs' : renderFields fs' = []
    · rw [hfs, hfs']
    · rw [if_pos hfs, if_neg hfs'] at hlead
      cases hlead
  · by_cases hfs' : renderFields fs' = []
    · rw [if_neg hfs, if_pos hfs'] at hlead
      cases hlead
    · have hchars : (Space.record fs).chars ++ [] = (Space.record fs').chars ++ [] :=
        congrArg (fun text => text.toList ++ []) heq
      exact (renderFields_eq_of_chars hfs hfs' (apart_renderFields h h') hchars).1

/-- Fields of one text have the same name and the same text inside. -/
theorem eq_of_fieldText {name name' : String} {s' : Space} (hname : ':' ∉ name.toList)
    (hname' : ':' ∉ name'.toList)
    (heq : name ++ ": " ++ s.render = name' ++ ": " ++ s'.render) :
    name = name' ∧ s.render = s'.render := by
  have htext := congrArg String.toList heq
  rw [toList_fieldText, toList_fieldText] at htext
  obtain ⟨hnames, hchars⟩ := Text.named_inj hname hname' htext
  exact ⟨String.toList_inj.1 hnames, String.toList_inj.1 hchars⟩

end

end Space

end RowTypes
