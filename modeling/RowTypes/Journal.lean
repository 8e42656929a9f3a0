/-!
# The journal

What checking notes down is filtered by sections.  Warnings and errors always pass.  Other records
pass if they belong to a section whose name starts with that of an enabled one; the name `all`
enables every section.  A record belongs to the section that the journal's own attributes name
last, and to those that its own attributes name.

The value of an attribute is a text, a part of a program that is shown as its source text, or
nothing.  A part of a program is no name of a section: where one stands in the place of a name, it
counts as the text that values without a text of their own have, whose start is `opaqueText`.
-/

namespace RowTypes

/-- The value of an attribute. -/
inductive JournalValue where
  | text (s : String)
  /-- A part of a program, by its source text. -/
  | source (s : String)
  /-- A part of a program that is not there. -/
  | absent
  deriving Repr, DecidableEq, Inhabited

/-- An attribute of a record, or the name of a group that the following attributes belong to. -/
inductive JournalItem where
  | attribute (key : String) (value : JournalValue)
  | group (name : String)
  deriving Repr, DecidableEq, Inhabited

/-- A journal: the enabled sections, the items that every record starts with, and the section that
they put it into. -/
structure Journal where
  enabled : List String := []
  items : List JournalItem := []
  current : String := ""
  deriving Repr, DecidableEq, Inhabited

/-- A record that passed, with all its items. -/
structure JournalRecord where
  message : String
  items : List JournalItem
  deriving Repr, DecidableEq, Inhabited

namespace JournalValue

/-- How the text of a value without a text of its own starts. -/
def opaqueText : String := "\x7b0x"

/-- How a value that is not there is shown. -/
def absentText : String := "<nil>"

def render : JournalValue → String
  | .text s | .source s => s
  | .absent => absentText

/-- The section that a value names. -/
def sectionName : JournalValue → String
  | .text s => s
  | .source _ => opaqueText
  | .absent => absentText

end JournalValue

namespace Journal

/-- Attributes: keys and values. -/
abbrev Attributes := List (String × JournalValue)

def sectionKey : String := "section"

/-- The lowest level that always passes. -/
def warningLevel : Int := 4

def itemsOf (attributes : Attributes) : List JournalItem :=
  attributes.map fun (key, value) => .attribute key value

/-- The sections that attributes name, in order. -/
def sectionsOf (attributes : Attributes) : List String :=
  (attributes.filter fun (key, _) => key == sectionKey).map fun (_, value) => value.sectionName

def wants (j : Journal) (name : String) : Bool :=
  j.enabled.any fun e => e == "all" || e.toList.isPrefixOf name.toList

/-- The journal whose records start with more attributes; the last of them that names a section
puts the records into it. -/
def extend (j : Journal) (attributes : Attributes) : Journal :=
  { j with
    items := j.items ++ itemsOf attributes
    current := (sectionsOf attributes).getLastD j.current }

/-- The journal whose following attributes belong to a group. A group without a name is none. -/
def openGroup (j : Journal) (name : String) : Journal :=
  if name = "" then j else { j with items := j.items ++ [.group name] }

/-- Whether a record of a level with some attributes passes. -/
def passes (j : Journal) (level : Int) (attributes : Attributes) : Bool :=
  warningLevel ≤ level || (j.current ≠ "" && j.wants j.current)
    || (sectionsOf attributes).any j.wants

/-- The record as it passes, if it does. -/
def record? (j : Journal) (level : Int) (message : String) (attributes : Attributes) :
    Option JournalRecord :=
  if j.passes level attributes then some ⟨message, j.items ++ itemsOf attributes⟩ else none

end Journal

end RowTypes
