/-!
# Small pieces of layout

What the printers of types, annotations, patterns and expressions have in common.
-/

namespace RowTypes.Text

/-- Puts a text in parentheses when its place asks for them. -/
def parens (wanted : Bool) (s : String) : String := if wanted then "(" ++ s ++ ")" else s

/-- Texts one after the other, set off by commas. -/
def commas (ss : List String) : String := ", ".intercalate ss

def braces (s : String) : String := "\x7b" ++ s ++ "\x7d"

end RowTypes.Text
