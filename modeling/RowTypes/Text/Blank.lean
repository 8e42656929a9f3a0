/-!
# Blank characters

The characters of Unicode's white space, and the trimming of texts.
-/

namespace RowTypes.Text

def isBlank (c : Char) : Bool :=
  let n := c.toNat
  (0x09 ≤ n && n ≤ 0x0d) || n == 0x20 || n == 0x85 || n == 0xa0 || n == 0x1680
    || (0x2000 ≤ n && n ≤ 0x200a) || n == 0x2028 || n == 0x2029 || n == 0x202f || n == 0x205f
    || n == 0x3000

/-- A text without the characters of a class at its ends. -/
def trimBy (p : Char → Bool) (cs : List Char) : List Char :=
  ((cs.dropWhile p).reverse.dropWhile p).reverse

/-- A text without white space at its ends. -/
def trimBlank (cs : List Char) : List Char := trimBy isBlank cs

end RowTypes.Text
