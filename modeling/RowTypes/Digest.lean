/-!
# Structural digests

Types, constraints and syntax trees are told apart by a 64-bit FNV-1a digest.  A digest is taken
over bytes: a text contributes its UTF-8 bytes and a word its eight bytes, the lowest first, so
that a node is digested from its tag and the digests of its parts.
-/

namespace RowTypes

abbrev Digest := UInt64

namespace Digest

/-- The digest of the empty message. -/
def basis : Digest := 0xcbf29ce484222325

/-- What the digest is multiplied by after each byte. -/
def prime : Digest := 0x100000001b3

/-- The FNV-1a digest of a message. -/
def ofBytes (message : List UInt8) : Digest :=
  message.foldl (fun h b => (h ^^^ b.toUInt64) * prime) basis

def textBytes (s : String) : List UInt8 := s.toUTF8.data.toList

/-- The eight bytes of a word, the lowest first. -/
def wordBytes (w : Digest) : List UInt8 :=
  [w.toUInt8, (w >>> 8).toUInt8, (w >>> 16).toUInt8, (w >>> 24).toUInt8,
    (w >>> 32).toUInt8, (w >>> 40).toUInt8, (w >>> 48).toUInt8, (w >>> 56).toUInt8]

def ofText (s : String) : Digest := ofBytes (textBytes s)

def ofWords (parts : List Digest) : Digest := ofBytes (parts.flatMap wordBytes)

/-- The digest of a node: its tag, then its parts. -/
def node (tag : String) (parts : List Digest) : Digest :=
  ofBytes (textBytes tag ++ parts.flatMap wordBytes)

/-- An integer as a word, in two's complement. -/
def ofInt (i : Int) : Digest := UInt64.ofInt i

/-- The words in ascending order: what a collection without order contributes. -/
def sorted (parts : List Digest) : List Digest := parts.mergeSort

def hex (d : Digest) : String :=
  let digits := Nat.toDigits 16 d.toNat
  String.ofList (List.replicate (16 - digits.length) '0' ++ digits)

end Digest

end RowTypes
