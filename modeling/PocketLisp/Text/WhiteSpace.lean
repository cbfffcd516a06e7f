/-!
# White space

The characters that separate tokens: the Unicode property `White_Space`, as ranges of code
points. Information separators, zero-width spaces and the byte order mark are not in it.
-/

namespace PocketLisp.Text

/-- First and last code point of every range of the property. -/
def whiteSpaceRanges : List (Nat × Nat) :=
  [(0x09, 0x0D), (0x20, 0x20), (0x85, 0x85), (0xA0, 0xA0), (0x1680, 0x1680), (0x2000, 0x200A),
   (0x2028, 0x2029), (0x202F, 0x202F), (0x205F, 0x205F), (0x3000, 0x3000)]

def isWhiteSpace (c : Char) : Bool :=
  whiteSpaceRanges.any fun (first, last) => first ≤ c.toNat && c.toNat ≤ last

end PocketLisp.Text
