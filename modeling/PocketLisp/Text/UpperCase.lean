/-!
# Upper case of names

Keywords and primitives are found under the upper-case form of the name written in the program.
All their names are ASCII, so only those entries of the Unicode upper-case map matter whose result
is ASCII: the small letters, the dotless and the long letter, the sharp s and the Latin ligatures.
Every other character stands for itself, and a name that holds one is no name of the language.
-/

namespace PocketLisp.Text

/-- Characters beyond ASCII whose upper case is ASCII. -/
def upperCaseBeyondAscii : List (Char × List Char) :=
  [('ß', ['S', 'S']), ('ı', ['I']), ('ſ', ['S']), ('ﬀ', ['F', 'F']), ('ﬁ', ['F', 'I']),
   ('ﬂ', ['F', 'L']), ('ﬃ', ['F', 'F', 'I']), ('ﬄ', ['F', 'F', 'L']), ('ﬅ', ['S', 'T']),
   ('ﬆ', ['S', 'T'])]

/-- A character may become several. -/
def upperCaseOf (c : Char) : List Char :=
  if c.toNat < 0x80 then [c.toUpper]
  else (upperCaseBeyondAscii.lookup c).getD [c]

def upperCase (s : String) : String :=
  String.ofList (s.toList.flatMap upperCaseOf)

end PocketLisp.Text
