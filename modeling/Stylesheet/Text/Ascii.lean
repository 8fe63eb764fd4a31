/-!
Letter case. Names and keywords are compared without regard to the case of the letters `A` to
`Z`; every other character counts as it is.
-/

namespace Stylesheet.Text

/-- The text with `A` to `Z` made small; other characters, letters beyond ASCII included, stay. -/
def lower (s : String) : String :=
  String.ofList (s.toList.map Char.toLower)

/-- Whether two texts agree up to the case of ASCII letters. -/
def sameWord (s t : String) : Bool :=
  lower s == lower t

/-- Whether a word of a table is the given one, up to the case of ASCII letters. -/
def isAmong (words : List String) (s : String) : Bool :=
  words.any (sameWord · s)

def isHexDigit (c : Char) : Bool :=
  c.isDigit || ('a' ≤ c && c ≤ 'f') || ('A' ≤ c && c ≤ 'F')

/-- The value of a hexadecimal digit, of either case. -/
def hexValue (c : Char) : Nat :=
  if c.isDigit then c.toNat - '0'.toNat else c.toLower.toNat - 'a'.toNat + 10

def isAscii (c : Char) : Bool :=
  c.toNat < 128

end Stylesheet.Text
