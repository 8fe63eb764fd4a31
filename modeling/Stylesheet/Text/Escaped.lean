import Stylesheet.Text.Ascii
/-!
Escapes in written CSS. A name keeps letters, digits, `_`, `-` and everything beyond ASCII; what
else it holds is written behind a backslash, a control character by its code. A string is written
in double quotes.
-/

namespace Stylesheet.Text.Escaped

def isControl (c : Char) : Bool :=
  c.toNat < 32 || c.toNat == 127

/-- A backslash and the code in hexadecimal. The blank ends the code, so that a digit may follow. -/
def code (c : Char) : List Char :=
  '\\' :: (Nat.toDigits 16 c.toNat ++ [' '])

def isPlain (c : Char) : Bool :=
  c.isAlphanum || c == '_' || c == '-' || !isAscii c

-- NUL has no escape: its code reads back as U+FFFD, which is what is written for it.
def nameChar (c : Char) : List Char :=
  if c.toNat = 0 then ['\uFFFD']
  else if isPlain c then [c]
  else if isControl c then code c
  else ['\\', c]

def stringChar (c : Char) : List Char :=
  if c.toNat = 0 then ['\uFFFD']
  else if c = '\x22' || c = '\\' then ['\\', c]
  else if isControl c then code c
  else [c]

def nameChars (cs : List Char) : List Char :=
  cs.flatMap nameChar

/-- The characters of an identifier behind its optional hyphen: a digit may not come first. -/
def leadingChars : List Char → List Char
  | [] => []
  | c :: rest => (if c.isDigit then code c else nameChar c) ++ nameChars rest

/-- The characters of an identifier. Two hyphens may start one, a lone hyphen is none. -/
def identifierChars : List Char → List Char
  | '-' :: '-' :: rest => '-' :: '-' :: nameChars rest
  | ['-'] => ['\\', '-']
  | '-' :: rest => '-' :: leadingChars rest
  | cs => leadingChars cs

def quotedChars (cs : List Char) : List Char :=
  '\x22' :: (cs.flatMap stringChar ++ ['\x22'])

def name (s : String) : String :=
  String.ofList (nameChars s.toList)

def identifier (s : String) : String :=
  String.ofList (identifierChars s.toList)

def quoted (s : String) : String :=
  String.ofList (quotedChars s.toList)

end Stylesheet.Text.Escaped
