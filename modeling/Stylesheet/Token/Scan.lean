import Stylesheet.Diagnostic
import Stylesheet.Text.Blank
/-!
The parts of tokens. Each span splits a text in two: what belongs to a name, the content of a
string, the target of an unquoted `url(`, or a numeral, and the rest. What is split off is the text
as written; `unescape` decodes it. Main statements: the two parts of a span are the whole text
(`nameSpan_append`, `stringSpan_append`, `targetSpan_append`, `numeral_append`).
-/

namespace Stylesheet

namespace Lexing

/-- Whether non-ASCII characters may stand in names is a setting, here as everywhere below called
`multibyte`. -/
def isNameStart (multibyte : Bool) (c : Char) : Bool :=
  c.isAlpha || c == '_' || (!Text.isAscii c && multibyte)

def isNameChar (multibyte : Bool) (c : Char) : Bool :=
  isNameStart multibyte c || c.isDigit || c == '-'

/-- A backslash starts an escape unless the line or the text ends behind it. -/
def startsEscape : List Char → Bool
  | '\\' :: c :: _ => c != '\n'
  | _ => false

def startsIdentifier (multibyte : Bool) : List Char → Bool
  | '-' :: '-' :: _ => true
  | '-' :: c :: rest => isNameStart multibyte c || startsEscape (c :: rest)
  | c :: rest => isNameStart multibyte c || startsEscape (c :: rest)
  | [] => false

def startsDigit : List Char → Bool
  | c :: _ => c.isDigit
  | [] => false

/-- Digits, or a point and a digit. -/
def startsUnsigned : List Char → Bool
  | '.' :: rest => startsDigit rest
  | cs => startsDigit cs

def startsNumber : List Char → Bool
  | c :: rest => if c = '+' || c = '-' then startsUnsigned rest else startsUnsigned (c :: rest)
  | [] => false

/-! ### Escapes -/

/-- What an escape waits for: nothing if there is none, any character directly behind the
backslash, and behind a hexadecimal digit some more of them and a blank. -/
inductive Pending where
  | nothing
  | any
  | hex (left code : Nat)

/-- Whether an escape takes a character in, and what it waits for then. -/
def Pending.take? : Pending → Char → Option Pending
  | nothing, _ => none
  | any, c => some (if Text.isHexDigit c then hex 5 (Text.hexValue c) else nothing)
  | hex left code, c =>
    if 0 < left && Text.isHexDigit c then some (hex (left - 1) (16 * code + Text.hexValue c))
    else if Text.isBlank c then some nothing
    else none

/-- The character with a code. Zero, surrogates and codes beyond Unicode stand for U+FFFD. -/
def charOfCode (code : Nat) : Char :=
  if h : code.isValidChar then
    if code = 0 then '\uFFFD' else Char.ofNatAux code h
  else '\uFFFD'

/-- Decodes the escapes of a text. Up to six hexadecimal digits and a blank behind them are a code;
an escaped line end is no part of the text, and any other character stands for itself. -/
def unescape : Pending → List Char → Except LexicalFault (List Char)
  | .nothing, [] => .ok []
  | .any, [] => .error .escapeAtEnd
  | .hex _ code, [] => .ok [charOfCode code]
  | .nothing, c :: rest =>
    if c = '\\' then unescape .any rest else (unescape .nothing rest).map (c :: ·)
  | .any, c :: rest =>
    if Text.isHexDigit c then unescape (.hex 5 (Text.hexValue c)) rest
    else if c = '\n' then unescape .nothing rest
    else (unescape .nothing rest).map (c :: ·)
  | .hex left code, c :: rest =>
    if 0 < left && Text.isHexDigit c then
      unescape (.hex (left - 1) (16 * code + Text.hexValue c)) rest
    else if Text.isBlank c then (unescape .nothing rest).map (charOfCode code :: ·)
    else if c = '\\' then (unescape .any rest).map (charOfCode code :: ·)
    else (unescape .nothing rest).map (charOfCode code :: c :: ·)

/-! ### Spans -/

abbrev Span := List Char × List Char

def extend (c : Char) (s : Span) : Span :=
  (c :: s.1, s.2)

/-- The characters of a name. There may be none. -/
def nameSpan (multibyte : Bool) : Pending → List Char → Span
  | _, [] => ([], [])
  | pending, c :: rest =>
    match pending.take? c with
    | some pending => extend c (nameSpan multibyte pending rest)
    | none =>
      if isNameChar multibyte c then extend c (nameSpan multibyte .nothing rest)
      else if startsEscape (c :: rest) then extend c (nameSpan multibyte .any rest)
      else ([], c :: rest)

/-- The content of a string, up to a closing quote or the end of its line. -/
def stringSpan (quote : Char) : Pending → List Char → Span
  | _, [] => ([], [])
  | pending, c :: rest =>
    match pending.take? c with
    | some pending => extend c (stringSpan quote pending rest)
    | none =>
      if c = '\n' || c = quote then ([], c :: rest)
      else extend c (stringSpan quote (if c = '\\' then .any else .nothing) rest)

/-- Whether a character may not stand in the target of an unquoted `url(`. -/
def endsTarget (c : Char) : Bool :=
  c == ')' || Text.isBlank c || Selector.isQuote c || c == '('

/-- The target of an unquoted `url(`, up to what cannot be part of it. -/
def targetSpan : Pending → List Char → Span
  | _, [] => ([], [])
  | pending, c :: rest =>
    match pending.take? c with
    | some pending => extend c (targetSpan pending rest)
    | none =>
      if endsTarget c then ([], c :: rest)
      else if c = '\\' then
        if startsEscape (c :: rest) then extend c (targetSpan .any rest) else ([], c :: rest)
      else extend c (targetSpan .nothing rest)

/-- A text through the next `)`. -/
def parenSpan : List Char → Span
  | [] => ([], [])
  | c :: rest => if c = ')' then ([c], rest) else extend c (parenSpan rest)

def blankSpan (cs : List Char) : Span :=
  (cs.takeWhile Text.isBlank, cs.dropWhile Text.isBlank)

def digitSpan (cs : List Char) : Span :=
  (cs.takeWhile Char.isDigit, cs.dropWhile Char.isDigit)

def signSpan : List Char → Span
  | c :: rest => if c = '+' || c = '-' then ([c], rest) else ([], c :: rest)
  | [] => ([], [])

/-- A point and the digits behind it. Without a digit the point is no part of a numeral. -/
def fractionSpan : List Char → Span
  | '.' :: rest => if startsDigit rest then extend '.' (digitSpan rest) else ([], '.' :: rest)
  | cs => ([], cs)

/-- An exponent. Without a digit its letter starts a unit instead. -/
def exponentSpan : List Char → Span
  | e :: rest =>
    let (sign, digits) := signSpan rest
    if (e = 'e' || e = 'E') && startsDigit digits then
      (e :: (sign ++ (digitSpan digits).1), (digitSpan digits).2)
    else ([], e :: rest)
  | [] => ([], [])

/-- The numeral in front of a text. -/
def numeral (cs : List Char) : Span :=
  let (sign, cs) := signSpan cs
  let (whole, cs) := digitSpan cs
  let (fraction, cs) := fractionSpan cs
  let (exponent, cs) := exponentSpan cs
  (sign ++ whole ++ fraction ++ exponent, cs)

theorem extend_append {c : Char} {s : Span} {cs : List Char} (h : s.1 ++ s.2 = cs) :
    (extend c s).1 ++ (extend c s).2 = c :: cs := by
  rw [← h]
  rfl

theorem nameSpan_append (multibyte : Bool) (pending : Pending) (cs : List Char) :
    (nameSpan multibyte pending cs).1 ++ (nameSpan multibyte pending cs).2 = cs := by
  fun_induction nameSpan multibyte pending cs with
  | case1 | case5 => rfl
  | case2 _ _ _ _ _ ih | case3 _ _ _ _ _ ih | case4 _ _ _ _ _ _ ih => exact extend_append ih

theorem stringSpan_append (quote : Char) (pending : Pending) (cs : List Char) :
    (stringSpan quote pending cs).1 ++ (stringSpan quote pending cs).2 = cs := by
  fun_induction stringSpan quote pending cs with
  | case1 | case3 => rfl
  | case2 _ _ _ _ _ ih | case4 _ _ _ _ _ ih => exact extend_append ih

theorem targetSpan_append (pending : Pending) (cs : List Char) :
    (targetSpan pending cs).1 ++ (targetSpan pending cs).2 = cs := by
  fun_induction targetSpan pending cs with
  | case1 | case3 | case5 => rfl
  | case2 _ _ _ _ _ ih | case4 _ _ _ _ _ ih | case6 _ _ _ _ _ _ ih => exact extend_append ih

theorem parenSpan_append (cs : List Char) : (parenSpan cs).1 ++ (parenSpan cs).2 = cs := by
  fun_induction parenSpan cs with
  | case1 | case2 => rfl
  | case3 _ _ _ ih => exact extend_append ih

theorem blankSpan_append (cs : List Char) : (blankSpan cs).1 ++ (blankSpan cs).2 = cs :=
  List.takeWhile_append_dropWhile

theorem digitSpan_append (cs : List Char) : (digitSpan cs).1 ++ (digitSpan cs).2 = cs :=
  List.takeWhile_append_dropWhile

theorem signSpan_append (cs : List Char) : (signSpan cs).1 ++ (signSpan cs).2 = cs := by
  fun_cases signSpan cs <;> rfl

theorem fractionSpan_append (cs : List Char) : (fractionSpan cs).1 ++ (fractionSpan cs).2 = cs := by
  fun_cases fractionSpan cs with
  | case1 rest => exact extend_append (digitSpan_append rest)
  | case2 | case3 => rfl

theorem exponentSpan_append (cs : List Char) : (exponentSpan cs).1 ++ (exponentSpan cs).2 = cs := by
  fun_cases exponentSpan cs with
  | case1 e rest sign digits h =>
    have hs := signSpan_append rest
    rw [h] at hs
    simp only [List.cons_append, List.append_assoc, digitSpan_append, hs]
  | case2 | case3 => rfl

theorem numeral_append (cs : List Char) : (numeral cs).1 ++ (numeral cs).2 = cs := by
  simp only [numeral, List.append_assoc, exponentSpan_append, fractionSpan_append,
    digitSpan_append, signSpan_append]

end Lexing
end Stylesheet
