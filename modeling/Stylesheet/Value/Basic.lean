import Stylesheet.Format
import Stylesheet.Number.Basic
import Stylesheet.Text.Escaped
/-!
Property values: sizes, words, colors, strings, urls and functions, joined to pairs by `/` and to
lists by white space or commas. `Value.same` is the equality of values, `Value.write` their text.
-/

namespace Stylesheet

/-- A number with an optional unit. A percent sign is one. -/
structure Size where
  value : Number
  unit : Option String
deriving DecidableEq

namespace Size

/-- The size of a number and a unit, which is kept in small letters. -/
def ofParts (value : Number) (unit : Option String) : Size :=
  ⟨value, unit.map Text.lower⟩

def same (s t : Size) : Bool :=
  s.value.same t.value && s.unit == t.unit

def css (s : Size) : String :=
  s.value.css ++ s.unit.getD ""

end Size

inductive Separator where
  | space
  | comma
deriving DecidableEq

/-- Whether the value of a function is a color. -/
inductive FunctionKind where
  | plain
  | color
deriving DecidableEq

inductive Value where
  | size (size : Size)
  /-- A bare word; also a character that stands for itself, and `#` with a name that is no color. -/
  | keyword (word : String)
  /-- A color by its hexadecimal digits. -/
  | hex (digits : String)
  | string (content : String)
  | url (target : String)
  /-- A function; without a name, parentheses. -/
  | function (kind : FunctionKind) (name : String) (arguments : Option Value)
  /-- Two values joined by `/`. -/
  | pair (first second : Value)
  | list (separator : Separator) (items : List Value)
deriving Inhabited

namespace Value

mutual

/-- Equality, in which numbers are compared by value: `nan` differs from itself. -/
def same : Value → Value → Bool
  | size s, size t => s.same t
  | keyword s, keyword t => s == t
  | hex s, hex t => s == t
  | string s, string t => s == t
  | url s, url t => s == t
  | function kind name arguments, function kind' name' arguments' =>
    kind == kind' && name == name' && sameArguments arguments arguments'
  | pair v w, pair v' w' => v.same v' && w.same w'
  | list separator items, list separator' items' =>
    separator == separator' && sameItems items items'
  | _, _ => false

def sameArguments : Option Value → Option Value → Bool
  | some v, some w => v.same w
  | none, none => true
  | _, _ => false

def sameItems : List Value → List Value → Bool
  | v :: vs, w :: ws => v.same w && sameItems vs ws
  | [], [] => true
  | _, _ => false

end

instance : BEq Value :=
  ⟨same⟩

/-- Joins values. One value alone makes no list. -/
def join (separator : Separator) : List Value → Value
  | [v] => v
  | items => list separator items

def spaceList (items : List Value) : Value :=
  join .space items

def commaList (items : List Value) : Value :=
  join .comma items

/-- A list with one more item; any other value stays. -/
def push (item : Value) : Value → Value
  | list separator items => list separator (items ++ [item])
  | v => v

def isKeyword (word : String) : Value → Bool
  | keyword w => Text.sameWord w word
  | _ => false

def keyword? : Value → Option String
  | keyword word => some word
  | _ => none

def size? : Value → Option Size
  | size s => some s
  | _ => none

def isList : Value → Bool
  | list _ _ => true
  | _ => false

def isCommaList : Value → Bool
  | list .comma _ => true
  | _ => false

/-- The items of a space list; of any other value, the value itself. -/
def components : Value → List Value
  | list .space items => items
  | v => [v]

mutual

/-- The value and all values in it, each in front of its parts. -/
def subvalues : Value → List Value
  | v@(function _ _ arguments) => v :: argumentSubvalues arguments
  | v@(pair first second) => v :: (first.subvalues ++ second.subvalues)
  | v@(list _ items) => v :: itemSubvalues items
  | v => [v]

def argumentSubvalues : Option Value → List Value
  | some v => v.subvalues
  | none => []

def itemSubvalues : List Value → List Value
  | v :: vs => v.subvalues ++ itemSubvalues vs
  | [] => []

end

mutual

/-- The values that lists and pairs are made of. A function counts as one, whatever is in it. -/
def leaves : Value → List Value
  | pair first second => first.leaves ++ second.leaves
  | list _ items => itemLeaves items
  | v => [v]

def itemLeaves : List Value → List Value
  | v :: vs => v.leaves ++ itemLeaves vs
  | [] => []

end

/-- The functions whose values are colors. -/
def colorFunctions : List String :=
  ["rgb", "rgba", "hsl", "hsla", "hwb", "lab", "lch", "oklab", "oklch", "color"]

def isColorFunction (name : String) : Bool :=
  Text.isAmong colorFunctions name

/-- Whether digits make a color: three, four, six or eight hexadecimal ones. -/
def isHexColor (digits : List Char) : Bool :=
  [3, 4, 6, 8].contains digits.length && digits.all Text.isHexDigit

/-- A text less its first `#`, if it starts with one. -/
def dropHash : List Char → List Char
  | '#' :: rest => rest
  | cs => cs

/-- The color of a text, with or without `#` in front. -/
def hex? (text : String) : Option Value :=
  let digits := dropHash text.toList
  if isHexColor digits then some (hex (Text.lower (String.ofList digits))) else none

/-- One digit for each pair of equal ones. -/
def halved? : List Char → Option (List Char)
  | [] => some []
  | c :: d :: rest => if c = d && Text.isAscii c then (halved? rest).map (c :: ·) else none
  | [_] => none

/-- The digits of a color as the format wants them. Six and eight digits may halve. -/
def writeHex (short : Bool) (digits : String) : String :=
  let cs := digits.toList
  if short && (cs.length == 6 || cs.length == 8) then
    match halved? cs with
    | some halved => "#" ++ String.ofList halved
    | none => "#" ++ digits
  else "#" ++ digits

/-- Whether a word is no name, but a character that stands for itself or `#` with a name. It is
written without escapes. -/
def isVerbatim (word : String) : Bool :=
  match word.toList with
  | c :: cs => c == '#' || (cs.isEmpty && Text.isAscii c && !c.isAlpha && c != '_')
  | [] => false

/-- The spacing that joins the items of a list. -/
def spacing (format : Format) : Separator → String
  | .space => format.blank
  | .comma => format.comma

mutual

def write (l : Layout) : Value → String
  | size s => s.css
  | keyword word => if isVerbatim word then word else Text.Escaped.identifier word
  | hex digits => writeHex l.format.shortHex digits
  | string content => Text.Escaped.quoted content
  | url target => "url(" ++ Text.Escaped.quoted target ++ ")"
  | function _ name arguments =>
    Text.Escaped.identifier name ++ "(" ++ writeArguments l arguments ++ ")"
  | pair first second => first.write l ++ l.space l.format.slash ++ second.write l
  | list separator items => l.join (spacing l.format separator) (writeItems l items)

def writeArguments (l : Layout) : Option Value → String
  | some v => v.write l
  | none => ""

def writeItems (l : Layout) : List Value → List String
  | v :: vs => v.write l :: writeItems l vs
  | [] => []

end

def css (v : Value) : String :=
  v.write {}

end Value
end Stylesheet
