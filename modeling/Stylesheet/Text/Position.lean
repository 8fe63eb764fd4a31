/-!
Lines and columns. The line ends `\r\n`, `\r` and form feed are made `\n` first; a position is
then a line and a column, both counted from one, the column in characters.
-/

namespace Stylesheet

namespace Text

/-- The text with every line end written `\n`. -/
def unifyLineEnds : List Char → List Char
  | [] => []
  | '\r' :: '\n' :: rest => '\n' :: unifyLineEnds rest
  | c :: rest => (if c = '\r' || c = '\x0c' then '\n' else c) :: unifyLineEnds rest

end Text

structure Position where
  line : Nat
  column : Nat
deriving DecidableEq

namespace Position

/-- The first character of a text. -/
def start : Position :=
  ⟨1, 1⟩

/-- Where declarations stand that come from no text. -/
def nowhere : Position :=
  ⟨0, 0⟩

def next (p : Position) (c : Char) : Position :=
  if c = '\n' then ⟨p.line + 1, 1⟩ else ⟨p.line, p.column + 1⟩

/-- The position behind a text that begins at `p`. -/
def after (p : Position) (cs : List Char) : Position :=
  cs.foldl next p

theorem after_append (p : Position) (cs ds : List Char) :
    p.after (cs ++ ds) = (p.after cs).after ds :=
  List.foldl_append

end Position
end Stylesheet
