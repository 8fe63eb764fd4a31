/-!
Formats of output. A format gives the spacing between the pieces of a style sheet. A line end in a
spacing stands for the line ending of the format and the indentation of the place, so that it is
written by way of a layout, which knows how deep it is.
-/

namespace Stylesheet

/-- The texts between the pieces of a style sheet. The defaults keep blocks on one line each. -/
structure Format where
  /-- Between `name:` and the value. -/
  afterName : String := " "
  /-- Between an opening brace and what follows it. -/
  beforeRules : String := ""
  betweenRules : String := ""
  /-- Between the last content of a block and its closing brace. -/
  afterRules : String := ""
  betweenBlocks : String := "\n"
  beforeBrace : String := " "
  betweenSelectors : String := ", "
  /-- Between the items of a comma list. -/
  comma : String := ", "
  /-- Between the items of a space list. -/
  blank : String := " "
  /-- Between the halves of a pair. -/
  slash : String := "/"
  beforeImportant : String := " "
  indentation : String := ""
  lineEnding : String := "\n"
  /-- Whether a semicolon also follows the last declaration. -/
  lastSemicolon : Bool := true
  /-- Whether a hex color is written with half the digits where that is the same color. -/
  shortHex : Bool := false

namespace Format

/-- No white space that can be left out. -/
def compact : Format where
  afterName := ""
  betweenBlocks := ""
  beforeBrace := ""
  betweenSelectors := ","
  comma := ","
  beforeImportant := ""
  lastSemicolon := false
  shortHex := true

/-- One declaration a line, indented with tabs. -/
def pretty : Format where
  beforeRules := "\n"
  betweenRules := "\n"
  afterRules := "\n"
  indentation := "\t"

end Format

/-- A format at some depth of nesting. -/
structure Layout where
  format : Format := {}
  depth : Nat := 0

namespace Layout

def deeper (l : Layout) : Layout :=
  { l with depth := l.depth + 1 }

/-- What a line end in a spacing stands for. -/
def lineBreak (l : Layout) : List Char :=
  l.format.lineEnding.toList ++ (List.replicate l.depth l.format.indentation.toList).flatten

/-- Writes a spacing of the format. -/
def space (l : Layout) (spacing : String) : String :=
  String.ofList (spacing.toList.flatMap fun c => if c = '\n' then l.lineBreak else [c])

def join (l : Layout) (spacing : String) (texts : List String) : String :=
  String.intercalate (l.space spacing) texts

end Layout
end Stylesheet
